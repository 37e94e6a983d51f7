import NodeDB.LockManager

/-!
# Key sets, and the two ways they are expanded

A transaction declares what it reads and writes as engine key sets.  The
sequencer's validator flattens them into keys that carry a discriminant and
raw bytes, and compares keys by `conflicts`.  The scheduler of a vshard
expands them into a lock request over typed lock keys.
-/

namespace NodeDB.Calvin

open Std

/-- What a transaction declares about one collection.  The source keeps each
list sorted and without repetition; nothing below depends on it. -/
inductive EngineKeySet where
  | document (coll : String) (surrogates : List UInt32)
  | vector (coll : String) (surrogates : List UInt32)
  | kv (coll : String) (keys : List (List UInt8))
  | edge (coll : String) (edges : List (UInt32 × UInt32)) (homeVshards : List UInt32)
  | array (coll : String) (vshards : List UInt32)
  | collection (coll : String) (vshards : List UInt32)
  | unique (coll : String) (index : String) (values : List (List UInt8))
  deriving DecidableEq, Repr

def EngineKeySet.name : EngineKeySet → String
  | document coll _ => coll
  | vector coll _ => coll
  | kv coll _ => coll
  | edge coll _ _ => coll
  | array coll _ => coll
  | collection coll _ => coll
  | unique coll _ _ => coll

abbrev ReadWriteSet := List EngineKeySet

/-! ## The validator's flattened keys -/

/-- The identity of a flattened key: discriminant, collection, bytes. -/
structure KeyId where
  discriminant : Nat
  collection : String
  keyBytes : List UInt8
  deriving DecidableEq, Repr

namespace KeyId

instance : Ord KeyId :=
  ⟨compareLex (compareOn KeyId.discriminant)
    (compareLex (compareOn KeyId.collection) (compareOn KeyId.keyBytes))⟩

instance : TransOrd KeyId :=
  inferInstanceAs (TransCmp (compareLex (compareOn KeyId.discriminant)
    (compareLex (compareOn KeyId.collection) (compareOn KeyId.keyBytes))))

instance : LawfulEqOrd KeyId where
  eq_of_compare {a b} h := by
    obtain ⟨hdiscriminant, hrest⟩ := compareLex_eq_eq.mp h
    obtain ⟨hcollection, hbytes⟩ := compareLex_eq_eq.mp hrest
    obtain ⟨discriminant, collection, keyBytes⟩ := a
    simp only [compareOn] at hdiscriminant hcollection hbytes
    rw [LawfulEqOrd.compare_eq_iff_eq] at hdiscriminant hcollection hbytes
    rw [hdiscriminant, hcollection, hbytes]

end KeyId

inductive KeyScope where
  | row
  | collection
  deriving DecidableEq, Repr

structure FlatKey where
  discriminant : Nat
  engineName : String
  collection : String
  keyBytes : List UInt8
  scope : KeyScope
  deriving DecidableEq, Repr

namespace FlatKey

def keyId (key : FlatKey) : KeyId :=
  { discriminant := key.discriminant,
    collection := key.collection,
    keyBytes := key.keyBytes }

def arrayTag : Nat := 4

def conflicts (read write : FlatKey) : Bool :=
  if read.collection ≠ write.collection then
    false
  else if read.discriminant = write.discriminant ∧ read.keyBytes = write.keyBytes then
    true
  else
    match read.scope, write.scope with
    | .row, .row => false
    | .collection, .collection =>
      -- arrays on distinct vshards are disjoint
      !(read.discriminant == arrayTag && write.discriminant == arrayTag)
    | .collection, .row => true
    | .row, .collection => true

end FlatKey

def leBytes (word : UInt32) : List UInt8 :=
  [UInt8.ofNat word.toNat, UInt8.ofNat (word.toNat / 2 ^ 8),
    UInt8.ofNat (word.toNat / 2 ^ 16), UInt8.ofNat (word.toNat / 2 ^ 24)]

def stringBytes (text : String) : List UInt8 :=
  text.toByteArray.data.toList

def flatKeys (discriminant : Nat) (engineName coll : String) (scope : KeyScope)
    (keys : List (List UInt8)) : List FlatKey :=
  keys.map fun keyBytes =>
    { discriminant := discriminant,
      engineName := engineName,
      collection := coll,
      keyBytes := keyBytes,
      scope := scope }

def EngineKeySet.flatten : EngineKeySet → List FlatKey
  | document coll surrogates =>
    flatKeys 0 "document" coll .row (surrogates.map leBytes)
  | vector coll surrogates =>
    flatKeys 1 "vector" coll .row (surrogates.map leBytes)
  | kv coll keys => flatKeys 2 "kv" coll .row keys
  | edge coll edges _ =>
    flatKeys 3 "edge" coll .row (edges.map fun edge => leBytes edge.1 ++ leBytes edge.2)
  | array coll vshards =>
    flatKeys FlatKey.arrayTag "array" coll .collection (vshards.map leBytes)
  | collection coll _ => flatKeys 5 "collection" coll .collection [[]]
  | unique coll index values =>
    flatKeys 6 "unique" coll .row (values.map fun value => stringBytes index ++ 0 :: value)

def flattenSet (set : ReadWriteSet) : List FlatKey :=
  set.flatMap EngineKeySet.flatten

def KeysConflict (reads writes : ReadWriteSet) : Prop :=
  ∃ read ∈ flattenSet reads, ∃ write ∈ flattenSet writes, read.conflicts write = true

/-! ## The scheduler's lock keys -/

inductive LockKey where
  | surrogate (coll : String) (row : UInt32)
  | kv (coll : String) (key : List UInt8)
  | edge (coll : String) (src dst : UInt32)
  | collection (coll : String)
  | unique (coll : String) (index : String) (value : List UInt8)
  deriving DecidableEq, Repr

namespace LockKey

def tag : LockKey → Nat
  | surrogate _ _ => 0
  | kv _ _ => 1
  | edge _ _ _ => 2
  | collection _ => 3
  | unique _ _ _ => 4

def name : LockKey → String
  | surrogate coll _ => coll
  | kv coll _ => coll
  | edge coll _ _ => coll
  | collection coll => coll
  | unique coll _ _ => coll

def index : LockKey → String
  | unique _ index _ => index
  | _ => ""

def row : LockKey → List Nat
  | surrogate _ row => [row.toNat]
  | kv _ key => key.map UInt8.toNat
  | edge _ src dst => [src.toNat, dst.toNat]
  | collection _ => []
  | unique _ _ value => value.map UInt8.toNat

instance : Ord LockKey :=
  ⟨compareLex (compareOn tag)
    (compareLex (compareOn name) (compareLex (compareOn index) (compareOn row)))⟩

instance : TransOrd LockKey :=
  inferInstanceAs (TransCmp (compareLex (compareOn tag)
    (compareLex (compareOn name) (compareLex (compareOn index) (compareOn row)))))

theorem map_toNat_inj {a b : List UInt8} (h : a.map UInt8.toNat = b.map UInt8.toNat) : a = b :=
  List.map_injective_iff.mpr (fun _ _ => UInt8.toNat_inj.mp) h

theorem eq_of_fields {a b : LockKey} (htag : a.tag = b.tag) (hname : a.name = b.name)
    (hindex : a.index = b.index) (hrow : a.row = b.row) : a = b := by
  cases a <;> cases b <;> simp_all [tag, name, index, row, UInt32.toNat_inj] <;>
    exact map_toNat_inj hrow

instance : LawfulEqOrd LockKey where
  eq_of_compare {a b} h := by
    obtain ⟨htag, h⟩ := compareLex_eq_eq.mp h
    obtain ⟨hname, h⟩ := compareLex_eq_eq.mp h
    obtain ⟨hindex, hrow⟩ := compareLex_eq_eq.mp h
    simp only [compareOn] at htag hname hindex hrow
    rw [LawfulEqOrd.compare_eq_iff_eq] at htag hname hindex hrow
    exact eq_of_fields htag hname hindex hrow

end LockKey

/-- Whether a key set comes from a read set or a write set. -/
inductive Access where
  | read
  | write
  deriving DecidableEq, Repr

namespace Access

def rowMode : Access → LockMode
  | read => .shared
  | write => .exclusive

def announceMode : Access → LockMode
  | read => .intentShared
  | write => .intent

end Access

def EngineKeySet.rowLocks : EngineKeySet → List LockKey
  | document coll surrogates => surrogates.map (LockKey.surrogate coll)
  | vector coll surrogates => surrogates.map (LockKey.surrogate coll)
  | kv coll keys => keys.map (LockKey.kv coll)
  | edge coll edges _ => edges.map fun edge => LockKey.edge coll edge.1 edge.2
  | array _ _ => []
  | collection _ _ => []
  | unique coll index values => values.map (LockKey.unique coll index)

def EngineKeySet.locksWhole : EngineKeySet → Bool
  | array _ _ => true
  | collection _ _ => true
  | _ => false

/-- Ask for `key` in `mode`, merged with any mode already asked for. -/
def request (keys : LockRequest LockKey) (key : LockKey) (mode : LockMode) :
    LockRequest LockKey :=
  keys.alter key fun held => some (held.elim mode (·.merge mode))

def addKeySet (keys : LockRequest LockKey) (set : EngineKeySet) (access : Access) :
    LockRequest LockKey :=
  let whole := LockKey.collection set.name
  if set.locksWhole then
    request keys whole access.rowMode
  else
    -- a row key announces itself on its collection
    request (set.rowLocks.foldl (fun keys key => request keys key access.rowMode) keys)
      whole access.announceMode

end NodeDB.Calvin

/-! ## Transactions as the sequencer orders them -/

namespace NodeDB.Sequencer

open Calvin

/-- The parts that carry the plans of a multi-part transaction. -/
structure MultiPartPlans where
  partCount : Nat
  perVshard : List (UInt32 × Nat)
  deriving DecidableEq, Repr

/-- What the sequencer reads of a submitted transaction. -/
structure TxClass where
  readSet : ReadWriteSet
  writeSet : ReadWriteSet
  plans : List UInt8
  tenantId : Nat
  databaseId : Nat
  passiveVshards : List UInt32
  lockOwner : Option TxnId
  multiPart : Option MultiPartPlans
  deriving DecidableEq, Repr

/-- A transaction at its place in the global order. -/
structure SequencedTxn where
  epoch : Nat
  position : Nat
  txClass : TxClass
  epochSystemMs : Int
  /-- How many positions of the epoch target the vshard this copy goes to. -/
  epochVshardTxnCount : Nat
  lockOwner : Option TxnId
  deriving DecidableEq, Repr

end NodeDB.Sequencer
