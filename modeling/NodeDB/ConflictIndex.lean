import NodeDB.KeySets
import NodeDB.CycleBreaking
import NodeDB.KeyedFold

/-!
# The conflict index of a candidate batch

The index finds the pairs of a reader and a writer whose keys conflict without
comparing every key against every other.  It lists the transactions of each
exact key, every collection-scope key of a collection, and one row key for
each transaction with rows in the collection.
-/

namespace NodeDB.Sequencer

open Std Calvin List

/-- One key of one transaction: the transaction's index and the key's place in
its flattened set. -/
abbrev KeyRef := Nat × Nat

structure SideKeys where
  scopedKeys : List KeyRef := []
  rowKeys : List KeyRef := []

structure CollectionKeys where
  reads : SideKeys := {}
  writes : SideKeys := {}

structure ConflictIndex where
  reads : List (List FlatKey)
  writes : List (List FlatKey)
  readersOf : TreeMap KeyId (List Nat)
  writersOf : TreeMap KeyId (List Nat)
  byCollection : TreeMap String CollectionKeys

def pushTxn (list : List Nat) (txn : Nat) : List Nat :=
  if list.getLast? = some txn then list else list ++ [txn]

def pushKey (list : List KeyRef) (key : KeyRef) : List KeyRef :=
  if list.getLast?.map Prod.fst = some key.1 then list else list ++ [key]

def SideKeys.push (side : SideKeys) (scope : KeyScope) (key : KeyRef) : SideKeys :=
  match scope with
  | .row => { side with rowKeys := pushKey side.rowKeys key }
  | .collection => { side with scopedKeys := side.scopedKeys ++ [key] }

namespace CollectionKeys

def side (coll : CollectionKeys) : Access → SideKeys
  | .read => coll.reads
  | .write => coll.writes

def push (coll : CollectionKeys) (access : Access) (scope : KeyScope) (key : KeyRef) :
    CollectionKeys :=
  match access with
  | .read => { coll with reads := coll.reads.push scope key }
  | .write => { coll with writes := coll.writes.push scope key }

end CollectionKeys

open CollectionKeys

namespace ConflictIndex

def empty : ConflictIndex :=
  { reads := [], writes := [], readersOf := ∅, writersOf := ∅, byCollection := ∅ }

def keys (index : ConflictIndex) : Access → List (List FlatKey)
  | .read => index.reads
  | .write => index.writes

def txnsOf (index : ConflictIndex) : Access → TreeMap KeyId (List Nat)
  | .read => index.readersOf
  | .write => index.writersOf

/-- List one key of transaction `txn`, at place `place` of its flattened
set. -/
def addKey (access : Access) (txn : Nat) (index : ConflictIndex) (item : FlatKey × Nat) :
    ConflictIndex :=
  let key := item.1
  let place := item.2
  let listed : Option (List Nat) → Option (List Nat) :=
    fun txns => some (pushTxn (txns.getD []) txn)
  let byCollection := index.byCollection.alter key.collection fun coll =>
    some ((coll.getD {}).push access key.scope (txn, place))
  match access with
  | .read =>
    { index with
      readersOf := index.readersOf.alter key.keyId listed,
      byCollection := byCollection }
  | .write =>
    { index with
      writersOf := index.writersOf.alter key.keyId listed,
      byCollection := byCollection }

/-- Add a transaction's keys.  Transactions are added in index order. -/
def add (index : ConflictIndex) (txn : Nat) (reads writes : List FlatKey) : ConflictIndex :=
  let index := reads.zipIdx.foldl (addKey .read txn) index
  let index := writes.zipIdx.foldl (addKey .write txn) index
  { index with
    reads := index.reads ++ [reads],
    writes := index.writes ++ [writes] }

def keyAt (index : ConflictIndex) (access : Access) (ref : KeyRef) : Option FlatKey :=
  (index.keys access)[ref.1]?.bind (·[ref.2]?)

def refsConflict (index : ConflictIndex) (read write : KeyRef) : Bool :=
  match index.keyAt .read read, index.keyAt .write write with
  | some readKey, some writeKey => readKey.conflicts writeKey
  | _, _ => false

def exactPairs (index : ConflictIndex) : List (Nat × Nat) :=
  index.readersOf.toList.flatMap fun item =>
    match index.writersOf[item.1]? with
    | some writers => item.2.flatMap fun reader => writers.map (reader, ·)
    | none => []

def conflictingPairs (index : ConflictIndex) (reads writes : List KeyRef) :
    List (Nat × Nat) :=
  reads.flatMap fun read =>
    (writes.filter (index.refsConflict read)).map fun write => (read.1, write.1)

def collectionPairs (index : ConflictIndex) : List (Nat × Nat) :=
  index.byCollection.toList.flatMap fun item =>
    index.conflictingPairs item.2.reads.scopedKeys (item.2.writes.scopedKeys ++ item.2.writes.rowKeys) ++
      index.conflictingPairs item.2.reads.rowKeys item.2.writes.scopedKeys

end ConflictIndex

open ConflictIndex

/-- The successors of each transaction and each transaction's in-degree. -/
structure Edges where
  out : Nat → TreeSet Nat
  inDegree : Nat → Nat

namespace Edges

def empty : Edges :=
  { out := fun _ => ∅, inDegree := fun _ => 0 }

def add (edges : Edges) (pair : Nat × Nat) : Edges :=
  if pair.1 ≠ pair.2 ∧ pair.2 ∉ edges.out pair.1 then
    { out := Function.update edges.out pair.1 ((edges.out pair.1).insert pair.2),
      inDegree := Function.update edges.inDegree pair.2 (edges.inDegree pair.2 + 1) }
  else
    edges

end Edges

/-- The reorder edges from each reader to the writers it conflicts with. -/
def ConflictIndex.edges (index : ConflictIndex) : Edges :=
  (index.exactPairs ++ index.collectionPairs).foldl Edges.add Edges.empty

/-! ## Listing one key -/

namespace ConflictIndex

def txnsWith (index : ConflictIndex) (access : Access) (id : KeyId) : List Nat :=
  (index.txnsOf access)[id]?.getD []

def sideOf (index : ConflictIndex) (access : Access) (coll : String) : SideKeys :=
  (index.byCollection[coll]?.getD {}).side access

end ConflictIndex

theorem mem_pushTxn {list : List Nat} {txn other : Nat} :
    other ∈ pushTxn list txn ↔ other ∈ list ∨ other = txn := by
  unfold pushTxn
  split_ifs with hlast
  · constructor
    · exact .inl
    · rintro (hmem | rfl)
      · exact hmem
      · exact mem_of_getLast? hlast
  · simp

variable {list : List KeyRef} {index : ConflictIndex} {listings : Set Listing}

theorem mem_or_eq_of_mem_pushKey {key ref : KeyRef} (hmem : ref ∈ pushKey list key) :
    ref ∈ list ∨ ref = key := by
  unfold pushKey at hmem
  split_ifs at hmem
  · exact .inl hmem
  · simpa using hmem

theorem mem_pushKey_of_mem {ref : KeyRef} (key : KeyRef) (hmem : ref ∈ list) :
    ref ∈ pushKey list key := by
  unfold pushKey
  split_ifs
  · exact hmem
  · exact mem_append_left _ hmem

theorem exists_mem_pushKey (list : List KeyRef) (key : KeyRef) :
    ∃ place, (key.1, place) ∈ pushKey list key := by
  unfold pushKey
  split_ifs with hlast
  · obtain ⟨⟨txn, place⟩, hmem, rfl⟩ := Option.map_eq_some_iff.mp hlast
    exact ⟨place, mem_of_getLast? hmem⟩
  · exact ⟨key.2, by simp⟩

section AddKey

variable (index : ConflictIndex) (access access' : Access) (txn place : Nat) (key : FlatKey)

theorem keys_addKey : (index.addKey access txn (key, place)).keys access' = index.keys access' := by
  cases access <;> cases access' <;> rfl

theorem mem_txnsWith_addKey (id : KeyId) (other : Nat) :
    other ∈ (index.addKey access txn (key, place)).txnsWith access' id ↔
      other ∈ index.txnsWith access' id ∨
        (access = access' ∧ key.keyId = id ∧ other = txn) := by
  by_cases hid : key.keyId = id
  · subst hid
    cases access <;> cases access' <;>
      simp [txnsWith, txnsOf, addKey, mem_pushTxn]
  · cases access <;> cases access' <;>
      simp [txnsWith, txnsOf, addKey, KeyedFold.getElem?_alter_ne _ (Ne.symm hid), hid]

theorem sideOf_addKey (coll : String) :
    (index.addKey access txn (key, place)).sideOf access' coll =
      if access = access' ∧ key.collection = coll then
        (index.sideOf access' coll).push key.scope (txn, place)
      else
        index.sideOf access' coll := by
  by_cases hcoll : key.collection = coll
  · subst hcoll
    cases access <;> cases access' <;>
      simp [sideOf, addKey, push, side]
  · cases access <;> cases access' <;>
      simp [sideOf, addKey, KeyedFold.getElem?_alter_ne _ (Ne.symm hcoll), hcoll]

theorem mem_scopedKeys_addKey (coll : String) (ref : KeyRef) :
    ref ∈ ((index.addKey access txn (key, place)).sideOf access' coll).scopedKeys ↔
      ref ∈ (index.sideOf access' coll).scopedKeys ∨
        (access = access' ∧ key.collection = coll ∧ key.scope = .collection ∧
          ref = (txn, place)) := by
  rw [sideOf_addKey]
  split_ifs with hsame
  · cases hscope : key.scope <;> simp [SideKeys.push, hsame]
  · constructor
    · exact .inl
    · rintro (hmem | ⟨haccess, hcoll, -⟩)
      · exact hmem
      · exact absurd ⟨haccess, hcoll⟩ hsame

variable {coll : String}

theorem mem_rowKeys_addKey_of_mem {ref : KeyRef}
    (hmem : ref ∈ (index.sideOf access' coll).rowKeys) :
    ref ∈ ((index.addKey access txn (key, place)).sideOf access' coll).rowKeys := by
  rw [sideOf_addKey]
  split_ifs
  · cases key.scope with
    | row => exact mem_pushKey_of_mem _ hmem
    | collection => exact hmem
  · exact hmem

theorem mem_or_eq_of_mem_rowKeys_addKey {ref : KeyRef}
    (hmem : ref ∈ ((index.addKey access txn (key, place)).sideOf access' coll).rowKeys) :
    ref ∈ (index.sideOf access' coll).rowKeys ∨
      (access = access' ∧ key.collection = coll ∧ key.scope = .row ∧ ref = (txn, place)) := by
  rw [sideOf_addKey] at hmem
  split_ifs at hmem with hsame
  · cases hscope : key.scope with
    | row =>
      rw [hscope] at hmem
      obtain hold | heq := mem_or_eq_of_mem_pushKey hmem
      · exact .inl hold
      · exact .inr ⟨hsame.1, hsame.2, rfl, heq⟩
    | collection =>
      rw [hscope] at hmem
      exact .inl hmem
  · exact .inl hmem

theorem exists_mem_rowKeys_addKey (hrow : key.scope = .row) :
    ∃ place', (txn, place') ∈ ((index.addKey access txn (key, place)).sideOf access
      key.collection).rowKeys := by
  rw [sideOf_addKey, if_pos ⟨rfl, rfl⟩, hrow]
  exact exists_mem_pushKey _ (txn, place)

end AddKey

/-! ## What a batch of keys leaves in the index -/

structure Listing where
  access : Access
  txn : Nat
  place : Nat
  key : FlatKey

def Listing.ref (listing : Listing) : KeyRef :=
  (listing.txn, listing.place)

/-- The index holds exactly the listed keys, with one row key standing for all
rows of a transaction in a collection. -/
structure Lists (index : ConflictIndex) (listings : Set Listing) : Prop where
  exact : ∀ listing ∈ listings,
    listing.txn ∈ index.txnsWith listing.access listing.key.keyId
  exactSound : ∀ (access : Access) (id : KeyId), ∀ txn ∈ index.txnsWith access id,
    ∃ listing ∈ listings, listing.access = access ∧ listing.key.keyId = id ∧
      listing.txn = txn
  scope : ∀ listing ∈ listings, listing.key.scope = .collection →
    listing.ref ∈ (index.sideOf listing.access listing.key.collection).scopedKeys
  scopeSound : ∀ (access : Access) (coll : String),
    ∀ ref ∈ (index.sideOf access coll).scopedKeys,
      ∃ listing ∈ listings, listing.access = access ∧ listing.ref = ref
  row : ∀ listing ∈ listings, listing.key.scope = .row →
    ∃ place, (listing.txn, place) ∈
      (index.sideOf listing.access listing.key.collection).rowKeys
  rowSound : ∀ (access : Access) (coll : String), ∀ ref ∈ (index.sideOf access coll).rowKeys,
    ∃ listing ∈ listings, listing.access = access ∧ listing.ref = ref ∧
      listing.key.collection = coll ∧ listing.key.scope = .row

theorem Lists.addKey (hlists : Lists index listings) (listing : Listing) :
    Lists (index.addKey listing.access listing.txn (listing.key, listing.place))
      (insert listing listings) := by
  refine ⟨?_, ?_, ?_, ?_, ?_, ?_⟩
  · intro other hother
    rw [mem_txnsWith_addKey]
    obtain rfl | hother := Set.mem_insert_iff.mp hother
    · exact .inr ⟨rfl, rfl, rfl⟩
    · exact .inl (hlists.exact other hother)
  · intro access id txn htxn
    obtain hold | ⟨haccess, hid, rfl⟩ := (mem_txnsWith_addKey ..).mp htxn
    · obtain ⟨other, hother, hsame⟩ := hlists.exactSound access id txn hold
      exact ⟨other, Set.mem_insert_of_mem _ hother, hsame⟩
    · exact ⟨listing, Set.mem_insert _ _, haccess, hid, rfl⟩
  · intro other hother hscope
    rw [mem_scopedKeys_addKey]
    obtain rfl | hother := Set.mem_insert_iff.mp hother
    · exact .inr ⟨rfl, rfl, hscope, rfl⟩
    · exact .inl (hlists.scope other hother hscope)
  · intro access coll ref href
    obtain hold | ⟨haccess, -, -, rfl⟩ := (mem_scopedKeys_addKey ..).mp href
    · obtain ⟨other, hother, hsame⟩ := hlists.scopeSound access coll ref hold
      exact ⟨other, Set.mem_insert_of_mem _ hother, hsame⟩
    · exact ⟨listing, Set.mem_insert _ _, haccess, rfl⟩
  · intro other hother hrow
    obtain rfl | hother := Set.mem_insert_iff.mp hother
    · exact exists_mem_rowKeys_addKey _ _ _ _ _ hrow
    · obtain ⟨place, hplace⟩ := hlists.row other hother hrow
      exact ⟨place, mem_rowKeys_addKey_of_mem _ _ _ _ _ _ hplace⟩
  · intro access coll ref href
    obtain hold | ⟨haccess, hcoll, hrow, rfl⟩ := mem_or_eq_of_mem_rowKeys_addKey _ _ _ _ _ _ href
    · obtain ⟨other, hother, hsame⟩ := hlists.rowSound access coll ref hold
      exact ⟨other, Set.mem_insert_of_mem _ hother, hsame⟩
    · exact ⟨listing, Set.mem_insert _ _, haccess, rfl, hcoll, hrow⟩

theorem lists_empty : Lists .empty ∅ := by
  refine ⟨?_, ?_, ?_, ?_, ?_, ?_⟩
  · simp
  · intro access id txn htxn
    cases access <;> simp [txnsWith, txnsOf, empty] at htxn
  · simp
  · intro access coll ref href
    cases access <;> simp [sideOf, empty, side] at href
  · simp
  · intro access coll ref href
    cases access <;> simp [sideOf, empty, side] at href

theorem Lists.congr {listings' : Set Listing} (hlists : Lists index listings)
    (heq : listings = listings') : Lists index listings' :=
  heq ▸ hlists

theorem Lists.addKeys (hlists : Lists index listings) (access : Access) (txn : Nat)
    (items : List (FlatKey × Nat)) :
    Lists (items.foldl (ConflictIndex.addKey access txn) index)
      (listings ∪ {listing | ∃ item ∈ items, listing = ⟨access, txn, item.2, item.1⟩}) := by
  induction items generalizing index listings with
  | nil => simpa using hlists
  | cons item rest ih =>
    have hnext := ih (hlists.addKey ⟨access, txn, item.2, item.1⟩)
    refine hnext.congr ?_
    ext listing
    simp
    tauto

def sideKeys (access : Access) (sets : List FlatKey × List FlatKey) : List FlatKey :=
  match access with
  | .read => sets.1
  | .write => sets.2

def ConflictIndex.ofKeys (batch : List (List FlatKey × List FlatKey)) : ConflictIndex :=
  batch.zipIdx.foldl (fun index item => index.add item.2 item.1.1 item.1.2) .empty

def batchKeys (batch : List (List FlatKey × List FlatKey)) : Set Listing :=
  {listing | ∃ sets, batch[listing.txn]? = some sets ∧
    (sideKeys listing.access sets)[listing.place]? = some listing.key}

theorem ofKeys_append (batch : List (List FlatKey × List FlatKey))
    (sets : List FlatKey × List FlatKey) :
    ConflictIndex.ofKeys (batch ++ [sets]) =
      (ConflictIndex.ofKeys batch).add batch.length sets.1 sets.2 := by
  simp [ofKeys, zipIdx_append]

theorem keys_addKeys (index : ConflictIndex) (access access' : Access) (txn : Nat)
    (items : List (FlatKey × Nat)) :
    (items.foldl (ConflictIndex.addKey access txn) index).keys access' =
      index.keys access' := by
  induction items generalizing index with
  | nil => rfl
  | cons item rest ih => rw [foldl_cons, ih, keys_addKey]

theorem keys_add (index : ConflictIndex) (access : Access) (txn : Nat)
    (sets : List FlatKey × List FlatKey) :
    (index.add txn sets.1 sets.2).keys access = index.keys access ++ [sideKeys access sets] := by
  have hread := keys_addKeys index .read access txn sets.1.zipIdx
  have hwrite := keys_addKeys (sets.1.zipIdx.foldl (addKey .read txn) index)
    .write access txn sets.2.zipIdx
  rw [hread] at hwrite
  rw [← hwrite]
  cases access <;> rfl

theorem keys_ofKeys (access : Access) (batch : List (List FlatKey × List FlatKey)) :
    (ConflictIndex.ofKeys batch).keys access = batch.map (sideKeys access) := by
  induction batch using List.reverseRecOn with
  | nil => cases access <;> rfl
  | append_singleton batch sets ih =>
    rw [ofKeys_append, keys_add, ih, map_append, map_singleton]

theorem keyAt_of_mem {batch : List (List FlatKey × List FlatKey)} {listing : Listing}
    (hmem : listing ∈ batchKeys batch) :
    (ConflictIndex.ofKeys batch).keyAt listing.access listing.ref = some listing.key := by
  obtain ⟨sets, hsets, hkey⟩ := hmem
  simp [keyAt, keys_ofKeys, Listing.ref, hsets, hkey]

theorem Lists.withKeys (hlists : Lists index listings) (reads writes : List (List FlatKey)) :
    Lists { index with reads := reads, writes := writes } listings := by
  have htxns : ∀ access id, ({ index with reads := reads, writes := writes } :
      ConflictIndex).txnsWith access id = index.txnsWith access id := by
    intro access id
    cases access <;> rfl
  exact
    { exact := by simpa only [htxns] using hlists.exact,
      exactSound := by simpa only [htxns] using hlists.exactSound,
      scope := hlists.scope,
      scopeSound := hlists.scopeSound,
      row := hlists.row,
      rowSound := hlists.rowSound }

theorem Lists.add (hlists : Lists index listings) (txn : Nat) (sets : List FlatKey × List FlatKey) :
    Lists (index.add txn sets.1 sets.2)
      (listings ∪ {listing | listing.txn = txn ∧
        (sideKeys listing.access sets)[listing.place]? = some listing.key}) := by
  have hkeys := (hlists.addKeys .read txn sets.1.zipIdx).addKeys .write txn sets.2.zipIdx
  refine (hkeys.withKeys _ _).congr ?_
  ext ⟨access, other, place, key⟩
  cases access <;> simp [sideKeys, mk_mem_zipIdx_iff_getElem?] <;> tauto

theorem lists_ofKeys (batch : List (List FlatKey × List FlatKey)) :
    Lists (ConflictIndex.ofKeys batch) (batchKeys batch) := by
  induction batch using List.reverseRecOn with
  | nil =>
    refine lists_empty.congr ?_
    ext listing
    simp [batchKeys]
  | append_singleton batch sets ih =>
    rw [ofKeys_append]
    refine (ih.add batch.length sets).congr ?_
    ext listing
    simp only [batchKeys, Set.mem_union, Set.mem_ofPred_eq, getElem?_append, getElem?_singleton]
    by_cases hbound : listing.txn < batch.length
    · simp [hbound, hbound.ne]
    · obtain heq | hgt := (Nat.le_of_not_lt hbound).eq_or_lt
      · simp [← heq]
      · simp [hbound, hgt.ne', Nat.sub_ne_zero_of_lt hgt]

end NodeDB.Sequencer
