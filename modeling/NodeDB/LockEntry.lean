import Mathlib.Tactic

/-!
# Per-key lock state of the Calvin lock table

A lock entry holds one group of compatible holders and a first-in first-out
queue of waiters, each with the mode it asked for.
-/

namespace NodeDB.Calvin

/-- The mode under which a lock is held or requested. -/
inductive LockMode where
  | intentShared
  | intent
  | shared
  | exclusive
  deriving DecidableEq, Repr

namespace LockMode

def compatible : LockMode → LockMode → Bool
  | intentShared, intentShared => true
  | intentShared, intent => true
  | intentShared, shared => true
  | intent, intentShared => true
  | shared, intentShared => true
  | intent, intent => true
  | shared, shared => true
  | intentShared, exclusive => false
  | intent, exclusive => false
  | shared, exclusive => false
  | exclusive, _ => false
  | intent, shared => false
  | shared, intent => false

def merge (mode other : LockMode) : LockMode :=
  if mode = other then
    mode
  else
    match mode, other with
    | intentShared, stronger => stronger
    | stronger, intentShared => stronger
    | _, _ => exclusive

def Covers (mode other : LockMode) : Prop :=
  mode.merge other = mode
  deriving Decidable

theorem covers_refl (mode : LockMode) : mode.Covers mode := by
  cases mode <;> decide

theorem Covers.trans {a b c : LockMode} (hab : a.Covers b) (hbc : b.Covers c) : a.Covers c := by
  revert hab hbc
  cases a <;> cases b <;> cases c <;> decide

theorem merge_covers_left (mode other : LockMode) : (mode.merge other).Covers mode := by
  cases mode <;> cases other <;> decide

theorem merge_covers_right (mode other : LockMode) : (mode.merge other).Covers other := by
  cases mode <;> cases other <;> decide

theorem Covers.merge {a b c : LockMode} (hb : a.Covers b) (hc : a.Covers c) :
    a.Covers (b.merge c) := by
  revert hb hc
  cases a <;> cases b <;> cases c <;> decide

theorem Covers.compatible {a b c : LockMode} (hab : a.Covers b)
    (hac : a.compatible c = true) : b.compatible c = true := by
  revert hab hac
  cases a <;> cases b <;> cases c <;> decide

end LockMode

/-! ## Transactions -/

/-- A transaction by its schedule position, ordered by epoch and position. -/
structure TxnId where
  epoch : Nat
  position : Nat
  deriving DecidableEq, Repr

namespace TxnId

instance : Ord TxnId :=
  ⟨compareLex (compareOn TxnId.epoch) (compareOn TxnId.position)⟩

instance : Std.TransOrd TxnId :=
  inferInstanceAs (Std.TransCmp (compareLex (compareOn TxnId.epoch) (compareOn TxnId.position)))

instance : Std.LawfulEqOrd TxnId where
  eq_of_compare {a b} h := by
    have hparts := compareLex_eq_eq.mp h
    rcases a with ⟨epoch, position⟩
    rcases b with ⟨epoch', position'⟩
    simp only [compareOn] at hparts
    rw [Std.LawfulEqOrd.compare_eq_iff_eq, Std.LawfulEqOrd.compare_eq_iff_eq] at hparts
    rw [hparts.1, hparts.2]

def autocommitEpoch : Nat := 2 ^ 64 - 1

def isAutocommit (txn : TxnId) : Bool :=
  decide (txn.epoch = autocommitEpoch)

def reservationPositionBand : Nat := 2 ^ 31

/-- Whether this id owns a read reservation rather than a batch
transaction. -/
def isReservation (txn : TxnId) : Bool :=
  decide (reservationPositionBand ≤ txn.position)

end TxnId

/-! ## Lock entries -/

structure LockEntry where
  mode : LockMode
  holders : List (TxnId × LockMode)
  waiters : List (TxnId × LockMode)
  deriving DecidableEq, Repr

namespace LockEntry

def holds (entry : LockEntry) (txn : TxnId) : Bool :=
  entry.holders.any fun holder => decide (holder.1 = txn)

def modeOf (entry : LockEntry) (txn : TxnId) : Option LockMode :=
  (entry.holders.find? fun holder => decide (holder.1 = txn)).map Prod.snd

def hasWaiter (entry : LockEntry) (txn : TxnId) : Bool :=
  entry.waiters.any fun waiter => decide (waiter.1 = txn)

/-- Whether every holder other than `txn` is compatible with `mode`. -/
def othersCompatible (entry : LockEntry) (txn : TxnId) (mode : LockMode) : Bool :=
  (entry.holders.filter fun holder => decide (holder.1 ≠ txn)).all
    fun holder => holder.2.compatible mode

/-- Set `mode` to the merge of every holder's mode.  An entry with no holder
keeps its last mode. -/
def regroup (entry : LockEntry) : LockEntry :=
  match entry.holders with
  | [] => entry
  | first :: rest =>
    { entry with
      mode := rest.foldl (fun mode holder => mode.merge holder.2) first.2 }

/-- The holders with `txn` added in `mode`, or its mode raised to cover
`mode`. -/
def raise (txn : TxnId) (mode : LockMode) :
    List (TxnId × LockMode) → List (TxnId × LockMode)
  | [] => [(txn, mode)]
  | holder :: rest =>
    if holder.1 = txn then
      (holder.1, holder.2.merge mode) :: rest
    else
      holder :: raise txn mode rest

def hold (entry : LockEntry) (txn : TxnId) (mode : LockMode) : LockEntry :=
  { entry with holders := raise txn mode entry.holders }.regroup

def dropHolder (entry : LockEntry) (txn : TxnId) : LockEntry :=
  { entry with
    holders := entry.holders.filter fun holder => decide (holder.1 ≠ txn) }.regroup

def grant (txn : TxnId) (mode : LockMode) : Option LockEntry → Option LockEntry
  | none => some { mode := mode, holders := [(txn, mode)], waiters := [] }
  | some entry => some (entry.hold txn mode)

/-- Queue a requester.  A requester that already waits stays as it is; one
that holds the key drops its hold and waits for the merged mode. -/
def enqueue (txn : TxnId) (mode : LockMode) : Option LockEntry → Option LockEntry
  | none => none
  | some entry =>
    if entry.hasWaiter txn then
      some entry
    else
      match entry.modeOf txn with
      | some own =>
        let entry := entry.dropHolder txn
        some { entry with waiters := entry.waiters ++ [(txn, own.merge mode)] }
      | none =>
        some { entry with waiters := entry.waiters ++ [(txn, mode)] }

def wound (txn : TxnId) (mode : LockMode) : Option LockEntry → Option LockEntry
  | none => none
  | some entry =>
    let wanted :=
      match entry.modeOf txn with
      | none => mode
      | some own => own.merge mode
    some { entry with holders := [(txn, wanted)], mode := wanted }

def leave (entry : LockEntry) (txn : TxnId) : LockEntry :=
  let entry := entry.dropHolder txn
  { entry with
    waiters := entry.waiters.filter fun waiter => decide (waiter.1 ≠ txn) }

/-- Grant the waiters from the front while they are compatible with the
holders.  Returns the entry left and the granted transactions. -/
def serve (entry : LockEntry) : List (TxnId × LockMode) → LockEntry × List TxnId
  | [] => ({ entry with waiters := [] }, [])
  | (next, mode) :: rest =>
    if !entry.holders.isEmpty && !entry.mode.compatible mode then
      ({ entry with waiters := (next, mode) :: rest }, [])
    else
      let served := (entry.hold next mode).serve rest
      (served.1, next :: served.2)

end LockEntry

end NodeDB.Calvin
