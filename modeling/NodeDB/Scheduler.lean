import NodeDB.LockGrants

/-!
# The Calvin scheduler of one vShard

The scheduler feeds the sequenced inputs to its lock manager.  A transaction
locks under its schedule position or under the reservation its coordinator
read with.  It is dispatched when it holds all its keys and, if its plans
travel in parts, when they have arrived.  What the data plane does with a
dispatched transaction is left open: it completes at some later point.
-/

namespace NodeDB.Calvin

open Std

/-- A sequenced transaction as this vShard's scheduler reads it: the keys its
read and write sets expand to, and how many parts of its plans target the
vShard if they travel in parts. -/
structure SequencedTxn (κ : Type) [Ord κ] where
  epoch : Nat
  position : Nat
  lockOwner : Option TxnId
  keys : LockRequest κ
  multiPart : Option Nat

inductive SchedulerInput (κ : Type) [Ord κ] where
  | txn (txn : SequencedTxn κ)
  | reserve (owner : TxnId) (key : κ)
  | release (owner : TxnId)
  | cutMarker
  | txnPart (txn : TxnId) (index : Nat)
  | partsAbandoned (txn : TxnId)

/-- The parts one transaction owes this vShard and those that arrived. -/
structure Assembly where
  expected : Nat
  received : TreeSet Nat
  abandoned : Bool

structure Scheduler (κ : Type) [Ord κ] where
  lockManager : LockManager κ
  calls : List (LockCall κ)
  maxInputEpoch : Nat
  blocked : TreeMap TxnId (SequencedTxn κ)
  pending : TreeMap TxnId TxnId
  assemblies : TreeMap TxnId Assembly
  /-- Transactions that hold their locks and wait for parts, with their lock
  owners. -/
  awaiting : TreeMap TxnId (SequencedTxn κ × TxnId)
  applied : TreeSet TxnId

variable {κ : Type} [Ord κ]

namespace SequencedTxn

def id (txn : SequencedTxn κ) : TxnId :=
  ⟨txn.epoch, txn.position⟩

def owner (txn : SequencedTxn κ) : TxnId :=
  txn.lockOwner.getD txn.id

end SequencedTxn

def Assembly.isComplete (assembly : Assembly) : Bool :=
  decide (assembly.expected ≤ assembly.received.size)

def LockManager.isReady (manager : LockManager κ) (txn : TxnId) (keys : LockRequest κ) :
    Bool :=
  keys.keys.all fun key =>
    match manager.table[key]? with
    | none => true
    | some entry => entry.holds txn

namespace Scheduler

def new : Scheduler κ :=
  { lockManager := .new, calls := [], maxInputEpoch := 0, blocked := ∅, pending := ∅,
    assemblies := ∅, awaiting := ∅, applied := ∅ }

/-- Epochs a read reservation can live before it is reaped as orphaned. -/
def leaseEpochs : Nat := 250

/-! ## Lock calls -/

def acquireLocks (scheduler : Scheduler κ) (owner : TxnId) (keys : LockRequest κ) :
    AcquireOutcome × Scheduler κ :=
  let acquired := scheduler.lockManager.acquire owner keys
  (acquired.1, { scheduler with
    lockManager := acquired.2
    calls := scheduler.calls ++ [.acquire owner keys] })

def releaseLocks (scheduler : Scheduler κ) (owner : TxnId) : List TxnId × Scheduler κ :=
  let released := scheduler.lockManager.release owner
  (released.1, { scheduler with
    lockManager := released.2
    calls := scheduler.calls ++ [.release owner] })

def reapReservations (scheduler : Scheduler κ) (epochThreshold : Nat) :
    List TxnId × Scheduler κ :=
  let reaped := scheduler.lockManager.reapExpiredShared epochThreshold
  (reaped.1, { scheduler with
    lockManager := reaped.2
    calls := scheduler.calls ++ [.reapExpiredShared epochThreshold] })

/-! ## Dispatch -/

/-- Take a promoted transaction out of the blocked ones, after an acquire that
is meant to grant nothing new. -/
def confirmPromoted (state : List (SequencedTxn κ × TxnId) × Scheduler κ) (waiter : TxnId) :
    List (SequencedTxn κ × TxnId) × Scheduler κ :=
  let scheduler := state.2
  match scheduler.blocked[waiter]? with
  | none => state
  | some txn =>
    if scheduler.lockManager.isReady waiter txn.keys then
      let scheduler := (scheduler.acquireLocks waiter txn.keys).2
      (state.1 ++ [(txn, waiter)],
        { scheduler with blocked := scheduler.blocked.erase waiter })
    else
      state

def confirmAll (scheduler : Scheduler κ) (promoted : List TxnId) :
    List (SequencedTxn κ × TxnId) × Scheduler κ :=
  promoted.foldl confirmPromoted ([], scheduler)

/-- Release a finished transaction's locks.  Returns the transactions to
dispatch next. -/
def releaseAndMarkApplied (scheduler : Scheduler κ) (txn owner : TxnId) :
    List (SequencedTxn κ × TxnId) × Scheduler κ :=
  let released := scheduler.releaseLocks owner
  let confirmed := released.2.confirmAll released.1
  (confirmed.1, { confirmed.2 with applied := confirmed.2.applied.insert txn })

/-- Dispatch a transaction that holds its locks, or hold it until its parts
have arrived.  One whose parts were abandoned finishes here; the transactions
that its release promotes are returned. -/
def dispatchOrBarrier (scheduler : Scheduler κ) (txn : SequencedTxn κ) (owner : TxnId) :
    List (SequencedTxn κ × TxnId) × Scheduler κ :=
  let dispatched := { scheduler with pending := scheduler.pending.insert txn.id owner }
  match txn.multiPart with
  | none => ([], dispatched)
  | some _ =>
    match scheduler.assemblies[txn.id]? with
    | none => ([], dispatched)
    | some assembly =>
      if assembly.abandoned then
        releaseAndMarkApplied
          { scheduler with assemblies := scheduler.assemblies.erase txn.id } txn.id owner
      else if assembly.isComplete then
        ([], { dispatched with assemblies := scheduler.assemblies.erase txn.id })
      else
        ([], { scheduler with awaiting := scheduler.awaiting.insert txn.id (txn, owner) })

/-- Dispatch one transaction after the other, those that a release promotes
first. -/
def dispatchAll : Nat → List (SequencedTxn κ × TxnId) × Scheduler κ →
    List (SequencedTxn κ × TxnId) × Scheduler κ
  | 0, state => state
  | _ + 1, ([], scheduler) => ([], scheduler)
  | fuel + 1, ((txn, owner) :: rest, scheduler) =>
    let dispatched := scheduler.dispatchOrBarrier txn owner
    dispatchAll fuel (dispatched.1 ++ rest, dispatched.2)

/-- Dispatch all of `state`.  Each round takes one transaction off, and only a
blocked one can come in addition. -/
def settle (state : List (SequencedTxn κ × TxnId) × Scheduler κ) : Scheduler κ :=
  (dispatchAll (state.1.length + state.2.blocked.size) state).2

def dispatchPromoted (state : List TxnId × Scheduler κ) : Scheduler κ :=
  settle (state.2.confirmAll state.1)

def onTxnComplete (scheduler : Scheduler κ) (txn : TxnId) : Scheduler κ :=
  match scheduler.pending[txn]? with
  | none => scheduler
  | some owner =>
    settle (releaseAndMarkApplied
      { scheduler with pending := scheduler.pending.erase txn } txn owner)

/-! ## Inputs -/

def inputEpoch : SchedulerInput κ → Nat
  | .txn txn => txn.epoch
  | .reserve owner _ => owner.epoch
  | .release owner => owner.epoch
  | .cutMarker => 0
  | .txnPart _ _ => 0
  | .partsAbandoned _ => 0

/-- Move the epoch clock and reap the reservations whose lease ends. -/
def advanceEpoch (scheduler : Scheduler κ) (epoch : Nat) : Scheduler κ :=
  if scheduler.maxInputEpoch < epoch then
    dispatchPromoted (reapReservations { scheduler with maxInputEpoch := epoch }
      (epoch - leaseEpochs))
  else
    scheduler

/-- The outcome is dropped: a reservation that waits is granted later like any
other waiter. -/
def installReservation (scheduler : Scheduler κ) (owner : TxnId) (key : κ) : Scheduler κ :=
  { scheduler with
    lockManager := (scheduler.lockManager.acquireShared owner key).2
    calls := scheduler.calls ++ [.acquireShared owner key] }

def releaseReservation (scheduler : Scheduler κ) (owner : TxnId) : Scheduler κ :=
  dispatchPromoted (scheduler.releaseLocks owner)

/-- Open the assembly of a transaction whose plans travel in parts. -/
def openAssembly (scheduler : Scheduler κ) (txn : SequencedTxn κ) : Scheduler κ :=
  match txn.multiPart with
  | none => scheduler
  | some expected =>
    if txn.id ∈ scheduler.assemblies then
      scheduler
    else
      { scheduler with
        assemblies := scheduler.assemblies.insert txn.id
          { expected := expected, received := ∅, abandoned := false } }

def isTaken (scheduler : Scheduler κ) (txn : SequencedTxn κ) : Bool :=
  decide (txn.id ∈ scheduler.applied) || decide (txn.id ∈ scheduler.pending) ||
    decide (txn.owner ∈ scheduler.blocked) || decide (txn.id ∈ scheduler.awaiting)

def processNewTxn (scheduler : Scheduler κ) (txn : SequencedTxn κ) : Scheduler κ :=
  if scheduler.isTaken txn then
    scheduler
  else
    let acquired := (scheduler.openAssembly txn).acquireLocks txn.owner txn.keys
    match acquired.1 with
    | .ready => settle ([(txn, txn.owner)], acquired.2)
    | .blocked => { acquired.2 with blocked := acquired.2.blocked.insert txn.owner txn }

def receivePart (scheduler : Scheduler κ) (txn : TxnId) (index : Nat) : Scheduler κ :=
  match scheduler.assemblies[txn]? with
  | none => scheduler
  | some assembly =>
    if assembly.abandoned || assembly.isComplete || assembly.received.contains index then
      scheduler
    else
      let assembly := { assembly with received := assembly.received.insert index }
      let scheduler :=
        { scheduler with assemblies := scheduler.assemblies.insert txn assembly }
      match assembly.isComplete, scheduler.awaiting[txn]? with
      | true, some held =>
        settle ([held], { scheduler with awaiting := scheduler.awaiting.erase txn })
      | _, _ => scheduler

def receivePartsAbandoned (scheduler : Scheduler κ) (txn : TxnId) : Scheduler κ :=
  match scheduler.assemblies[txn]? with
  | none => scheduler
  | some assembly =>
    if assembly.isComplete then
      scheduler
    else
      match scheduler.awaiting[txn]? with
      | none =>
        { scheduler with
          assemblies := scheduler.assemblies.insert txn { assembly with abandoned := true } }
      | some held =>
        settle (releaseAndMarkApplied
          { scheduler with
            assemblies := scheduler.assemblies.erase txn
            awaiting := scheduler.awaiting.erase txn } txn held.2)

def processSchedulerInput (scheduler : Scheduler κ) (input : SchedulerInput κ) :
    Scheduler κ :=
  let scheduler := scheduler.advanceEpoch (inputEpoch input)
  match input with
  | .txn txn => scheduler.processNewTxn txn
  | .reserve owner key => scheduler.installReservation owner key
  | .release owner => scheduler.releaseReservation owner
  | .cutMarker => scheduler
  | .txnPart txn index => scheduler.receivePart txn index
  | .partsAbandoned txn => scheduler.receivePartsAbandoned txn

end Scheduler

/-- What happens to a scheduler: an input arrives, or a dispatched transaction
completes. -/
inductive SchedulerAction (κ : Type) [Ord κ] where
  | input (arrived : SchedulerInput κ)
  | complete (txn : TxnId)

def SchedulerAction.perform (scheduler : Scheduler κ) : SchedulerAction κ → Scheduler κ
  | input arrived => scheduler.processSchedulerInput arrived
  | complete txn => scheduler.onTxnComplete txn

/-! ## The dispatch ends -/

namespace Scheduler

theorem confirmPromoted_size (state : List (SequencedTxn κ × TxnId) × Scheduler κ)
    (waiter : TxnId) :
    (confirmPromoted state waiter).1.length + (confirmPromoted state waiter).2.blocked.size =
      state.1.length + state.2.blocked.size := by
  unfold confirmPromoted
  dsimp only
  split
  · rfl
  next txn hblocked =>
    split
    · have hmem : waiter ∈ state.2.blocked := by
        rw [TreeMap.mem_iff_isSome_getElem?, hblocked]
        rfl
      have hpos : 0 < state.2.blocked.size := by
        rw [← TreeMap.length_keys]
        exact List.length_pos_of_mem (TreeMap.mem_keys.mpr hmem)
      dsimp only [acquireLocks]
      rw [TreeMap.size_erase, if_pos (TreeMap.contains_iff_mem.mpr hmem), List.length_append,
        List.length_singleton]
      omega
    · rfl

theorem confirmAll_size (scheduler : Scheduler κ) (promoted : List TxnId) :
    (scheduler.confirmAll promoted).1.length + (scheduler.confirmAll promoted).2.blocked.size =
      scheduler.blocked.size := by
  have hsize := StepRuns.foldl_unchanged
    (fun state : List (SequencedTxn κ × TxnId) × Scheduler κ =>
      state.1.length + state.2.blocked.size)
    confirmPromoted_size ([], scheduler) promoted
  exact hsize.trans (Nat.zero_add _)

theorem releaseAndMarkApplied_size (scheduler : Scheduler κ) (txn owner : TxnId) :
    (scheduler.releaseAndMarkApplied txn owner).1.length +
        (scheduler.releaseAndMarkApplied txn owner).2.blocked.size = scheduler.blocked.size := by
  have hsize := confirmAll_size (scheduler.releaseLocks owner).2 (scheduler.releaseLocks owner).1
  unfold releaseAndMarkApplied
  exact hsize

theorem dispatchOrBarrier_size (scheduler : Scheduler κ) (txn : SequencedTxn κ)
    (owner : TxnId) :
    (scheduler.dispatchOrBarrier txn owner).1.length +
        (scheduler.dispatchOrBarrier txn owner).2.blocked.size = scheduler.blocked.size := by
  unfold dispatchOrBarrier
  dsimp only
  repeat' split
  all_goals try exact Nat.zero_add _
  exact releaseAndMarkApplied_size _ _ _

theorem dispatchAll_done (fuel : Nat) (state : List (SequencedTxn κ × TxnId) × Scheduler κ)
    (hfuel : state.1.length + state.2.blocked.size ≤ fuel) : (dispatchAll fuel state).1 = [] := by
  induction fuel generalizing state with
  | zero => exact List.eq_nil_of_length_eq_zero (by unfold dispatchAll; omega)
  | succ fuel ih =>
    obtain ⟨_ | ⟨⟨txn, owner⟩, rest⟩, scheduler⟩ := state
    · rfl
    · have hsize := scheduler.dispatchOrBarrier_size txn owner
      apply ih
      simp only [List.length_append, List.length_cons] at hfuel ⊢
      omega

end Scheduler

end NodeDB.Calvin
