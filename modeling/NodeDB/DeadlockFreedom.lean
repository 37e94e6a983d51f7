import NodeDB.LockOrder
import NodeDB.Scheduler

/-!
# Deadlocks of the Calvin scheduler

The scheduler's lock table is the result of the lock calls it made.  If every
request that must wait is younger than everybody on the key, the waits-for
relation has no cycle.  A commit under an older reservation breaks this: it
waits for a transaction that waits for its reservation.
-/

namespace NodeDB.Calvin

open Std SchedulerAction

variable {κ : Type} [Ord κ]

/-! ## Lock calls in order -/

namespace LockCall

/-- Requests that must wait are younger than everybody on the key. -/
def WaitsInOrder (run : LockRun κ) : LockCall κ → Prop
  | acquire txn keys => run.manager.WaitsInOrder txn keys
  | acquireShared txn key => run.manager.WaitsInOrder txn (.single key .shared)
  | _ => True

instance (run : LockRun κ) (call : LockCall κ) : Decidable (WaitsInOrder run call) :=
  match call with
  | acquire txn keys => inferInstanceAs (Decidable (run.manager.WaitsInOrder txn keys))
  | acquireShared txn _ => inferInstanceAs (Decidable (run.manager.WaitsInOrder txn _))
  | tryAcquire .. | release _ | reapExpiredShared _ => isTrue trivial

variable [TransOrd κ] [LawfulEqOrd κ]

theorem inOrder_perform {run : LockRun κ} (hlawful : run.manager.Lawful)
    (horder : run.manager.InOrder) {call : LockCall κ} (hwaits : call.WaitsInOrder run) :
    (call.perform run).manager.InOrder := by
  cases call with
  | acquire txn keys | acquireShared txn key => exact horder.acquire hlawful hwaits
  | tryAcquire txn keys => exact horder.tryAcquire hlawful txn keys
  | release txn => exact horder.release hlawful txn
  | reapExpiredShared epochThreshold => exact horder.reapExpiredShared hlawful epochThreshold

theorem inOrder_foldl {calls : List (LockCall κ)}
    (hwaits : StepRuns.Along perform WaitsInOrder LockRun.start calls) :
    (calls.foldl perform LockRun.start).manager.InOrder := by
  have hinv := StepRuns.invariant_foldl
    (fun run : LockRun κ => run.manager.Lawful ∧ run.manager.InOrder)
    (fun run call hinv hwaits => ⟨lawful_perform hinv.1 call,
      inOrder_perform hinv.1 hinv.2 hwaits⟩)
    ⟨lawful_foldl [], by
      intro key entry hentry
      simp [LockRun.start, LockManager.new] at hentry⟩ hwaits
  exact hinv.2

end LockCall

/-! ## The lock table is the result of the calls -/

namespace Scheduler

def Recorded (scheduler : Scheduler κ) : Prop :=
  scheduler.lockManager = (scheduler.calls.foldl LockCall.perform LockRun.start).manager

namespace Recorded

variable {scheduler : Scheduler κ}

section

variable (hrecorded : scheduler.Recorded)
include hrecorded

theorem acquireLocks (owner : TxnId) (keys : LockRequest κ) :
    (scheduler.acquireLocks owner keys).2.Recorded := by
  unfold Recorded Scheduler.acquireLocks
  rw [List.foldl_append, hrecorded]
  rfl

theorem releaseLocks (owner : TxnId) : (scheduler.releaseLocks owner).2.Recorded := by
  unfold Recorded Scheduler.releaseLocks
  rw [List.foldl_append, hrecorded]
  rfl

theorem reapReservations (epochThreshold : Nat) :
    (scheduler.reapReservations epochThreshold).2.Recorded := by
  unfold Recorded Scheduler.reapReservations
  rw [List.foldl_append, hrecorded]
  rfl

theorem installReservation (owner : TxnId) (key : κ) :
    (scheduler.installReservation owner key).Recorded := by
  unfold Recorded Scheduler.installReservation
  rw [List.foldl_append, hrecorded]
  rfl

end

theorem confirmPromoted {state : List (SequencedTxn κ × TxnId) × Scheduler κ}
    (hrecorded : state.2.Recorded) (waiter : TxnId) :
    (Scheduler.confirmPromoted state waiter).2.Recorded := by
  unfold Scheduler.confirmPromoted
  dsimp only
  split
  · exact hrecorded
  next txn _ =>
    split
    · exact hrecorded.acquireLocks waiter txn.keys
    · exact hrecorded

theorem confirmAll (hrecorded : scheduler.Recorded) (promoted : List TxnId) :
    (scheduler.confirmAll promoted).2.Recorded :=
  List.foldlRecOn (motive := fun state : List (SequencedTxn κ × TxnId) × Scheduler κ =>
    state.2.Recorded) promoted Scheduler.confirmPromoted hrecorded
    fun _ hstate waiter _ => hstate.confirmPromoted waiter

theorem releaseAndMarkApplied (hrecorded : scheduler.Recorded) (txn owner : TxnId) :
    (scheduler.releaseAndMarkApplied txn owner).2.Recorded := by
  have hconfirmed := (hrecorded.releaseLocks owner).confirmAll (scheduler.releaseLocks owner).1
  dsimp only [Scheduler.releaseAndMarkApplied]
  generalize (scheduler.releaseLocks owner).2.confirmAll (scheduler.releaseLocks owner).1 =
    confirmed at hconfirmed ⊢
  exact hconfirmed

theorem dispatchOrBarrier (hrecorded : scheduler.Recorded) (txn : SequencedTxn κ)
    (owner : TxnId) : (scheduler.dispatchOrBarrier txn owner).2.Recorded := by
  unfold Scheduler.dispatchOrBarrier
  dsimp only
  repeat' split
  all_goals try exact hrecorded
  have hclosed : { scheduler with
      assemblies := scheduler.assemblies.erase txn.id }.Recorded := hrecorded
  exact hclosed.releaseAndMarkApplied txn.id owner

theorem settle {state : List (SequencedTxn κ × TxnId) × Scheduler κ}
    (hrecorded : state.2.Recorded) : (Scheduler.settle state).Recorded := by
  have hall : ∀ fuel (state : List (SequencedTxn κ × TxnId) × Scheduler κ),
      state.2.Recorded → (dispatchAll fuel state).2.Recorded := by
    intro fuel
    induction fuel with
    | zero => exact fun _ hstate => hstate
    | succ fuel ih =>
      rintro ⟨_ | ⟨⟨txn, owner⟩, rest⟩, scheduler⟩ hstate
      · exact hstate
      · exact ih _ (hstate.dispatchOrBarrier txn owner)
  exact hall _ state hrecorded

section

variable (hrecorded : scheduler.Recorded)
include hrecorded

theorem onTxnComplete (txn : TxnId) : (scheduler.onTxnComplete txn).Recorded := by
  unfold Scheduler.onTxnComplete
  split
  · exact hrecorded
  next owner _ =>
    have hdone : { scheduler with pending := scheduler.pending.erase txn }.Recorded := hrecorded
    exact (hdone.releaseAndMarkApplied txn owner).settle

theorem advanceEpoch (epoch : Nat) : (scheduler.advanceEpoch epoch).Recorded := by
  unfold Scheduler.advanceEpoch
  split
  · have hmoved : { scheduler with maxInputEpoch := epoch }.Recorded := hrecorded
    exact ((hmoved.reapReservations _).confirmAll _).settle
  · exact hrecorded

theorem openAssembly (txn : SequencedTxn κ) : (scheduler.openAssembly txn).Recorded := by
  unfold Scheduler.openAssembly
  repeat' split
  all_goals exact hrecorded

theorem processNewTxn (txn : SequencedTxn κ) : (scheduler.processNewTxn txn).Recorded := by
  have hacquired := (hrecorded.openAssembly txn).acquireLocks txn.owner txn.keys
  unfold Scheduler.processNewTxn
  dsimp only
  split
  · exact hrecorded
  split
  · exact settle hacquired
  · exact hacquired

theorem receivePart (txn : TxnId) (index : Nat) : (scheduler.receivePart txn index).Recorded := by
  unfold Scheduler.receivePart
  dsimp only
  repeat' split
  all_goals try exact hrecorded
  exact settle hrecorded

theorem receivePartsAbandoned (txn : TxnId) : (scheduler.receivePartsAbandoned txn).Recorded := by
  unfold Scheduler.receivePartsAbandoned
  repeat' split
  all_goals try exact hrecorded
  next held _ =>
    have hclosed : { scheduler with
        assemblies := scheduler.assemblies.erase txn
        awaiting := scheduler.awaiting.erase txn }.Recorded := hrecorded
    exact (hclosed.releaseAndMarkApplied txn held.2).settle

theorem perform (action : SchedulerAction κ) : (action.perform scheduler).Recorded := by
  cases action with
  | complete txn => exact hrecorded.onTxnComplete txn
  | input arrived =>
    have hadvanced := hrecorded.advanceEpoch (inputEpoch arrived)
    cases arrived with
    | txn txn => exact hadvanced.processNewTxn txn
    | reserve owner key => exact hadvanced.installReservation owner key
    | release owner => exact ((hadvanced.releaseLocks owner).confirmAll _).settle
    | cutMarker => exact hadvanced
    | txnPart txn index => exact hadvanced.receivePart txn index
    | partsAbandoned txn => exact hadvanced.receivePartsAbandoned txn

end

end Recorded

end Scheduler

/-! ## Runs -/

variable [TransOrd κ] [LawfulEqOrd κ]

/-- If every lock request of a run that must wait is younger than everybody on
the key, the waits-for relation has no cycle. -/
theorem waitsFor_acyclic_of_run (actions : List (SchedulerAction κ))
    (hwaits : StepRuns.Along LockCall.perform LockCall.WaitsInOrder LockRun.start
      (actions.foldl SchedulerAction.perform Scheduler.new).calls) (txn : TxnId) :
    ¬ Relation.TransGen
      (actions.foldl SchedulerAction.perform Scheduler.new).lockManager.WaitsFor txn txn := by
  have hrecorded : (actions.foldl perform Scheduler.new).Recorded :=
    List.foldlRecOn (motive := Scheduler.Recorded) actions perform rfl
      fun _ hstate action _ => hstate.perform action
  rw [hrecorded]
  exact (LockCall.inOrder_foldl hwaits).acyclic txn

/-- A younger transaction waits for a read reservation and then completes, and
the reservation's commit finds its keys free. -/
theorem waitsFor_acyclic_of_run_reader :
    let reader : TxnId := ⟨1, TxnId.reservationPositionBand⟩
    let actions : List (SchedulerAction Nat) :=
      [.input (.reserve reader 0),
        .input (.txn ⟨3, 0, none, .single 0 .exclusive, none⟩),
        .input (.txn ⟨3, 1, some reader, .single 1 .exclusive, none⟩)]
    let scheduler := actions.foldl perform Scheduler.new
    scheduler.blocked.keys = [⟨3, 0⟩] ∧
      ∀ txn, ¬ Relation.TransGen scheduler.lockManager.WaitsFor txn txn :=
  ⟨by decide, waitsFor_acyclic_of_run _ (by decide)⟩

/-- A transaction waits for a read reservation of one of its keys and holds the
other.  The commit under that reservation asks for the other key. -/
theorem commit_waits_for_its_waiter :
    let reader : TxnId := ⟨1, TxnId.reservationPositionBand⟩
    let actions : List (SchedulerAction Nat) :=
      [.input (.reserve reader 0),
        .input (.txn ⟨3, 0, none,
          (LockRequest.single 0 .exclusive).insert 1 .exclusive, none⟩),
        .input (.txn ⟨3, 1, some reader, .single 1 .exclusive, none⟩)]
    let scheduler := actions.foldl perform Scheduler.new
    Relation.TransGen scheduler.lockManager.WaitsFor reader reader := by
  intro reader actions scheduler
  have hread : scheduler.lockManager.table[0]? = some
      { mode := .shared, holders := [(reader, .shared)], waiters := [(⟨3, 0⟩, .exclusive)] } := by
    decide
  have hwritten : scheduler.lockManager.table[1]? = some
      { mode := .exclusive, holders := [(⟨3, 0⟩, .exclusive)],
        waiters := [(reader, .exclusive)] } := by
    decide
  have hcommit : scheduler.lockManager.WaitsFor reader ⟨3, 0⟩ :=
    ⟨1, _, hwritten, [], [], .exclusive, rfl, (⟨3, 0⟩, .exclusive), by simp, rfl, rfl⟩
  have hwriter : scheduler.lockManager.WaitsFor ⟨3, 0⟩ reader :=
    ⟨0, _, hread, [], [], .exclusive, rfl, (reader, .shared), by simp, rfl, rfl⟩
  exact (Relation.TransGen.single hcommit).tail hwriter

end NodeDB.Calvin
