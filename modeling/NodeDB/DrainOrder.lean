import NodeDB.ArrayFanout
import NodeDB.LogRetention

/-!
# Drains that do not overlap

A drain takes the whole buffer of a subscriber, clears it and queues what it
took one frame after the other.  Where a drain begins only when no other drain
delivers and all that was offered is buffered, and nothing is offered while it
delivers, frames are queued in clock order: the buffer is read in clock order,
and nothing that is in flight is left out of it.
-/

namespace NodeDB.ArraySync
namespace Outbound

open Std KeyedFold ArrayEngine StepRuns List Function Outbound.Action Outbound.State

section Drain

variable {ν : Type}

/-! ## What is queued and what is in flight -/

def Frame.delta? (scope : Scope) : Frame ν → Option (ArrayOp ν)
  | .delta target op => if target = scope then some op else none
  | _ => none

/-- The operations of the subscriber's array queued to its session so far. -/
def State.queued (state : State ν) (key : SubscriberKey) : List (ArrayOp ν) :=
  ((state.delivery key.1).map fun delivery =>
    delivery.frames.filterMap (Frame.delta? key.2)).getD []

/-- Nothing is queued to the session any more. -/
def State.Blocked (state : State ν) (session : String) : Prop :=
  ∀ delivery ∈ state.delivery session, delivery.lagged = true ∨ delivery.closed = true

/-- The operations an action still has to bring to the subscriber. -/
def Action.carries (key : SubscriberKey) : Action ν → List (ArrayOp ν)
  | .check _ other op => if other = key then [op] else []
  | .push _ other op => if other = key then [op] else []
  | .take _ => []
  | .clear other ops => if other = key then ops else []
  | .enqueue other op => if other = key then [op] else []
  | .mark _ _ => []

/-- The action belongs to a drain that has taken the buffer of the subscriber. -/
def Action.Drains (key : SubscriberKey) : Action ν → Prop
  | .clear other _ | .enqueue other _ | .mark other _ => other = key
  | .check _ _ _ | .push _ _ _ | .take _ => False

instance (key : SubscriberKey) : (action : Action ν) → Decidable (action.Drains key)
  | .clear other _ | .enqueue other _ | .mark other _ => inferInstanceAs (Decidable (other = key))
  | .check _ _ _ | .push _ _ _ | .take _ => isFalse id

def State.nextAction (state : State ν) (index : Nat) : Option (Action ν) :=
  state.threads[index]?.bind List.head?

/-- No drain of the subscriber is under way. -/
def State.Idle (state : State ν) (key : SubscriberKey) : Prop :=
  ∀ action ∈ state.threads.flatten, ¬ action.Drains key

/-- An operation comes above the cursor and all that is queued, while no drain is under way; a
drain begins while no other one is under way and every operation offered is buffered. -/
def Step.InOrder (key : SubscriberKey) (state : State ν) : Step ν → Prop
  | .onOpApplied _ shapeScope op =>
    scopeOf shapeScope.databaseId shapeScope.tenantId op = key.2 →
      state.Idle key ∧ (∀ last ∈ state.cursors key, last < op.header.hlc) ∧
        ∀ earlier ∈ state.queued key, earlier.header.hlc < op.header.hlc
  | .run index =>
    state.nextAction index = some (.take key) →
      state.Idle key ∧ ∀ op ∈ state.threads.flatten.flatMap (Action.carries key),
        op ∈ (state.mergers key).opsToDeliver
  | _ => True

instance [DecidableEq ν] (key : SubscriberKey) (state : State ν) :
    (step : Step ν) → Decidable (step.InOrder key state)
  | .onOpApplied _ shapeScope op =>
    inferInstanceAs (Decidable (scopeOf shapeScope.databaseId shapeScope.tenantId op = key.2 →
      (∀ action ∈ state.threads.flatten, ¬ action.Drains key) ∧
        (∀ last ∈ state.cursors key, last < op.header.hlc) ∧
          ∀ earlier ∈ state.queued key, earlier.header.hlc < op.header.hlc))
  | .run index =>
    inferInstanceAs (Decidable (state.nextAction index = some (.take key) →
      (∀ action ∈ state.threads.flatten, ¬ action.Drains key) ∧
        ∀ op ∈ state.threads.flatten.flatMap (Action.carries key),
          op ∈ (state.mergers key).opsToDeliver))
  | .drainTo _ | .queueOther _ | .receive _ | .close _ => isTrue trivial

/-- Buffered, or carried by one of the actions to be taken. -/
def Flying (key : SubscriberKey) (state : State ν) (pending : List (Action ν))
    (op : ArrayOp ν) : Prop :=
  op ∈ (state.mergers key).opsToDeliver ∨ ∃ action ∈ pending, op ∈ action.carries key

/-- Queued, about to be queued by a drain, or turned away. -/
def Reached (key : SubscriberKey) (state : State ν) (pending : List (Action ν))
    (op : ArrayOp ν) : Prop :=
  op ∈ state.queued key ∨
    (∃ action ∈ pending, action.Drains key ∧ op ∈ action.carries key) ∨ state.Blocked key.1

/-- What may stand before what in a thread: behind the action under way there are only checks
and, in clock order, the frames a drain has yet to queue. -/
def Action.Leads (key : SubscriberKey) : Action ν → Action ν → Prop
  | _, .check _ _ _ => True
  | .enqueue target op, .enqueue _ later => target = key → op.header.hlc < later.header.hlc
  | .mark _ _, .enqueue _ _ => True
  | _, _ => False

/-- The operations in ascending clock order. -/
def Ascending (ops : List (ArrayOp ν)) : Prop :=
  ops.Pairwise fun one other => one.header.hlc < other.header.hlc

/-- The buffer files each operation under its own clock. -/
def Merger.Keyed (merger : Merger ν) : Prop :=
  ∀ (hlc : Hlc) (op : ArrayOp ν), merger.buffer[hlc]? = some op → op.header.hlc = hlc

/-- The thread is draining the buffer of the subscriber. -/
def State.DrainsAt (state : State ν) (key : SubscriberKey) (index : Nat) : Prop :=
  ∃ thread ∈ state.threads[index]?, ∃ action ∈ thread, action.Drains key

/-- One thread at most drains the buffer; while it does, all that is in flight has reached it. -/
structure Orderly (key : SubscriberKey) (state : State ν) : Prop where
  led : ∀ thread ∈ state.threads, thread.Pairwise (Action.Leads key)
  sorted : ∀ ops, .clear key ops ∈ state.threads.flatten → Ascending ops
  alone : ∀ one other, state.DrainsAt key one → state.DrainsAt key other → one = other
  covered : ¬ state.Idle key → ∀ op, Flying key state state.threads.flatten op →
    Reached key state state.threads.flatten op

section Actions

variable {key : SubscriberKey} {state : State ν} {pending rest more : List (Action ν)}
  {action next later : Action ν} {target : SubscriberKey} {shardId : Nat} {op other : ArrayOp ν}
  {ops : List (ArrayOp ν)} {index : Nat} {session : String}

theorem mem_opsToDeliver {merger : Merger ν} :
    op ∈ merger.opsToDeliver ↔ ∃ hlc : Hlc, merger.buffer[hlc]? = some op :=
  mem_toList_map_snd

theorem getElem?_push {merger : Merger ν} {hlc : Hlc} :
    (merger.push shardId op).buffer[hlc]? = some other ↔
      hlc = op.header.hlc ∧ other = op ∨
        hlc ≠ op.header.hlc ∧ merger.buffer[hlc]? = some other :=
  getElem?_insert_eq_some_iff

theorem getElem?_remove {merger : Merger ν} {hlc : Hlc} :
    (merger.remove ops).buffer[hlc]? = some op ↔
      merger.buffer[hlc]? = some op ∧ ∀ removed ∈ ops, removed.header.hlc ≠ hlc :=
  getElem?_foldl_erase_eq_some_iff (fun op : ArrayOp ν => op.header.hlc) ops

theorem ascending_opsToDeliver {merger : Merger ν} (hown : merger.Keyed) :
    Ascending merger.opsToDeliver := by
  refine pairwise_map.mpr ((pairwise_toList merger.buffer).imp_of_mem ?_)
  intro one other hone hother hlt
  rw [hown one.1 one.2 (TreeMap.mem_toList_iff_getElem?_eq_some.mp hone),
    hown other.1 other.2 (TreeMap.mem_toList_iff_getElem?_eq_some.mp hother)]
  exact hlt

theorem flying_cons :
    Flying key state (action :: pending) op ↔
      op ∈ action.carries key ∨ Flying key state pending op := by
  simp only [Flying, mem_cons, exists_eq_or_imp]
  exact or_left_comm

theorem flying_append :
    Flying key state (more ++ pending) op ↔
      (∃ action ∈ more, op ∈ action.carries key) ∨ Flying key state pending op := by
  simp only [Flying, mem_append, or_and_right, exists_or]
  exact or_left_comm

@[simp]
theorem mem_carries_check :
    other ∈ (Action.check shardId target op).carries key ↔ target = key ∧ other = op := by
  simp only [carries]
  split_ifs <;> simp_all

@[simp]
theorem mem_carries_push :
    other ∈ (Action.push shardId target op).carries key ↔ target = key ∧ other = op := by
  simp only [carries]
  split_ifs <;> simp_all

@[simp]
theorem mem_carries_clear :
    other ∈ (Action.clear target ops).carries key ↔ target = key ∧ other ∈ ops := by
  simp only [carries]
  split_ifs <;> simp_all

@[simp]
theorem mem_carries_enqueue :
    other ∈ (Action.enqueue target op).carries key ↔ target = key ∧ other = op := by
  simp only [carries]
  split_ifs <;> simp_all

/-! ## The channel -/

theorem queued_of_delivery {delivery : SessionDelivery ν}
    (h : state.delivery key.1 = some delivery) :
    state.queued key = delivery.frames.filterMap (Frame.delta? key.2) := by
  rw [queued, h]
  rfl

theorem enqueueFrame_fields (state : State ν) (session : String) (frame : Frame ν) :
    (state.enqueueFrame session frame).1.cursors = state.cursors ∧
      (state.enqueueFrame session frame).1.mergers = state.mergers ∧
      (state.enqueueFrame session frame).1.snapshotHlcs = state.snapshotHlcs ∧
      (state.enqueueFrame session frame).1.threads = state.threads := by
  unfold enqueueFrame
  split
  · exact ⟨rfl, rfl, rfl, rfl⟩
  · exact ⟨rfl, rfl, rfl, rfl⟩

theorem enqueueFrame_delivery_ne (state : State ν) {other : String} (hne : other ≠ session)
    (frame : Frame ν) :
    (state.enqueueFrame session frame).1.delivery other = state.delivery other := by
  unfold enqueueFrame
  split
  · rfl
  · exact update_of_ne hne _ _

theorem enqueue_cases (delivery : SessionDelivery ν) (frame : Frame ν) :
    (delivery.enqueue frame = ({ delivery with frames := delivery.frames ++ [frame] }, true) ∧
        delivery.lagged = false ∧ delivery.closed = false) ∨
      (delivery.enqueue frame).2 = false ∧
        (delivery.enqueue frame).1.frames = delivery.frames ∧
        ((delivery.enqueue frame).1.lagged = true ∨ (delivery.enqueue frame).1.closed = true) := by
  unfold SessionDelivery.enqueue
  split_ifs with hlagged hclosed hfull
  · exact .inr ⟨rfl, rfl, .inl hlagged⟩
  · exact .inr ⟨rfl, rfl, .inr hclosed⟩
  · exact .inr ⟨rfl, rfl, .inl rfl⟩
  · exact .inl ⟨rfl, by simpa using hlagged, by simpa using hclosed⟩

theorem enqueueFrame_cases (state : State ν) (key : SubscriberKey) (frame : Frame ν) :
    ((state.enqueueFrame key.1 frame).2 = true ∧ ¬ state.Blocked key.1 ∧
        (state.enqueueFrame key.1 frame).1.queued key =
          state.queued key ++ (frame.delta? key.2).toList) ∨
      (state.enqueueFrame key.1 frame).2 = false ∧
        (state.enqueueFrame key.1 frame).1.Blocked key.1 ∧
        (state.enqueueFrame key.1 frame).1.queued key = state.queued key := by
  unfold enqueueFrame
  split
  · rename_i hnone
    refine .inr ⟨rfl, ?_, rfl⟩
    simp [State.Blocked, hnone]
  · rename_i delivery hdelivery
    rcases enqueue_cases delivery frame with ⟨hok, hlagged, hclosed⟩ | ⟨hno, hframes, hblocked⟩
    · refine .inl ⟨by rw [hok], ?_, ?_⟩
      · intro hall
        simpa [hlagged, hclosed] using hall delivery hdelivery
      · rw [queued_of_delivery hdelivery, queued_of_delivery (update_self _ _ _), hok,
          filterMap_append]
        congr 1
    · refine .inr ⟨hno, ?_, ?_⟩
      · intro after hafter
        have hself : Function.update state.delivery key.1 (some (delivery.enqueue frame).1) key.1 =
            some (delivery.enqueue frame).1 := update_self _ _ _
        obtain rfl := Option.some.inj (hself.symm.trans hafter)
        exact hblocked
      · rw [queued_of_delivery hdelivery, queued_of_delivery (update_self _ _ _), hframes]

theorem enqueueFrame_keeps (state : State ν) (key : SubscriberKey) (session : String)
    (frame : Frame ν) :
    (∀ op ∈ state.queued key, op ∈ (state.enqueueFrame session frame).1.queued key) ∧
      (state.Blocked key.1 → (state.enqueueFrame session frame).1.Blocked key.1) := by
  by_cases hsession : session = key.1
  · subst hsession
    rcases enqueueFrame_cases state key frame with ⟨-, hopen, hqueued⟩ | ⟨-, hblocked, hqueued⟩
    · rw [hqueued]
      exact ⟨fun op hop => mem_append_left _ hop, fun hblocked => absurd hblocked hopen⟩
    · rw [hqueued]
      exact ⟨fun _ => id, fun _ => hblocked⟩
  · have hsame := enqueueFrame_delivery_ne state (Ne.symm hsession) frame
    rw [queued, queued, State.Blocked, State.Blocked, hsame]
    exact ⟨fun _ => id, id⟩

section Channel

variable {update : SessionDelivery ν → SessionDelivery ν}

theorem updateChannel_delivery (state : State ν) (session other : String) :
    (state.updateChannel session update).delivery other =
      if other = session then (state.delivery other).map update else state.delivery other := by
  simp only [State.updateChannel, update_apply]
  split_ifs with heq
  · rw [heq]
  · rfl

theorem updateChannel_queued (hframes : ∀ delivery, (update delivery).frames = delivery.frames) :
    (state.updateChannel session update).queued key = state.queued key := by
  rw [queued, queued, updateChannel_delivery]
  split_ifs
  · rw [Option.map_map]
    congr 2
    funext delivery
    exact congrArg (List.filterMap _) (hframes delivery)
  · rfl

theorem updateChannel_blocked
    (hblocked : ∀ delivery, delivery.lagged = true ∨ delivery.closed = true →
      (update delivery).lagged = true ∨ (update delivery).closed = true)
    (hall : state.Blocked key.1) : (state.updateChannel session update).Blocked key.1 := by
  intro after hafter
  rw [updateChannel_delivery] at hafter
  split_ifs at hafter
  · obtain ⟨delivery, hmem, rfl⟩ := Option.mem_map.mp hafter
    exact hblocked delivery (hall delivery hmem)
  · exact hall after hafter

end Channel

/-! ## One action -/

/-- What a thread goes on with after an action. -/
inductive Continues (state : State ν) : Action ν → List (Action ν) → Prop where
  | stop (action : Action ν) : Continues state action []
  | push (shardId : Nat) (key : SubscriberKey) (op : ArrayOp ν) :
    Continues state (.check shardId key op) [.push shardId key op]
  | take (shardId : Nat) (key : SubscriberKey) (op : ArrayOp ν) :
    Continues state (.push shardId key op) [.take key]
  | clear (key : SubscriberKey) :
    Continues state (.take key) [.clear key (state.mergers key).opsToDeliver]
  | enqueue (key : SubscriberKey) (ops : List (ArrayOp ν)) :
    Continues state (.clear key ops) (ops.map (.enqueue key))
  | mark (key : SubscriberKey) (op : ArrayOp ν) :
    Continues state (.enqueue key op) [.mark key op]

theorem Continues.carries (h : Continues state action more) (hnext : next ∈ more)
    (hop : op ∈ next.carries key) :
    op ∈ action.carries key ∨ op ∈ (state.mergers key).opsToDeliver := by
  cases h with
  | stop => cases hnext
  | push =>
    obtain rfl := mem_singleton.mp hnext
    exact .inl (by simpa using hop)
  | clear =>
    obtain rfl := mem_singleton.mp hnext
    obtain ⟨rfl, hin⟩ := mem_carries_clear.mp hop
    exact .inr hin
  | enqueue target ops =>
    obtain ⟨taken, htaken, rfl⟩ := mem_map.mp hnext
    obtain ⟨rfl, rfl⟩ := mem_carries_enqueue.mp hop
    exact .inl (mem_carries_clear.mpr ⟨rfl, htaken⟩)
  | take | mark =>
    obtain rfl := mem_singleton.mp hnext
    cases hop

theorem Continues.drains (h : Continues state action more) (hnext : next ∈ more)
    (hdrains : next.Drains key) : action.Drains key ∨ action = .take key := by
  cases h with
  | stop => cases hnext
  | clear target =>
    obtain rfl := mem_singleton.mp hnext
    exact .inr (congrArg Action.take hdrains)
  | enqueue target ops =>
    obtain ⟨taken, htaken, rfl⟩ := mem_map.mp hnext
    exact .inl hdrains
  | push | take =>
    obtain rfl := mem_singleton.mp hnext
    exact hdrains.elim
  | mark =>
    obtain rfl := mem_singleton.mp hnext
    exact .inl hdrains

theorem Continues.clears (h : Continues state action more) (hnext : .clear target ops ∈ more) :
    ops = (state.mergers target).opsToDeliver := by
  cases h with
  | clear =>
    cases mem_singleton.mp hnext
    rfl
  | enqueue =>
    obtain ⟨taken, -, heq⟩ := mem_map.mp hnext
    cases heq
  | stop => cases hnext
  | push | take | mark => cases mem_singleton.mp hnext

theorem Continues.marks (h : Continues state action more) (hnext : .mark key op ∈ more) :
    action = .enqueue key op := by
  cases h with
  | mark =>
    cases mem_singleton.mp hnext
    rfl
  | enqueue =>
    obtain ⟨taken, -, heq⟩ := mem_map.mp hnext
    cases heq
  | stop => cases hnext
  | push | take | clear => cases mem_singleton.mp hnext

theorem Continues.of_take (h : Continues state (.take key) more) (hnext : next ∈ more) :
    next = .clear key (state.mergers key).opsToDeliver := by
  cases h with
  | stop => cases hnext
  | clear => exact mem_singleton.mp hnext

theorem Continues.leads (h : Continues state action more) (hnext : next ∈ more)
    (hled : action.Leads key later) : next.Leads key later := by
  cases later with
  | check => cases next <;> trivial
  | enqueue =>
    cases h with
    | stop => cases hnext
    | mark =>
      obtain rfl := mem_singleton.mp hnext
      trivial
    | push | take | clear | enqueue => exact hled.elim
  | push | take | clear | mark => cases action <;> exact hled.elim

theorem Continues.led (h : Continues state action more)
    (hled : (action :: rest).Pairwise (Action.Leads key))
    (hsorted : ∀ ops, action = .clear key ops → Ascending ops) :
    (more ++ rest).Pairwise (Action.Leads key) := by
  obtain ⟨hhead, hrest⟩ := pairwise_cons.mp hled
  refine pairwise_append.mpr ⟨?_, hrest, fun next hnext later hlater =>
    h.leads hnext (hhead later hlater)⟩
  cases h with
  | enqueue target ops =>
    -- the frames are queued in the order in which the buffer was read
    by_cases htarget : target = key
    · subst htarget
      exact pairwise_map.mpr ((hsorted ops rfl).imp fun hlt _ => hlt)
    · exact pairwise_map.mpr (pairwise_of_forall fun _ _ heq => absurd heq htarget)
  | stop => exact .nil
  | push | take | clear | mark => exact pairwise_singleton _ _

section Kept

variable (hkept : ∀ scope, state.snapshotHlcs scope = none)
include hkept

/-- Where nothing was collected, no catch-up is asked for. -/
theorem execute_check_cases (shardId : Nat) (target : SubscriberKey) (op : ArrayOp ν) :
    state.execute (.check shardId target op) = (state, [.push shardId target op]) ∨
      state.execute (.check shardId target op) = (state, []) ∧
        ∀ last ∈ state.cursors target, op.header.hlc ≤ last := by
  simp only [execute]
  rcases state.cursors target with _ | last
  · exact .inr ⟨rfl, by simp⟩
  · dsimp only
    by_cases hsend : shouldSend op.header.hlc last = true
    · have htrigger : state.checkAndTrigger target last = (state, false) := by
        rw [checkAndTrigger, hkept]
        exact if_pos (Hlc.zero_le last)
      left
      simp only [if_pos hsend, htrigger, Bool.false_eq_true, if_false]
    · refine .inr ⟨if_neg hsend, ?_⟩
      rintro _ ⟨⟩
      exact le_of_not_gt fun hlt => hsend (decide_eq_true hlt)

theorem execute_check (shardId : Nat) (target : SubscriberKey) (op : ArrayOp ν) :
    (state.execute (.check shardId target op)).1 = state := by
  rcases execute_check_cases hkept shardId target op with hsame | ⟨hsame, -⟩ <;> rw [hsame]

theorem continues_execute (action : Action ν) :
    Continues state action (state.execute action).2 := by
  cases action with
  | check shardId target op =>
    rcases execute_check_cases hkept shardId target op with hpush | ⟨hskip, -⟩
    · rw [hpush]
      exact .push shardId target op
    · rw [hskip]
      exact .stop _
  | push shardId target op =>
    simp only [execute]
    split_ifs
    · exact .take shardId target op
    · exact .stop _
  | take target =>
    simp only [execute]
    split_ifs
    · exact .stop _
    · exact .clear target
  | clear target ops => exact .enqueue target ops
  | enqueue target op =>
    simp only [execute]
    split_ifs
    · exact .mark target op
    · exact .stop _
  | mark target op => exact .stop _

theorem execute_keeps (key : SubscriberKey) (action : Action ν) :
    (∀ op ∈ state.queued key, op ∈ (state.execute action).1.queued key) ∧
      (state.Blocked key.1 → (state.execute action).1.Blocked key.1) := by
  cases action with
  | check =>
    rw [execute_check hkept]
    exact ⟨fun _ => id, id⟩
  | enqueue target op => exact enqueueFrame_keeps state key target.1 (.delta target.2 op)
  | push | take | clear | mark => exact ⟨fun _ => id, id⟩

theorem execute_fields (action : Action ν) :
    (state.execute action).1.snapshotHlcs = state.snapshotHlcs ∧
      (state.execute action).1.threads = state.threads := by
  cases action with
  | check =>
    rw [execute_check hkept]
    exact ⟨rfl, rfl⟩
  | enqueue target op => exact (enqueueFrame_fields state _ _).2.2
  | push | take | clear | mark => exact ⟨rfl, rfl⟩

/-- Only a push and the clearing of a drain touch the buffer. -/
theorem mergers_execute (key : SubscriberKey) (action : Action ν) :
    (state.execute action).1.mergers key = state.mergers key ∨
      (∃ shardId op, action = .push shardId key op ∧
        (state.execute action).1.mergers key = (state.mergers key).push shardId op) ∨
      ∃ ops, action = .clear key ops ∧
        (state.execute action).1.mergers key = (state.mergers key).remove ops := by
  cases action with
  | check =>
    left
    rw [execute_check hkept]
  | push shardId target op =>
    by_cases htarget : target = key
    · subst htarget
      exact .inr (.inl ⟨shardId, op, rfl, update_self _ _ _⟩)
    · exact .inl (update_of_ne (Ne.symm htarget) _ _)
  | clear target ops =>
    by_cases htarget : target = key
    · subst htarget
      exact .inr (.inr ⟨ops, rfl, update_self _ _ _⟩)
    · exact .inl (update_of_ne (Ne.symm htarget) _ _)
  | enqueue target op => exact .inl (congrFun (enqueueFrame_fields state _ _).2.1 key)
  | take | mark => exact .inl rfl

theorem buffered_execute (action : Action ν)
    (hop : op ∈ ((state.execute action).1.mergers key).opsToDeliver) :
    op ∈ (state.mergers key).opsToDeliver ∨ op ∈ action.carries key := by
  rcases mergers_execute hkept key action with hsame | ⟨shardId, pushed, rfl, hpush⟩ |
    ⟨ops, rfl, hclear⟩
  · rw [hsame] at hop
    exact .inl hop
  · rw [hpush] at hop
    obtain ⟨hlc, hin⟩ := mem_opsToDeliver.mp hop
    rcases getElem?_push.mp hin with ⟨-, rfl⟩ | ⟨-, hin⟩
    · exact .inr (by simp)
    · exact .inl (mem_opsToDeliver.mpr ⟨hlc, hin⟩)
  · rw [hclear] at hop
    obtain ⟨hlc, hin⟩ := mem_opsToDeliver.mp hop
    exact .inl (mem_opsToDeliver.mpr ⟨hlc, (getElem?_remove.mp hin).1⟩)

theorem flying_execute
    (h : Flying key (state.execute action).1 ((state.execute action).2 ++ pending) op) :
    Flying key state (action :: pending) op := by
  rw [flying_cons]
  rcases flying_append.mp h with ⟨next, hnext, hop⟩ | hop | hrest
  · exact ((continues_execute hkept action).carries hnext hop).imp_right .inl
  · exact (buffered_execute hkept action hop).symm.imp_right .inl
  · exact .inr (.inr hrest)

theorem reached_execute (h : Reached key state (action :: pending) op) :
    Reached key (state.execute action).1 ((state.execute action).2 ++ pending) op := by
  have hkeeps := execute_keeps hkept key action
  rcases h with hqueued | ⟨next, hnext, hdrains, hop⟩ | hblocked
  · exact .inl (hkeeps.1 op hqueued)
  · rcases mem_cons.mp hnext with rfl | hnext
    · cases next with
      | clear target ops =>
        obtain ⟨rfl, hin⟩ := mem_carries_clear.mp hop
        refine .inr (.inl ⟨.enqueue target op, mem_append_left _ ?_, rfl, by simp⟩)
        exact mem_map.mpr ⟨op, hin, rfl⟩
      | enqueue target taken =>
        obtain ⟨rfl, rfl⟩ := mem_carries_enqueue.mp hop
        rcases enqueueFrame_cases state target (.delta target.2 op) with
          ⟨-, -, hqueued⟩ | ⟨-, hblocked, -⟩
        · refine .inl ?_
          simp only [execute, hqueued]
          simp [Frame.delta?]
        · exact .inr (.inr hblocked)
      | check | push | take => exact hdrains.elim
      | mark => cases hop
    · exact .inr (.inl ⟨next, mem_append_right _ hnext, hdrains, hop⟩)
  · exact .inr (.inr (hkeeps.2 hblocked))

end Kept

end Actions

/-! ## One step -/

section Steps

variable {key : SubscriberKey} {state : State ν} {index : Nat} {op : ArrayOp ν}

theorem mem_flatten_set {α : Type} {threads : List (List α)} (hindex : index < threads.length)
    (thread : List α) (item : α) :
    item ∈ (threads.set index thread).flatten ↔
      item ∈ thread ∨ item ∈ (threads.take index).flatten ++ (threads.drop (index + 1)).flatten := by
  rw [set_eq_take_append_cons_drop, if_pos hindex]
  simp only [flatten_append, flatten_cons, mem_append]
  exact or_left_comm

/-- A thread takes its next action; `pending` is all that stands behind it in any thread. -/
theorem runThread_cases (hkept : ∀ scope, state.snapshotHlcs scope = none) (index : Nat) :
    state.runThread index = state ∨ ∃ action rest pending,
      state.threads[index]? = some (action :: rest) ∧
      (∀ item, item ∈ state.threads.flatten ↔ item ∈ action :: pending) ∧
      state.runThread index = { (state.execute action).1 with
        threads := state.threads.set index ((state.execute action).2 ++ rest) } ∧
      ∀ item, item ∈ (state.threads.set index ((state.execute action).2 ++ rest)).flatten ↔
        item ∈ (state.execute action).2 ++ pending := by
  unfold State.runThread
  split
  · rename_i action rest hthread
    obtain ⟨hindex, hget⟩ := List.getElem?_eq_some_iff.mp hthread
    refine .inr ⟨action, rest, rest ++ ((state.threads.take index).flatten ++
      (state.threads.drop (index + 1)).flatten), hthread, fun item => ?_, ?_, fun item => ?_⟩
    · have hset := mem_flatten_set hindex (action :: rest) item
      rw [← hget, set_getElem_self, hget] at hset
      rw [hset]
      simp [or_assoc]
    · dsimp only
      rw [(execute_fields hkept _).2]
    · rw [mem_flatten_set hindex]
      simp [or_assoc]
  · exact .inl rfl

theorem mem_flatten_of_getElem? {thread : List (Action ν)} {action : Action ν}
    (hthread : state.threads[index]? = some thread) (haction : action ∈ thread) :
    action ∈ state.threads.flatten :=
  mem_flatten.mpr ⟨thread, mem_of_getElem? hthread, haction⟩

theorem nextAction_of_getElem? {action : Action ν} {rest : List (Action ν)}
    (hthread : state.threads[index]? = some (action :: rest)) :
    state.nextAction index = some action := by
  rw [nextAction, hthread]
  rfl

theorem idle_iff : state.Idle key ↔ ∀ index, ¬ state.DrainsAt key index := by
  constructor
  · rintro hidle index ⟨thread, hthread, action, haction, hdrains⟩
    exact hidle action (mem_flatten_of_getElem? hthread haction) hdrains
  · intro hnone action haction hdrains
    obtain ⟨thread, hthread, hin⟩ := mem_flatten.mp haction
    obtain ⟨index, hindex⟩ := mem_iff_getElem?.mp hthread
    exact hnone index ⟨thread, hindex, action, hin, hdrains⟩

/-- The frame a drain is about to queue is below all that is in flight and not queued. -/
theorem Orderly.lowest (h : Orderly key state) {rest : List (Action ν)}
    (hthread : state.threads[index]? = some (.enqueue key op :: rest))
    (hopen : ¬ state.Blocked key.1) :
    ∀ other, Flying key state state.threads.flatten other →
      other ∈ state.queued key ∨ op.header.hlc ≤ other.header.hlc := by
  intro other hother
  have hself : state.DrainsAt key index := ⟨_, hthread, _, mem_cons_self, rfl⟩
  have hbusy : ¬ state.Idle key := fun hidle => idle_iff.mp hidle index hself
  rcases h.covered hbusy other hother with hqueued | ⟨action, haction, hdrains, hin⟩ | hblocked
  · exact .inl hqueued
  · -- the drain of this thread is the only one
    obtain ⟨thread, hmem, haction⟩ := mem_flatten.mp haction
    obtain ⟨position, hposition⟩ := mem_iff_getElem?.mp hmem
    obtain rfl := h.alone index position hself ⟨thread, hposition, action, haction, hdrains⟩
    obtain rfl := Option.some.inj (hthread.symm.trans hposition)
    refine .inr ?_
    rcases mem_cons.mp haction with rfl | haction
    · rw [(mem_carries_enqueue.mp hin).2]
    · have hleads := (pairwise_cons.mp (h.led _ hmem)).1 action haction
      cases action with
      | enqueue target later =>
        obtain ⟨-, rfl⟩ := mem_carries_enqueue.mp hin
        exact (hleads rfl).le
      | check => exact hdrains.elim
      | push | take | clear | mark => exact hleads.elim
  · exact absurd hblocked hopen

section Run

variable (hkept : ∀ scope, state.snapshotHlcs scope = none)
  (hok : (Step.run index).InOrder key state)
include hkept hok

/-- A thread that comes to drain the buffer finds nobody else doing so. -/
theorem drainsAt_runThread {position : Nat} (h : (state.runThread index).DrainsAt key position) :
    state.DrainsAt key position ∨ position = index ∧ state.Idle key := by
  rcases runThread_cases hkept index with hsame | ⟨action, rest, pending, hthread, -, hrun, -⟩
  · rw [hsame] at h
    exact .inl h
  rw [hrun] at h
  obtain ⟨thread, hmem, next, hnext, hdrains⟩ := h
  by_cases hposition : index = position
  · subst hposition
    obtain ⟨hindex, -⟩ := List.getElem?_eq_some_iff.mp hthread
    obtain rfl := Option.some.inj ((getElem?_set_self hindex).symm.trans hmem)
    rcases mem_append.mp hnext with hnew | hold
    · rcases (continues_execute hkept action).drains hnew hdrains with hdrained | rfl
      · exact .inl ⟨_, hthread, action, mem_cons_self, hdrained⟩
      · exact .inr ⟨rfl, (hok (nextAction_of_getElem? hthread)).1⟩
    · exact .inl ⟨_, hthread, next, mem_cons_of_mem _ hold, hdrains⟩
  · exact .inl ⟨thread, (getElem?_set_ne hposition).symm.trans hmem, next, hnext, hdrains⟩

theorem Orderly.covered_runThread (h : Orderly key state) (hbusy : ¬ (state.runThread index).Idle key)
    (hflying : Flying key (state.runThread index) (state.runThread index).threads.flatten op) :
    Reached key (state.runThread index) (state.runThread index).threads.flatten op := by
  rcases runThread_cases hkept index with hsame | ⟨action, rest, pending, hthread, hpending, hrun,
    hafter⟩
  · rw [hsame] at hbusy hflying ⊢
    exact h.covered hbusy op hflying
  rw [hrun] at hbusy hflying ⊢
  have hbefore : Flying key state (action :: pending) op := by
    refine flying_execute hkept ?_
    simpa only [Flying, hafter] using hflying
  by_cases hidle : state.Idle key
  · -- the drain begins with this step, and the buffer holds all that is in flight
    obtain ⟨next, hnext, hdrains⟩ : ∃ next ∈ (state.execute action).2 ++ pending,
        next.Drains key := by
      simpa only [State.Idle, not_forall, not_not, hafter, exists_prop] using hbusy
    rcases mem_append.mp hnext with hnew | hold
    · rcases (continues_execute hkept action).drains hnew hdrains with hdrained | rfl
      · exact absurd hdrained (hidle action ((hpending _).mpr mem_cons_self))
      · obtain rfl := (continues_execute hkept _).of_take hnew
        refine .inr (.inl ⟨_, (hafter _).mpr hnext, rfl, mem_carries_clear.mpr ⟨rfl, ?_⟩⟩)
        rcases hbefore with hin | ⟨offering, hoffering, hin⟩
        · exact hin
        · refine (hok (nextAction_of_getElem? hthread)).2 op ?_
          exact mem_flatMap.mpr ⟨offering, (hpending _).mpr hoffering, hin⟩
    · exact absurd hdrains (hidle next ((hpending _).mpr (mem_cons_of_mem _ hold)))
  · have hold := h.covered hidle op (by simpa only [Flying, hpending] using hbefore)
    have hreached : Reached key state (action :: pending) op := by
      simpa only [Reached, hpending] using hold
    refine (reached_execute hkept hreached).imp_right (Or.imp_left ?_)
    rintro ⟨next, hnext, hin⟩
    exact ⟨next, (hafter _).mpr hnext, hin⟩

theorem Orderly.runThread (h : Orderly key state) (hown : (state.mergers key).Keyed) :
    Orderly key (state.runThread index) where
  led := by
    rcases runThread_cases hkept index with hsame | ⟨action, rest, pending, hthread, -, hrun, -⟩
    · rw [hsame]
      exact h.led
    rw [hrun]
    intro thread hmem
    rcases mem_or_eq_of_mem_set hmem with hold | rfl
    · exact h.led thread hold
    · refine (continues_execute hkept action).led (h.led _ (mem_of_getElem? hthread)) ?_
      rintro ops rfl
      exact h.sorted ops (mem_flatten_of_getElem? hthread mem_cons_self)
  sorted := by
    rcases runThread_cases hkept index with hsame | ⟨action, rest, pending, -, hpending, hrun,
      hafter⟩
    · rw [hsame]
      exact h.sorted
    rw [hrun]
    intro ops hmem
    rcases mem_append.mp ((hafter _).mp hmem) with hnew | hold
    · rw [(continues_execute hkept action).clears hnew]
      exact ascending_opsToDeliver hown
    · exact h.sorted ops ((hpending _).mpr (mem_cons_of_mem _ hold))
  alone := by
    intro one other hone hother
    rcases drainsAt_runThread hkept hok hone with hfirst | ⟨hone, hidle⟩ <;>
      rcases drainsAt_runThread hkept hok hother with hsecond | ⟨hother, hidle'⟩
    · exact h.alone one other hfirst hsecond
    · exact absurd hfirst (idle_iff.mp hidle' one)
    · exact absurd hsecond (idle_iff.mp hidle other)
    · rw [hone, hother]
  covered := fun hbusy _ hflying => h.covered_runThread hkept hok hbusy hflying

end Run

theorem Orderly.frame (h : Orderly key state) {after : State ν}
    (hthreads : after.threads = state.threads) (hmerger : after.mergers key = state.mergers key)
    (hqueued : ∀ op ∈ state.queued key, op ∈ after.queued key)
    (hblocked : state.Blocked key.1 → after.Blocked key.1) : Orderly key after where
  led := by rw [hthreads]; exact h.led
  sorted := by rw [hthreads]; exact h.sorted
  alone := by simpa only [State.DrainsAt, hthreads] using h.alone
  covered := by
    intro hbusy op hop
    rw [State.Idle, hthreads] at hbusy
    rw [Flying, hmerger, hthreads] at hop
    rw [Reached, hthreads]
    exact (h.covered hbusy op hop).imp (hqueued op) (Or.imp_right hblocked)

/-- A call that begins takes part in no drain, and offers nothing while there is one. -/
theorem Orderly.spawn (h : Orderly key state) {actions : List (Action ν)}
    (hled : actions.Pairwise (Action.Leads key)) (hdrains : ∀ action ∈ actions, ¬ action.Drains key)
    (hnew : ¬ state.Idle key → ∀ action ∈ actions, ∀ op, op ∉ action.carries key) :
    Orderly key (state.spawn actions) := by
  have hflatten : (state.spawn actions).threads.flatten = state.threads.flatten ++ actions := by
    simp [State.spawn]
  refine { led := ?_, sorted := ?_, alone := ?_, covered := ?_ }
  · intro thread hthread
    rcases mem_append.mp hthread with hold | hlast
    · exact h.led thread hold
    · rw [mem_singleton.mp hlast]
      exact hled
  · intro ops hmem
    rw [hflatten] at hmem
    rcases mem_append.mp hmem with hold | hlast
    · exact h.sorted ops hold
    · exact absurd rfl (hdrains _ hlast)
  · have hback : ∀ index, (state.spawn actions).DrainsAt key index → state.DrainsAt key index := by
      rintro index ⟨thread, hthread, action, haction, hdrained⟩
      rcases lt_or_ge index state.threads.length with hlt | hge
      · exact ⟨thread, (getElem?_append_left hlt).symm.trans hthread, action, haction, hdrained⟩
      · have hlast := mem_of_getElem? ((getElem?_append_right hge).symm.trans hthread)
        rw [mem_singleton.mp hlast] at haction
        exact absurd hdrained (hdrains action haction)
    exact fun one other hone hother => h.alone one other (hback one hone) (hback other hother)
  · intro hbusy op hop
    have hbusy' : ¬ state.Idle key := by
      refine fun hidle => hbusy fun action haction => ?_
      rw [hflatten] at haction
      exact (mem_append.mp haction).elim (hidle action) (hdrains action)
    rw [hflatten] at hop ⊢
    have hold : Flying key state state.threads.flatten op := by
      refine hop.imp_right ?_
      rintro ⟨action, haction, hin⟩
      rcases mem_append.mp haction with haction | haction
      · exact ⟨action, haction, hin⟩
      · exact absurd hin (hnew hbusy' action haction op)
    refine (h.covered hbusy' op hold).imp_right (Or.imp_left ?_)
    rintro ⟨action, haction, hin⟩
    exact ⟨action, mem_append_left _ haction, hin⟩

theorem Orderly.perform (h : Orderly key state) {registry : ShapeRegistry} {step : Step ν}
    (hkept : ∀ scope, state.snapshotHlcs scope = none)
    (hown : (state.mergers key).Keyed) (hok : step.InOrder key state) :
    Orderly key (state.perform registry step) := by
  cases step with
  | onOpApplied shardId scope op =>
    refine h.spawn ?_ ?_ ?_
    · exact pairwise_map.mpr (pairwise_of_forall fun _ _ => trivial)
    · intro action haction
      obtain ⟨session, -, rfl⟩ := mem_map.mp haction
      exact id
    · intro hbusy action haction other hother
      obtain ⟨session, -, rfl⟩ := mem_map.mp haction
      exact hbusy (hok (congrArg Prod.snd (mem_carries_check.mp hother).1)).1
  | drainTo target =>
    refine h.spawn (pairwise_singleton _ _) ?_ ?_
    · simp [Action.Drains]
    · simp [carries]
  | run index => exact h.runThread hkept hok hown
  | queueOther session =>
    obtain ⟨-, hmergers, -, hthreads⟩ := enqueueFrame_fields state session .other
    obtain ⟨hqueued, hblocked⟩ := enqueueFrame_keeps state key session .other
    exact h.frame hthreads (congrFun hmergers key) hqueued hblocked
  | receive session =>
    refine h.frame rfl rfl (fun op hop => ?_) (updateChannel_blocked fun _ => id)
    rw [State.perform, updateChannel_queued]
    exacts [hop, fun _ => rfl]
  | close session =>
    refine h.frame rfl rfl (fun op hop => ?_) (updateChannel_blocked fun _ _ => .inr rfl)
    rw [State.perform, updateChannel_queued]
    exacts [hop, fun _ => rfl]

end Steps

end Drain

end Outbound
end NodeDB.ArraySync
