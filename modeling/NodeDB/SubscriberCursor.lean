import NodeDB.DrainOrder

/-!
# No operation is lost to a subscriber

Where operations come above everything queued to a subscriber and drains do
not overlap other calls, every applied operation is queued or above the
cursor, whatever the threads do in between.
-/

namespace NodeDB.ArraySync
namespace Outbound

open Std KeyedFold ArrayEngine StepRuns List Function Outbound.Action Outbound.State

section Delivery

variable {ν : Type}

def Step.Applies (scope : Scope) (op : ArrayOp ν) : Step ν → Prop
  | .onOpApplied _ shapeScope other =>
    other = op ∧ scopeOf shapeScope.databaseId shapeScope.tenantId op = scope
  | _ => False

/-- Every applied operation is queued, in flight or turned away for good, and those not
queued are above the cursor and above all that is queued. -/
structure Tracked (key : SubscriberKey) (applied : ArrayOp ν → Prop) (state : State ν)
    (pending : List (Action ν)) : Prop where
  kept : ∀ scope, state.snapshotHlcs scope = none
  own : ∀ (hlc : Hlc) (op : ArrayOp ν), (state.mergers key).buffer[hlc]? = some op →
    op.header.hlc = hlc
  marked : ∀ op, .mark key op ∈ pending → op ∈ state.queued key
  cursor : ∃ last, state.cursors key = some last ∧
    ∀ op, applied op → op ∉ state.queued key → last < op.header.hlc
  ordered : ∀ op, applied op → op ∉ state.queued key →
    ∀ earlier ∈ state.queued key, earlier.header.hlc < op.header.hlc
  tracked : ∀ op, applied op →
    op ∈ state.queued key ∨ Flying key state pending op ∨ state.Blocked key.1

/-- No two of the operations share a clock. -/
def Distinct (applied : ArrayOp ν → Prop) : Prop :=
  ∀ one other, applied one → applied other → one.header.hlc = other.header.hlc → one = other

section Actions

variable {key : SubscriberKey} {applied : ArrayOp ν → Prop} {state : State ν}
  {pending : List (Action ν)} {action : Action ν} {op : ArrayOp ν} {session : String}

theorem Tracked.frame (h : Tracked key applied state pending) {next : State ν}
    (hkept : next.snapshotHlcs = state.snapshotHlcs)
    (hmerger : next.mergers key = state.mergers key)
    (hcursor : next.cursors key = state.cursors key)
    (hqueued : next.queued key = state.queued key)
    (hblocked : state.Blocked key.1 → next.Blocked key.1) :
    Tracked key applied next pending where
  kept := by rw [hkept]; exact h.kept
  own := by rw [hmerger]; exact h.own
  marked := by rw [hqueued]; exact h.marked
  cursor := by rw [hcursor, hqueued]; exact h.cursor
  ordered := by rw [hqueued]; exact h.ordered
  tracked := by
    intro op hop
    rw [hqueued]
    refine (h.tracked op hop).imp_right (Or.imp ?_ hblocked)
    rw [Flying, Flying, hmerger]
    exact id

theorem enqueueFrame_queued_foreign {frame : Frame ν}
    (hforeign : session = key.1 → frame.delta? key.2 = none) :
    (state.enqueueFrame session frame).1.queued key = state.queued key := by
  by_cases hsession : session = key.1
  · subst hsession
    rcases enqueueFrame_cases state key frame with ⟨-, -, hqueued⟩ | ⟨-, -, hqueued⟩
    · simpa [hforeign rfl] using hqueued
    · exact hqueued
  · rw [queued, queued, enqueueFrame_delivery_ne state (Ne.symm hsession) frame]

/-! ## What an action changes -/

section Kept

variable (hkept : ∀ scope, state.snapshotHlcs scope = none)
include hkept

theorem cursors_execute (key : SubscriberKey) (action : Action ν) :
    (state.execute action).1.cursors key = state.cursors key ∨ ∃ op, action = .mark key op ∧
      (state.execute action).1.cursors key =
        (state.cursors key).map fun last => max last op.header.hlc := by
  cases action with
  | check =>
    left
    rw [execute_check hkept]
  | enqueue target op => exact .inl (congrFun (enqueueFrame_fields state _ _).1 key)
  | mark target op =>
    by_cases htarget : target = key
    · subst htarget
      exact .inr ⟨op, rfl, update_self _ _ _⟩
    · exact .inl (update_of_ne (Ne.symm htarget) _ _)
  | push | take | clear => exact .inl rfl

theorem queued_execute (key : SubscriberKey) (action : Action ν) :
    (state.execute action).1.queued key = state.queued key ∨ ∃ op, action = .enqueue key op ∧
      ¬ state.Blocked key.1 ∧ (state.execute action).1.queued key = state.queued key ++ [op] := by
  cases action with
  | check =>
    left
    rw [execute_check hkept]
  | enqueue target op =>
    by_cases htarget : target = key
    · subst htarget
      have hdelta : (Frame.delta target.2 op).delta? target.2 = some op := if_pos rfl
      rcases enqueueFrame_cases state target (.delta target.2 op) with
        ⟨-, hopen, hqueued⟩ | ⟨-, -, hqueued⟩
      · rw [hdelta] at hqueued
        exact .inr ⟨op, rfl, hopen, hqueued⟩
      · exact .inl hqueued
    · refine .inl (enqueueFrame_queued_foreign fun hsession => if_neg fun hscope => htarget ?_)
      exact Prod.ext hsession hscope
  | push | take | clear | mark => exact .inl rfl

theorem marked_execute (hmark : .mark key op ∈ (state.execute action).2) :
    op ∈ (state.execute action).1.queued key := by
  obtain rfl := (continues_execute hkept action).marks hmark
  simp only [execute] at hmark ⊢
  rcases enqueueFrame_cases state key (.delta key.2 op) with ⟨-, -, hqueued⟩ | ⟨hno, -, -⟩
  · rw [hqueued]
    simp [Frame.delta?]
  · simp [hno] at hmark

variable (hown : (state.mergers key).Keyed)
include hown

theorem own_execute (action : Action ν) : ((state.execute action).1.mergers key).Keyed := by
  intro hlc op hop
  rcases mergers_execute hkept key action with hsame | ⟨shardId, pushed, rfl, hpush⟩ |
    ⟨ops, rfl, hclear⟩
  · rw [hsame] at hop
    exact hown hlc op hop
  · rw [hpush] at hop
    rcases getElem?_push.mp hop with ⟨rfl, rfl⟩ | ⟨-, hold⟩
    · rfl
    · exact hown hlc op hold
  · rw [hclear] at hop
    exact hown hlc op (getElem?_remove.mp hop).1

variable (hdistinct : Distinct applied) (happlied : ∀ op ∈ action.carries key, applied op)
include hdistinct happlied

/-- What leaves the buffer is carried on by a drain. -/
theorem buffered_kept (hop : applied op) (hin : op ∈ (state.mergers key).opsToDeliver) :
    Flying key (state.execute action).1 ((state.execute action).2 ++ pending) op := by
  obtain ⟨hlc, hheld⟩ := mem_opsToDeliver.mp hin
  obtain rfl := hown hlc op hheld
  rcases mergers_execute hkept key action with hsame | ⟨shardId, pushed, rfl, hpush⟩ |
    ⟨ops, rfl, hclear⟩
  · exact .inl (hsame ▸ hin)
  · refine .inl ?_
    rw [hpush]
    refine mem_opsToDeliver.mpr ⟨op.header.hlc, getElem?_push.mpr ?_⟩
    by_cases heq : op.header.hlc = pushed.header.hlc
    · exact .inl ⟨heq, hdistinct op pushed hop (happlied pushed (by simp)) heq⟩
    · exact .inr ⟨heq, hheld⟩
  · by_cases hremoved : op ∈ ops
    · refine flying_append.mpr (.inl ⟨.enqueue key op, ?_, by simp⟩)
      exact mem_map.mpr ⟨op, hremoved, rfl⟩
    · refine .inl ?_
      rw [hclear]
      refine mem_opsToDeliver.mpr ⟨op.header.hlc, getElem?_remove.mpr ⟨hheld, ?_⟩⟩
      intro removed hmem heq
      have hsame := hdistinct removed op (happlied removed (by simpa using hmem)) hop heq
      exact hremoved (hsame ▸ hmem)

theorem flying_kept (hop : applied op) (h : Flying key state (action :: pending) op) :
    op ∈ (state.execute action).1.queued key ∨
      Flying key (state.execute action).1 ((state.execute action).2 ++ pending) op ∨
      (state.execute action).1.Blocked key.1 ∨
      ∀ last ∈ state.cursors key, op.header.hlc ≤ last := by
  rcases flying_cons.mp h with hin | hin | hrest
  · by_cases hdrains : action.Drains key
    · rcases reached_execute hkept
        (.inr (.inl ⟨action, mem_cons_self (l := pending), hdrains, hin⟩)) with
        hqueued | ⟨next, hnext, -, hcarried⟩ | hblocked
      · exact .inl hqueued
      · exact .inr (.inl (.inr ⟨next, hnext, hcarried⟩))
      · exact .inr (.inr (.inl hblocked))
    · cases action with
      | check shardId target other =>
        rcases execute_check_cases hkept shardId target other with hpush | ⟨-, hbelow⟩
        · rw [hpush]
          refine .inr (.inl (flying_append.mpr (.inl ⟨_, mem_singleton.mpr rfl, ?_⟩)))
          simpa using hin
        · obtain ⟨rfl, rfl⟩ := mem_carries_check.mp hin
          exact .inr (.inr (.inr hbelow))
      | push shardId target pushed =>
        obtain ⟨rfl, rfl⟩ := mem_carries_push.mp hin
        refine .inr (.inl (.inl ?_))
        simp only [execute, updateMerger, update_self]
        exact mem_opsToDeliver.mpr ⟨_, getElem?_insert_eq_some_iff.mpr (.inl ⟨rfl, rfl⟩)⟩
      | clear target ops => exact absurd (mem_carries_clear.mp hin).1 hdrains
      | enqueue target taken => exact absurd (mem_carries_enqueue.mp hin).1 hdrains
      | take | mark => cases hin
  · exact .inr (.inl (buffered_kept hkept hown hdistinct happlied hop hin))
  · exact .inr (.inl (flying_append.mpr (.inr (.inr hrest))))

end Kept

/-- One action of a thread, with what it goes on with put before the rest. -/
theorem Tracked.execute (h : Tracked key applied state (action :: pending))
    (hdistinct : Distinct applied) (happlied : ∀ op ∈ action.carries key, applied op)
    (hlowest : ∀ op, action = .enqueue key op → ¬ state.Blocked key.1 →
      ∀ other, Flying key state (action :: pending) other →
        other ∈ state.queued key ∨ op.header.hlc ≤ other.header.hlc) :
    Tracked key applied (state.execute action).1 ((state.execute action).2 ++ pending) := by
  obtain ⟨hkeeps, hblocks⟩ := execute_keeps h.kept key action
  obtain ⟨last, hlast, hbelow⟩ := h.cursor
  have hunqueued : ∀ op, op ∉ (state.execute action).1.queued key → op ∉ state.queued key :=
    fun op hnew hold => hnew (hkeeps op hold)
  refine
    { kept := by rw [(execute_fields h.kept _).1]; exact h.kept
      own := own_execute h.kept h.own action
      marked := ?_
      cursor := ?_
      ordered := ?_
      tracked := ?_ }
  · intro op hop
    rcases mem_append.mp hop with hnew | hold
    · exact marked_execute h.kept hnew
    · exact hkeeps op (h.marked op (mem_cons_of_mem _ hold))
  · rcases cursors_execute h.kept key action with hsame | ⟨queued, rfl, hmoved⟩
    · exact ⟨last, hsame.trans hlast, fun op hop hnew => hbelow op hop (hunqueued op hnew)⟩
    · -- the cursor moves to an operation that is queued
      refine ⟨max last queued.header.hlc, by rw [hmoved, hlast]; rfl, fun op hop hnew => ?_⟩
      refine max_lt (hbelow op hop (hunqueued op hnew)) ?_
      exact h.ordered op hop (hunqueued op hnew) queued (h.marked queued mem_cons_self)
  · intro op hop hnew earlier hearlier
    rcases queued_execute h.kept key action with hsame | ⟨queued, rfl, hopen, hqueued⟩
    · rw [hsame] at hnew hearlier
      exact h.ordered op hop hnew earlier hearlier
    · -- what is still in flight has a higher clock than what was queued
      have hold := hunqueued op hnew
      rw [hqueued] at hnew hearlier
      rcases mem_append.mp hearlier with hearlier | hearlier
      · exact h.ordered op hop hold earlier hearlier
      · obtain rfl := mem_singleton.mp hearlier
        have hflies := ((h.tracked op hop).resolve_left hold).resolve_right hopen
        have hle := (hlowest earlier rfl hopen op hflies).resolve_left hold
        refine hle.lt_of_ne fun heq => hnew (mem_append_right _ (mem_singleton.mpr ?_))
        exact hdistinct op earlier hop (happlied earlier (by simp)) heq.symm
  · intro op hop
    rcases h.tracked op hop with hqueued | hflies | hblocked
    · exact .inl (hkeeps op hqueued)
    · rcases flying_kept h.kept h.own hdistinct happlied hop hflies with
        hqueued | hflies | hblocked | hskipped
      · exact .inl hqueued
      · exact .inr (.inl hflies)
      · exact .inr (.inr hblocked)
      · -- what is not above the cursor has been queued
        by_contra hlost
        have hnew := hunqueued op fun hqueued => hlost (.inl hqueued)
        exact (hskipped last hlast).not_gt (hbelow op hop hnew)
    · exact .inr (.inr (hblocks hblocked))

end Actions

/-! ## The steps -/

section Steps

variable {key : SubscriberKey} {applied : ArrayOp ν → Prop} {state : State ν}
  {pending : List (Action ν)}

theorem Tracked.congr (h : Tracked key applied state pending) {others : List (Action ν)}
    (hmem : ∀ action, action ∈ others ↔ action ∈ pending) : Tracked key applied state others := by
  have hflying : ∀ op, Flying key state others op ↔ Flying key state pending op := by
    intro op
    simp only [Flying, hmem]
  exact
    { h with
      marked := fun op hop => h.marked op ((hmem _).mp hop)
      tracked := fun op hop => (h.tracked op hop).imp_right (Or.imp_left (hflying op).mpr) }

theorem Tracked.withThreads (h : Tracked key applied state pending)
    (threads : List (List (Action ν))) :
    Tracked key applied { state with threads := threads } pending :=
  h.frame rfl rfl rfl rfl id

variable {index : Nat} {registry : ShapeRegistry} {scope : Scope} {op : ArrayOp ν}
  {past : List (Step ν)} {step : Step ν}

theorem Tracked.runThread (h : Tracked key applied state state.threads.flatten)
    (horderly : Orderly key state)
    (happlied : ∀ op, Flying key state state.threads.flatten op → applied op)
    (hdistinct : Distinct applied) :
    Tracked key applied (state.runThread index) (state.runThread index).threads.flatten := by
  rcases runThread_cases h.kept index with hsame | ⟨action, rest, pending, hthread, hpending, hrun,
    hafter⟩
  · rw [hsame]
    exact h
  have hstart := h.congr fun item => (hpending item).symm
  have hnext := hstart.execute hdistinct ?_ ?_
  · rw [hrun]
    exact (hnext.withThreads _).congr hafter
  · intro op hop
    exact happlied op (.inr ⟨action, (hpending _).mpr mem_cons_self, hop⟩)
  · rintro op rfl hopen other hother
    exact horderly.lowest hthread hopen other (by simpa only [Flying, hpending] using hother)

theorem Tracked.spawn (h : Tracked key applied state state.threads.flatten)
    {actions : List (Action ν)} {applied' : ArrayOp ν → Prop}
    (hnew : ∀ op, applied' op → applied op ∨ (∃ action ∈ actions, op ∈ action.carries key) ∧
      (∀ last ∈ state.cursors key, last < op.header.hlc) ∧
        ∀ earlier ∈ state.queued key, earlier.header.hlc < op.header.hlc)
    (hmarks : ∀ op, .mark key op ∉ actions) :
    Tracked key applied' (state.spawn actions) (state.spawn actions).threads.flatten := by
  have hbegun : Tracked key applied' state (actions ++ state.threads.flatten) := by
    refine { h with marked := ?_, cursor := ?_, ordered := ?_, tracked := ?_ }
    · intro op hop
      exact h.marked op ((mem_append.mp hop).resolve_left (hmarks op))
    · obtain ⟨last, hlast, hbelow⟩ := h.cursor
      refine ⟨last, hlast, fun op hop hunqueued => ?_⟩
      rcases hnew op hop with hold | ⟨-, habove, -⟩
      · exact hbelow op hold hunqueued
      · exact habove last hlast
    · intro op hop hunqueued
      rcases hnew op hop with hold | ⟨-, -, habove⟩
      · exact h.ordered op hold hunqueued
      · exact habove
    · intro op hop
      rcases hnew op hop with hold | ⟨hcarried, -, -⟩
      · refine (h.tracked op hold).imp_right (Or.imp_left fun hflies => ?_)
        exact flying_append.mpr (.inr hflies)
      · exact .inr (.inl (flying_append.mpr (.inl hcarried)))
  refine (hbegun.withThreads _).congr fun action => ?_
  simp [State.spawn, or_comm]

theorem Tracked.updateChannel (h : Tracked key applied state pending) {session : String}
    {update : SessionDelivery ν → SessionDelivery ν}
    (hframes : ∀ delivery, (update delivery).frames = delivery.frames)
    (hblocked : ∀ delivery, delivery.lagged = true ∨ delivery.closed = true →
      (update delivery).lagged = true ∨ (update delivery).closed = true) :
    Tracked key applied (state.updateChannel session update) pending :=
  h.frame rfl rfl rfl (updateChannel_queued hframes) (updateChannel_blocked hblocked)

/-! ## Runs -/

def ShapeRegistry.Unbounded (registry : ShapeRegistry) (key : SubscriberKey) : Prop :=
  ∃ client, (key.1, client) ∈ registry ∧
    client.scope.databaseId = key.2.databaseId ∧ client.scope.tenantId = key.2.tenantId ∧
    ∃ shape ∈ client.shapes, shape.arrayName = key.2.array ∧ shape.coordRange = none

theorem ShapeRegistry.Unbounded.mem_evaluate (h : registry.Unbounded key) {scope : ShapeScope}
    (hscope : scopeOf scope.databaseId scope.tenantId op = key.2) (coord : List Nat) :
    key.1 ∈ registry.evaluateArrayMutation scope op.header.array coord := by
  obtain ⟨client, hclient, hdatabase, htenant, shape, hshape, hname, hrange⟩ := h
  rw [← hscope] at hdatabase htenant hname
  have hsame : client.scope = scope := ShapeScope.ext htenant hdatabase
  refine mem_flatMap.mpr ⟨(key.1, client), hclient, ?_⟩
  rw [if_pos hsame]
  refine mem_map.mpr ⟨shape, mem_filter.mpr ⟨hshape, ?_⟩, rfl⟩
  simp [ArrayShape.matchesArrayOp, hname, hrange, scopeOf]

def AppliedIn (scope : Scope) (past : List (Step ν)) (op : ArrayOp ν) : Prop :=
  ∃ step ∈ past, step.Applies scope op

theorem appliedIn_append :
    AppliedIn scope (past ++ [step]) op ↔ AppliedIn scope past op ∨ step.Applies scope op := by
  simp [AppliedIn, or_and_right, exists_or]

theorem appliedIn_append_of_not (h : ∀ op, ¬ step.Applies scope op) :
    AppliedIn scope (past ++ [step]) = AppliedIn scope past := by
  funext op
  rw [eq_iff_iff, appliedIn_append]
  exact or_iff_left (h op)

theorem flying_perform (hkept : ∀ scope, state.snapshotHlcs scope = none)
    (h : Flying key (state.perform registry step) (state.perform registry step).threads.flatten op) :
    Flying key state state.threads.flatten op ∨ step.Applies key.2 op := by
  cases step with
  | onOpApplied shardId scope offered =>
    rcases h with hin | ⟨action, haction, hin⟩
    · exact .inl (.inl hin)
    · obtain ⟨thread, hthread, haction⟩ := mem_flatten.mp haction
      rcases mem_append.mp hthread with hold | hlast
      · exact .inl (.inr ⟨action, mem_flatten.mpr ⟨thread, hold, haction⟩, hin⟩)
      · rw [mem_singleton.mp hlast] at haction
        obtain ⟨session, -, rfl⟩ := mem_map.mp haction
        obtain ⟨hkey, rfl⟩ := mem_carries_check.mp hin
        exact .inr ⟨rfl, congrArg Prod.snd hkey⟩
  | drainTo target =>
    refine .inl (h.imp_right ?_)
    rintro ⟨action, haction, hin⟩
    obtain ⟨thread, hthread, haction⟩ := mem_flatten.mp haction
    rcases mem_append.mp hthread with hold | hlast
    · exact ⟨action, mem_flatten.mpr ⟨thread, hold, haction⟩, hin⟩
    · rw [mem_singleton.mp hlast] at haction
      rw [mem_singleton.mp haction] at hin
      cases hin
  | run index =>
    refine .inl ?_
    rcases runThread_cases hkept index with hsame | ⟨action, rest, pending, -, hpending, hrun,
      hafter⟩
    · simpa only [State.perform, hsame] using h
    · rw [State.perform, hrun] at h
      have hbefore := flying_execute hkept (by simpa only [Flying, hafter] using h)
      simpa only [Flying, hpending] using hbefore
  | queueOther session =>
    obtain ⟨-, hmergers, -, hthreads⟩ := enqueueFrame_fields state session .other
    rw [State.perform, Flying, hmergers, hthreads] at h
    exact .inl h
  | receive session | close session => exact .inl h

theorem Tracked.perform (hshape : registry.Unbounded key)
    (h : Tracked key (AppliedIn key.2 past) state state.threads.flatten)
    (horderly : Orderly key state)
    (happlied : ∀ op, Flying key state state.threads.flatten op → AppliedIn key.2 past op)
    (hdistinct : Distinct (AppliedIn key.2 past)) (hok : step.InOrder key state) :
    Tracked key (AppliedIn key.2 (past ++ [step])) (state.perform registry step)
      (state.perform registry step).threads.flatten := by
  cases step with
  | onOpApplied shardId scope op =>
    refine h.spawn ?_ ?_
    · intro other hother
      refine (appliedIn_append.mp hother).imp_right ?_
      rintro ⟨rfl, hscope⟩
      refine ⟨⟨.check shardId key op, mem_map.mpr ⟨key.1, ?_, ?_⟩, by simp⟩, (hok hscope).2⟩
      · exact hshape.mem_evaluate hscope _
      · rw [hscope]
    · intro other hother
      obtain ⟨session, -, hcheck⟩ := mem_map.mp hother
      cases hcheck
  | drainTo target =>
    rw [appliedIn_append_of_not fun _ => id]
    exact h.spawn (fun other hother => .inl hother) (by simp)
  | run index =>
    rw [appliedIn_append_of_not fun _ => id]
    exact h.runThread horderly happlied hdistinct
  | queueOther session =>
    rw [appliedIn_append_of_not fun _ => id]
    have hthreads := (enqueueFrame_fields state session .other).2.2.2
    simp only [perform, hthreads]
    obtain ⟨hcursors, hmergers, hkept, -⟩ := enqueueFrame_fields state session .other
    exact h.frame hkept (congrFun hmergers key) (congrFun hcursors key)
      (enqueueFrame_queued_foreign fun _ => rfl) (enqueueFrame_keeps state key session .other).2
  | receive session =>
    rw [appliedIn_append_of_not fun _ => id]
    exact h.updateChannel (fun _ => rfl) fun _ => id
  | close session =>
    rw [appliedIn_append_of_not fun _ => id]
    exact h.updateChannel (fun _ => rfl) fun _ _ => .inr rfl

/-- What every run keeps whose calls meet the condition. -/
structure Followed (key : SubscriberKey) (past : List (Step ν)) (state : State ν) : Prop where
  tracked : Tracked key (AppliedIn key.2 past) state state.threads.flatten
  orderly : Orderly key state
  flying : ∀ op, Flying key state state.threads.flatten op → AppliedIn key.2 past op

theorem Followed.perform (hshape : registry.Unbounded key) (h : Followed key past state)
    (hdistinct : Distinct (AppliedIn key.2 past)) (hok : step.InOrder key state) :
    Followed key (past ++ [step]) (state.perform registry step) where
  tracked := h.tracked.perform hshape h.orderly h.flying hdistinct hok
  orderly := h.orderly.perform h.tracked.kept h.tracked.own hok
  flying := fun op hop =>
    appliedIn_append.mpr ((flying_perform h.tracked.kept hop).imp_left (h.flying op))

theorem followed_start {capacity : Nat} {sessions : List String}
    {cursors : SubscriberKey → Option Hlc} {last : Hlc} (hcursor : cursors key = some last) :
    Followed key ([] : List (Step ν)) (State.start capacity sessions cursors) := by
  have hbuffer : ∀ hlc : Hlc,
      ((start capacity sessions cursors : State ν).mergers key).buffer[hlc]? = none := by
    simp [State.start, Merger.new]
  have hnone : ∀ op, ¬ Flying key (start capacity sessions cursors : State ν) [] op := by
    simp [Flying, mem_opsToDeliver, hbuffer]
  refine { tracked := ?_, orderly := ?_, flying := fun op hop => absurd hop (hnone op) }
  · exact
      { kept := fun _ => rfl
        own := by simp [hbuffer]
        marked := by simp [State.start]
        cursor := ⟨last, hcursor, by simp [AppliedIn]⟩
        ordered := by simp [AppliedIn]
        tracked := by simp [AppliedIn] }
  · exact
      { led := by simp [State.start]
        sorted := by simp [State.start]
        alone := by simp [State.start, State.DrainsAt]
        covered := fun _ op hop => absurd hop (hnone op) }

end Steps

/-- A subscriber with an unbounded range, in every run in which operations come above all that
is queued and drains do not overlap the other calls: every operation is queued or above the cursor,
and in the latter case a catch-up from the cursor delivers it. -/
theorem applied_queued_or_above {registry : ShapeRegistry} {key : SubscriberKey}
    (hshape : registry.Unbounded key) {capacity : Nat} {sessions : List String}
    {cursors : SubscriberKey → Option Hlc} {initial : Hlc} (hcursor : cursors key = some initial)
    {steps : List (Step ν)}
    (hdistinct : ∀ one other, AppliedIn key.2 steps one → AppliedIn key.2 steps other →
      one.header.hlc = other.header.hlc → one = other)
    (halong : Along (State.perform registry) (fun state step => step.InOrder key state)
      (State.start capacity sessions cursors) steps) :
    ∃ last, (steps.foldl (State.perform registry)
        (State.start capacity sessions cursors)).cursors key = some last ∧
      ∀ op, AppliedIn key.2 steps op →
        op ∈ (steps.foldl (State.perform registry)
          (State.start capacity sessions cursors)).queued key ∨
        last < op.header.hlc ∧ ∀ logged : List (ArraySync.Step ν), Uncollected logged →
          (∃ step ∈ logged, step.Appends key.2 op) →
            op ∈ (serve (Origin.run logged) key.2 last).ops := by
  have hrun := history_foldl_within
    (fun past state => Followed key past state)
    (fun past state step hwithin h horder => ?_) (followed_start hcursor) halong
  · obtain ⟨last, hlast, hbelow⟩ := hrun.tracked.cursor
    refine ⟨last, hlast, fun op hop => or_iff_not_imp_left.mpr fun hunqueued => ?_⟩
    have hlt := hbelow op hop hunqueued
    exact ⟨hlt, fun logged hlogged happended => hlogged.mem_serve happended hlt.le⟩
  · have hall : ∀ op, AppliedIn key.2 past op → AppliedIn key.2 steps op := by
      rintro op ⟨other, hother, hop⟩
      exact ⟨other, hwithin other (mem_append_left _ hother), hop⟩
    exact h.perform hshape
      (fun one other hone hother => hdistinct one other (hall one hone) (hall other hother)) horder

end Delivery

/-! ## Runs of one subscriber -/

namespace Sample

open ArraySync.Sample

def wholeArray : Client where
  scope := ⟨0, 0⟩
  shapes := [⟨"a", none⟩]

def subscriber : SubscriberKey := ("s", scopeA)

def fresh (capacity : Nat) : State Nat :=
  State.start capacity ["s"] fun _ => some Hlc.zero

def runSteps (capacity : Nat) (steps : List (Step Nat)) : State Nat :=
  steps.foldl (State.perform [("s", wholeArray)]) (fresh capacity)

def lateOp : List (Step Nat) :=
  .onOpApplied 1 ⟨0, 0⟩ (putAt 20) :: List.replicate 6 (.run 0) ++
    [.onOpApplied 1 ⟨0, 0⟩ (putAt 10), .run 1]

/-- Two shards whose calls overlap until both operations are buffered; the drain of a third
thread queues them to a channel that takes one frame. -/
def twoShards : List (Step Nat) :=
  [.onOpApplied 1 ⟨0, 0⟩ (putAt 20), .onOpApplied 2 ⟨0, 0⟩ (putAt 10), .run 0, .run 1, .run 0,
    .drainTo subscriber, .run 1, .run 2, .run 2, .run 2, .run 2, .run 2, .run 0, .run 1]

theorem wholeArray_unbounded : ShapeRegistry.Unbounded [("s", wholeArray)] subscriber :=
  ⟨wholeArray, mem_cons_self, rfl, rfl, ⟨"a", none⟩, mem_cons_self, rfl, rfl⟩

theorem twoShards_applied {op : ArrayOp Nat} (h : AppliedIn scopeA twoShards op) :
    op = putAt 20 ∨ op = putAt 10 := by
  obtain ⟨step, hstep, hop⟩ := h
  cases step with
  | onOpApplied shardId scope other =>
    obtain ⟨rfl, -⟩ := hop
    simp only [twoShards, mem_cons, reduceCtorEq, Step.onOpApplied.injEq, or_false,
      not_mem_nil] at hstep
    rcases hstep with ⟨-, -, rfl⟩ | ⟨-, -, rfl⟩
    · exact .inl rfl
    · exact .inr rfl
  | _ => exact hop.elim

end Sample

open Outbound.Sample ArraySync.Sample in
/-- The operation at 10 is applied after the one at 20 was delivered. -/
theorem lateOp_skipped :
    AppliedIn scopeA lateOp (putAt 10) ∧
      (runSteps channelCapacity lateOp).cursors subscriber = some (clock 20) ∧
      putAt 10 ∉ (runSteps channelCapacity lateOp).queued subscriber ∧
      ¬ clock 20 < (putAt 10).header.hlc := by
  refine ⟨⟨.onOpApplied 1 ⟨0, 0⟩ (putAt 10), by simp [lateOp], rfl, rfl⟩, ?_⟩
  decide +kernel

open Outbound.Sample ArraySync.Sample in
/-- One operation is queued; the other, refused by the channel, is above the
cursor. -/
theorem applied_queued_or_above_two_shards :
    (runSteps 1 twoShards).queued subscriber = [putAt 10] ∧
      ∃ last, (runSteps 1 twoShards).cursors subscriber = some last ∧
        ∀ op, AppliedIn scopeA twoShards op →
          op ∈ (runSteps 1 twoShards).queued subscriber ∨
          last < op.header.hlc ∧ ∀ logged : List (ArraySync.Step Nat), Uncollected logged →
            (∃ step ∈ logged, step.Appends scopeA op) →
              op ∈ (serve (Origin.run logged) scopeA last).ops := by
  refine ⟨by decide +kernel, ?_⟩
  refine applied_queued_or_above wholeArray_unbounded rfl ?_ (by decide +kernel)
  intro one other hone hother heq
  rcases twoShards_applied hone with rfl | rfl <;> rcases twoShards_applied hother with rfl | rfl
  · rfl
  · exact absurd heq (by decide)
  · exact absurd heq (by decide)
  · rfl

end Outbound
end NodeDB.ArraySync
