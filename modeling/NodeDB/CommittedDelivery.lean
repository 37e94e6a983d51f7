import NodeDB.RaftDurability
import NodeDB.RaftLogShape

/-!
# Delivery of committed entries to the state machine

A run commits, takes, applies and returns entries on one node, adopts
snapshots and compacts.  The queue always holds an interval of indices that
ends at the commit index, so a gap or a repeat is a statement about the lower
end of that interval.
-/

namespace NodeDB.Raft

open ContiguousList StepRuns List

variable {S : Type} [LogStorage S]

namespace RaftNode

def advanceCommit (node : RaftNode S) (index : Nat) : RaftNode S :=
  { node with volatile := { node.volatile with commitIndex := index } }
    |>.collectCommittedEntries

end RaftNode

open RaftNode

/-! ## Runs -/

/-- A node and the committed batches taken from it, oldest first. -/
structure DeliveryRun (S : Type) where
  node : RaftNode S
  readies : List (List LogEntry)

namespace DeliveryRun

def queue (run : DeliveryRun S) : List LogEntry :=
  run.node.ready.committedEntries

def latest (run : DeliveryRun S) : List LogEntry :=
  run.readies.getLast?.getD []

end DeliveryRun

inductive DeliveryOp where
  | append (entry : LogEntry)
  | appendEntries (prevIndex prevTerm : Nat) (entries : List LogEntry)
  | commit (index : Nat)
  | takeReady
  | advanceApplied (appliedTo : Nat)
  | requeueCommitted (skipped : Nat)
  | adoptSnapshotBoundary (index term : Nat)
  | compactLogUpTo (index : Nat)
  deriving DecidableEq

namespace DeliveryOp

def perform (run : DeliveryRun S) : DeliveryOp → DeliveryRun S
  | append entry =>
    { run with node := { run.node with log := (run.node.log.append entry).2 } }
  | appendEntries _ _ entries =>
    { run with node := { run.node with log := (run.node.log.appendEntries entries).2 } }
  | commit index => { run with node := run.node.advanceCommit index }
  | takeReady =>
    { node := run.node.takeReady.2
      readies := run.readies ++ [run.node.takeReady.1.committedEntries] }
  | advanceApplied appliedTo => { run with node := run.node.advanceApplied appliedTo }
  | requeueCommitted skipped =>
    { run with node := run.node.requeueCommitted (run.latest.drop skipped) }
  | adoptSnapshotBoundary index term =>
    { run with node := (run.node.adoptSnapshotBoundary index term).2 }
  | compactLogUpTo index => { run with node := (run.node.compactLogUpTo index).2 }

/-- The calls a driver makes: the log grows at its end or by a request that
matches it, the commit index moves up inside the log, and only committed
entries are applied. -/
def Admissible (run : DeliveryRun S) : DeliveryOp → Prop
  | append entry => entry.index = run.node.log.lastIndex + 1
  | appendEntries prevIndex prevTerm entries =>
    run.node.log.termAt prevIndex = some prevTerm ∧
      Contiguous LogEntry.index (prevIndex + 1) entries
  | commit index =>
    run.node.volatile.commitIndex < index ∧ index ≤ run.node.log.lastIndex
  | advanceApplied appliedTo => appliedTo ≤ run.node.volatile.commitIndex
  | _ => True

/-- The commit index stays while entries below the log boundary are not
applied. -/
def CommitsWithoutGap (run : DeliveryRun S) : DeliveryOp → Prop
  | commit _ => run.node.hasApplyGap = false
  | _ => True

def AppliesUnqueued (run : DeliveryRun S) : DeliveryOp → Prop
  | advanceApplied appliedTo => ∀ entry ∈ run.queue, appliedTo < entry.index
  | _ => True

instance (run : DeliveryRun S) (op : DeliveryOp) : Decidable (op.Admissible run) := by
  cases op <;> dsimp only [Admissible] <;> infer_instance

instance (run : DeliveryRun S) (op : DeliveryOp) : Decidable (op.CommitsWithoutGap run) := by
  cases op <;> dsimp only [CommitsWithoutGap] <;> infer_instance

end DeliveryOp

def Delivered (readies : List (List LogEntry)) (index : Nat) : Prop :=
  ∃ batch ∈ readies, ∃ entry ∈ batch, entry.index = index
  deriving Decidable

variable {index : Nat} {run : DeliveryRun S} {op : DeliveryOp} {entry : LogEntry}

theorem Delivered.append {readies : List (List LogEntry)}
    (hdelivered : Delivered readies index) (batch : List LogEntry) :
    Delivered (readies ++ [batch]) index := by
  obtain ⟨old, hmem, hentry⟩ := hdelivered
  exact ⟨old, mem_append_left _ hmem, hentry⟩

/-! ## The window of queued indices -/

/-- The queue holds the indices from `front + 1` to the commit index and the
last batch those from `takenFrom + 1` to `takenTo`.  What lies between the
watermark and `front`, or the watermark and `takenTo`, was delivered. -/
structure Window (volatile : VolatileState) (queue latest : List LogEntry)
    (readies : List (List LogEntry)) (front takenFrom takenTo : Nat) : Prop where
  applied_le : volatile.lastApplied ≤ volatile.commitIndex
  queue_spans : Spans LogEntry.index front volatile.commitIndex queue
  latest_spans : Spans LogEntry.index takenFrom takenTo latest
  taken_le : takenTo ≤ volatile.commitIndex
  /-- The last batch reaches the commit index unless something is queued. -/
  taken_end : volatile.lastApplied < takenTo → front = volatile.commitIndex →
    takenTo = volatile.commitIndex
  reach : front < volatile.commitIndex → front ≤ max volatile.lastApplied takenTo
  front_delivered : ∀ index, volatile.lastApplied < index → index ≤ front →
    Delivered readies index
  taken_delivered : ∀ index, volatile.lastApplied < index → index ≤ takenTo →
    Delivered readies index

namespace Window

variable {volatile : VolatileState} {queue latest : List LogEntry}
  {readies : List (List LogEntry)} {front takenFrom takenTo : Nat}

section

variable (hwindow : Window volatile queue latest readies front takenFrom takenTo)
include hwindow

theorem covered {index : Nat} (happlied : volatile.lastApplied < index)
    (hcommit : index ≤ volatile.commitIndex) :
    Delivered readies index ∨ ∃ entry ∈ queue, entry.index = index := by
  rcases Nat.lt_or_ge front index with habove | hbelow
  · exact .inr (hwindow.queue_spans.exists_mem habove hcommit)
  · exact .inl (hwindow.front_delivered index happlied hbelow)

theorem collect_start :
    max volatile.lastApplied ((queue.getLast?.map LogEntry.index).getD 0) =
      if front < volatile.commitIndex then volatile.commitIndex
      else volatile.lastApplied := by
  rw [hwindow.queue_spans.getLast?_getD]
  have happlied := hwindow.applied_le
  split <;> omega

theorem collected {index : Nat} (hindex : volatile.commitIndex < index) {entries : List LogEntry}
    (hentries : Spans LogEntry.index
      (max volatile.lastApplied ((queue.getLast?.map LogEntry.index).getD 0)) index
      entries) :
    ∃ front', Window ⟨index, volatile.lastApplied⟩ (queue ++ entries) latest readies
      front' takenFrom takenTo := by
  rw [hwindow.collect_start] at hentries
  have happlied := hwindow.applied_le
  have htaken := hwindow.taken_le
  split at hentries
  next hqueued =>
    exact ⟨front, by dsimp only; omega, hwindow.queue_spans.append hentries,
      hwindow.latest_spans, by dsimp only; omega, fun _ _ => by dsimp only at *; omega,
      fun _ => hwindow.reach hqueued, hwindow.front_delivered, hwindow.taken_delivered⟩
  next hempty =>
    have hnil : queue = [] := by
      have hlength := hwindow.queue_spans.2.2
      exact length_eq_zero_iff.mp (by omega)
    rw [hnil, nil_append]
    exact ⟨volatile.lastApplied, by dsimp only; omega, hentries, hwindow.latest_spans,
      by dsimp only; omega, fun _ _ => by dsimp only at *; omega,
      fun _ => Nat.le_max_left _ _, fun _ _ _ => by dsimp only at *; omega,
      hwindow.taken_delivered⟩

theorem taken :
    Window volatile [] queue (readies ++ [queue]) volatile.commitIndex front
      volatile.commitIndex := by
  have hall : ∀ index, volatile.lastApplied < index → index ≤ volatile.commitIndex →
      Delivered (readies ++ [queue]) index := by
    intro index happlied hcommit
    rcases hwindow.covered happlied hcommit with hold | hqueued
    · exact hold.append queue
    · exact ⟨queue, by simp, hqueued⟩
  exact ⟨hwindow.applied_le, spans_nil _ _, hwindow.queue_spans, le_rfl,
    fun _ _ => rfl, fun _ => by omega, hall, hall⟩

theorem applied {appliedTo : Nat} (hle : appliedTo ≤ volatile.commitIndex) :
    Window ⟨volatile.commitIndex, max volatile.lastApplied appliedTo⟩ queue latest readies
      front takenFrom takenTo := by
  have happlied := hwindow.applied_le
  have hreach := hwindow.reach
  exact ⟨by dsimp only; omega, hwindow.queue_spans, hwindow.latest_spans, hwindow.taken_le,
    fun hlt => hwindow.taken_end (by dsimp only at hlt; omega),
    fun hlt => by dsimp only at *; omega,
    fun index hlt => hwindow.front_delivered index (by dsimp only at hlt; omega),
    fun index hlt => hwindow.taken_delivered index (by dsimp only at hlt; omega)⟩

theorem returned (skipped : Nat) :
    ∃ front', Window volatile
      (RaftNode.mergeReturned volatile.lastApplied (latest.drop skipped) queue) latest
      readies front' takenFrom takenTo := by
  have hmerged := (hwindow.latest_spans.drop skipped).filter_lt volatile.lastApplied
  have hend := hwindow.taken_end
  have hreach := hwindow.reach
  have htaken := hwindow.taken_le
  have happlied := hwindow.applied_le
  have hqueue := hwindow.queue_spans.1
  unfold mergeReturned
  dsimp only
  rw [hmerged.getLast?_getD]
  generalize hfrom : min (max (min (takenFrom + skipped) takenTo) volatile.lastApplied)
    takenTo = returnedFrom at hmerged
  split
  next hsome =>
    -- The returned suffix ends at `takenTo`, where the rest of the queue begins.
    have hrest := hwindow.queue_spans.filter_lt takenTo
    rw [show min (max front takenTo) volatile.commitIndex = takenTo by omega] at hrest
    exact ⟨returnedFrom, happlied, hmerged.append hrest, hwindow.latest_spans, htaken,
      fun _ heq => by omega, fun _ => by omega,
      fun index hlt hle => hwindow.taken_delivered index hlt (by omega),
      hwindow.taken_delivered⟩
  next hnone =>
    have hrest := hwindow.queue_spans.filter_lt volatile.lastApplied
    have hnil : ((latest.drop skipped).filter fun entry =>
        decide (volatile.lastApplied < entry.index)) = [] := by
      have hlength := hmerged.2.2
      exact length_eq_zero_iff.mp (by omega)
    rw [hnil, nil_append]
    exact ⟨_, happlied, hrest, hwindow.latest_spans, htaken,
      fun hlt heq => hend hlt (by omega), fun hlt => by omega,
      fun index hlt hle => hwindow.front_delivered index hlt (by omega),
      hwindow.taken_delivered⟩

theorem snapshot (index : Nat) :
    ∃ front', Window
      ⟨max volatile.commitIndex index, max volatile.lastApplied index⟩
      (queue.filter fun entry => decide (index < entry.index)) latest readies
      front' takenFrom takenTo := by
  have hkept := hwindow.queue_spans.filter_lt index
  have hend := hwindow.taken_end
  have hreach := hwindow.reach
  have htaken := hwindow.taken_le
  have happlied := hwindow.applied_le
  have hqueue := hwindow.queue_spans.1
  rcases Nat.lt_or_ge volatile.commitIndex index with hpast | hinside
  · have hnil : (queue.filter fun entry => decide (index < entry.index)) = [] := by
      have hlength := hkept.2.2
      exact length_eq_zero_iff.mp (by omega)
    rw [hnil, show max volatile.commitIndex index = index by omega]
    exact ⟨index, by dsimp only; omega, spans_nil _ _, hwindow.latest_spans,
      by dsimp only; omega, fun hlt => by dsimp only at hlt; omega,
      fun hlt => by dsimp only at hlt; omega, fun _ hlt _ => by dsimp only at hlt; omega,
      fun _ hlt _ => by dsimp only at hlt; omega⟩
  · rw [show min (max front index) volatile.commitIndex = max front index by omega] at hkept
    rw [show max volatile.commitIndex index = volatile.commitIndex by omega]
    exact ⟨max front index, by dsimp only; omega, hkept, hwindow.latest_spans, htaken,
      fun hlt heq => hend (by dsimp only at hlt; omega) (by dsimp only at hlt heq; omega),
      fun hlt => by dsimp only at *; omega,
      fun i hlt hle => hwindow.front_delivered i (by dsimp only at hlt; omega)
        (by dsimp only at hlt; omega),
      fun i hlt hle => hwindow.taken_delivered i (by dsimp only at hlt; omega) hle⟩

end

end Window

/-! ## What a step preserves -/

structure Delivering (run : DeliveryRun S) : Prop where
  indexed : run.node.log.Indexed
  window : ∃ front takenFrom takenTo, Window run.node.volatile run.queue run.latest
    run.readies front takenFrom takenTo
  readies_contiguous : ∀ batch ∈ run.readies, ∃ start,
    Contiguous LogEntry.index start batch

section

omit [LogStorage S]

theorem Delivering.collect (hrun : Delivering run) (hcommit : run.node.volatile.commitIndex < index)
    (hlog : index ≤ run.node.log.lastIndex) (hgap : run.node.hasApplyGap = false) :
    ∃ entries, Spans LogEntry.index
        (max run.node.volatile.lastApplied
          ((run.queue.getLast?.map LogEntry.index).getD 0)) index entries ∧
      run.node.advanceCommit index = { run.node with
        volatile := ⟨index, run.node.volatile.lastApplied⟩
        ready := { run.node.ready with committedEntries := run.queue ++ entries } } := by
  obtain ⟨front, takenFrom, takenTo, hwindow⟩ := hrun.window
  have hstart := hwindow.collect_start
  have happlied := hwindow.applied_le
  have hbelow : max run.node.volatile.lastApplied
      ((run.queue.getLast?.map LogEntry.index).getD 0) < index := by
    rw [hstart]
    split <;> omega
  unfold hasApplyGap at hgap
  rw [decide_eq_false_iff_not] at hgap
  obtain ⟨entries, hread, hspans⟩ := hrun.indexed.entriesRange_eq
    (le_trans (by omega) (Nat.le_max_left _ _)) hbelow hlog
  refine ⟨entries, hspans, ?_⟩
  unfold advanceCommit collectCommittedEntries
  dsimp only [DeliveryRun.queue] at hread hbelow ⊢
  rw [if_neg (by omega), hread]

theorem Delivering.of_eq {next : DeliveryRun S} (hrun : Delivering run)
    (hindexed : next.node.log.Indexed) (hvolatile : next.node.volatile = run.node.volatile)
    (hqueue : next.queue = run.queue) (hreadies : next.readies = run.readies) :
    Delivering next := by
  have hlatest : next.latest = run.latest := by
    unfold DeliveryRun.latest
    rw [hreadies]
  refine ⟨hindexed, ?_, ?_⟩
  · rw [hvolatile, hqueue, hlatest, hreadies]
    exact hrun.window
  · rw [hreadies]
    exact hrun.readies_contiguous

theorem Delivering.coverThrough (hrun : Delivering run) (index : Nat) :
    Delivering { run with node := run.node.coverThrough index } := by
  obtain ⟨front, takenFrom, takenTo, hwindow⟩ := hrun.window
  obtain ⟨front', hmoved⟩ := hwindow.snapshot index
  exact ⟨hrun.indexed, ⟨front', takenFrom, takenTo, hmoved⟩, hrun.readies_contiguous⟩

end

theorem Delivering.perform (hrun : Delivering run)
    (hop : op.Admissible run) (hgap : op.CommitsWithoutGap run) : Delivering (op.perform run) := by
  obtain ⟨front, takenFrom, takenTo, hwindow⟩ := hrun.window
  cases op with
  | append entry => exact hrun.of_eq (hrun.indexed.afterAppend hop) rfl rfl rfl
  | appendEntries prevIndex prevTerm entries =>
    exact hrun.of_eq (hrun.indexed.afterAppendEntries hop.1 hop.2) rfl rfl rfl
  | commit index =>
    obtain ⟨entries, hspans, hnode⟩ := hrun.collect hop.1 hop.2 hgap
    obtain ⟨front', hcollected⟩ := hwindow.collected hop.1 hspans
    simp only [DeliveryOp.perform, hnode]
    exact ⟨hrun.indexed, ⟨front', takenFrom, takenTo, hcollected⟩,
      hrun.readies_contiguous⟩
  | takeReady =>
    refine ⟨hrun.indexed, ⟨run.node.volatile.commitIndex, front,
      run.node.volatile.commitIndex, ?_⟩, ?_⟩
    · have hlatest : (DeliveryOp.takeReady.perform run).latest = run.queue := by
        unfold DeliveryRun.latest
        simp [DeliveryOp.perform, RaftNode.takeReady, DeliveryRun.queue]
      rw [hlatest]
      exact hwindow.taken
    · intro batch hmem
      rcases mem_append.mp hmem with hold | hnew
      · exact hrun.readies_contiguous batch hold
      · rw [mem_singleton] at hnew
        rw [hnew]
        exact ⟨_, hwindow.queue_spans.2.1⟩
  | advanceApplied appliedTo =>
    exact ⟨hrun.indexed, ⟨front, takenFrom, takenTo, hwindow.applied hop⟩,
      hrun.readies_contiguous⟩
  | requeueCommitted skipped =>
    obtain ⟨front', hreturned⟩ := hwindow.returned skipped
    exact ⟨hrun.indexed, ⟨front', takenFrom, takenTo, hreturned⟩,
      hrun.readies_contiguous⟩
  | adoptSnapshotBoundary index term =>
    dsimp only [DeliveryOp.perform]
    obtain ⟨-, hnode⟩ | ⟨storage, hnode⟩ | ⟨storage, durable, hnode⟩ :=
      run.node.adoptSnapshotBoundary_cases index term
    · rw [hnode]
      exact hrun
    · rw [hnode]
      exact hrun.of_eq hrun.indexed rfl rfl rfl
    · rw [hnode]
      have hsnapshot := hrun.indexed.afterApplySnapshot index term
      have hmoved : Delivering { run with node := { run.node with
          log := (run.node.log.applySnapshot index term).2 } } :=
        hrun.of_eq hsnapshot rfl rfl rfl
      exact (hmoved.coverThrough index).of_eq hsnapshot rfl rfl rfl
  | compactLogUpTo index =>
    dsimp only [DeliveryOp.perform]
    obtain hnode | ⟨term, -, hnode⟩ := run.node.compactLogUpTo_cases index
    · rw [hnode]
      exact hrun
    · rw [hnode]
      exact hrun.of_eq (hrun.indexed.afterApplySnapshot index term) rfl rfl rfl

/-! ## Entries at or below the watermark -/

theorem mem_mergeReturned {applied : Nat} {batch queued : List LogEntry}
    (hmem : entry ∈ RaftNode.mergeReturned applied batch queued) : applied < entry.index := by
  rcases mem_append.mp hmem with hbatch | hqueued
  · simpa using (mem_filter.mp hbatch).2
  · have hthrough := (mem_filter.mp hqueued).2
    rw [decide_eq_true_eq] at hthrough
    refine lt_of_le_of_lt ?_ hthrough
    cases hlast : (batch.filter fun entry => decide (applied < entry.index)).getLast? with
    | none => exact le_rfl
    | some last =>
      have hkept := mem_of_getLast? hlast
      have habove : applied < last.index := by simpa using (mem_filter.mp hkept).2
      exact le_of_lt habove

theorem mem_queue_of_adopt {node : RaftNode S} {term : Nat}
    (hmem : entry ∈ (node.adoptSnapshotBoundary index term).2.ready.committedEntries) :
    entry ∈ node.ready.committedEntries ∧
      (node.volatile.lastApplied < entry.index →
        (node.adoptSnapshotBoundary index term).2.volatile.lastApplied < entry.index) := by
  obtain ⟨-, hnode⟩ | ⟨storage, hnode⟩ | ⟨storage, durable, hnode⟩ :=
    node.adoptSnapshotBoundary_cases index term
  · rw [hnode] at hmem ⊢
    exact ⟨hmem, id⟩
  · rw [hnode] at hmem ⊢
    exact ⟨hmem, id⟩
  · rw [hnode] at hmem ⊢
    obtain ⟨hold, habove⟩ := mem_filter.mp hmem
    refine ⟨hold, fun hlt => ?_⟩
    exact Nat.max_lt.mpr ⟨hlt, by simpa using habove⟩

theorem queue_compactLogUpTo (node : RaftNode S) (index : Nat) :
    (node.compactLogUpTo index).2.ready = node.ready ∧
      (node.compactLogUpTo index).2.volatile = node.volatile := by
  obtain hnode | ⟨term, -, hnode⟩ := node.compactLogUpTo_cases index <;> rw [hnode] <;>
    exact ⟨rfl, rfl⟩

theorem Delivering.queued_above (hrun : Delivering run)
    (hop : op.Admissible run) (hgap : op.CommitsWithoutGap run)
    (hmem : entry ∈ (op.perform run).queue) :
    entry ∈ run.queue ∨ (op.perform run).node.volatile.lastApplied < entry.index := by
  cases op with
  | append _ | appendEntries _ _ _ => exact .inl hmem
  | commit index =>
    obtain ⟨entries, hspans, hnode⟩ := hrun.collect hop.1 hop.2 hgap
    simp only [DeliveryOp.perform, DeliveryRun.queue, hnode] at hmem ⊢
    rcases mem_append.mp hmem with hold | hnew
    · exact .inl hold
    · exact .inr (lt_of_le_of_lt (Nat.le_max_left _ _) (hspans.key_mem hnew).1)
  | takeReady => exact absurd hmem not_mem_nil
  | advanceApplied _ => exact .inl hmem
  | requeueCommitted _ => exact .inr (mem_mergeReturned hmem)
  | adoptSnapshotBoundary _ _ => exact .inl (mem_queue_of_adopt hmem).1
  | compactLogUpTo index =>
    unfold DeliveryRun.queue DeliveryOp.perform at hmem
    rw [(queue_compactLogUpTo run.node index).1] at hmem
    exact .inl hmem

def ClearOfApplied (run : DeliveryRun S) : Prop :=
  ∀ entry ∈ run.queue, run.node.volatile.lastApplied < entry.index

theorem ClearOfApplied.perform (hclear : ClearOfApplied run)
    (hrun : Delivering run) (hop : op.Admissible run)
    (hgap : op.CommitsWithoutGap run) (hunqueued : op.AppliesUnqueued run) :
    ClearOfApplied (op.perform run) := by
  intro entry hmem
  obtain hold | habove := hrun.queued_above hop hgap hmem
  · have hlt := hclear entry hold
    cases op with
    | append _ | appendEntries _ _ _ => exact hlt
    | commit index =>
      obtain ⟨entries, -, hnode⟩ := hrun.collect hop.1 hop.2 hgap
      simp only [DeliveryOp.perform, hnode]
      exact hlt
    | takeReady => exact hlt
    | advanceApplied appliedTo => exact Nat.max_lt.mpr ⟨hlt, hunqueued entry hold⟩
    | requeueCommitted _ => exact hlt
    | adoptSnapshotBoundary _ _ => exact (mem_queue_of_adopt hmem).2 hlt
    | compactLogUpTo index =>
      unfold DeliveryOp.perform
      rw [(queue_compactLogUpTo run.node index).2]
      exact hlt
  · exact habove

/-! ## Runs of a restored node -/

theorem restore_delivering {config : RaftConfig} {storage : S} {now : Nat} {clock : Clock}
    {node : RaftNode S} (hstore : WellFormedStore storage)
    (hrestore : (RaftNode.new config storage now).restore clock = (.ok (), node)) :
    Delivering ⟨node, []⟩ ∧ ClearOfApplied ⟨node, []⟩ := by
  unfold restore at hrestore
  split at hrestore
  next => simp at hrestore
  next hardState _ =>
    dsimp only at hrestore
    split at hrestore
    next => simp at hrestore
    next applied _ =>
      split at hrestore
      next => simp at hrestore
      next log hlog =>
        simp only [Prod.mk.injEq, true_and] at hrestore
        subst hrestore
        have hshaped : log.Shaped := shaped_restore hstore hlog
        refine ⟨⟨hshaped.indexed, ⟨applied, applied, applied, ?_⟩, by simp⟩, ?_⟩
        · exact ⟨le_rfl, spans_nil _ _, spans_nil _ _, le_rfl, fun _ _ => rfl,
            fun hlt => absurd hlt (lt_irrefl _), fun _ hlt hle => absurd hle (not_le.mpr hlt),
            fun _ hlt hle => absurd hle (not_le.mpr hlt)⟩
        · exact fun entry hmem => absurd hmem not_mem_nil

/-- In every run of a restored node whose commit index stays while there is an
apply gap, each batch is an ascending interval, nothing past the watermark is
lost, and no operation queues an entry at or below the watermark.  Such an
entry is never in the queue as long as the watermark passes no queued entry. -/
theorem committed_delivered_of_run
    (config : RaftConfig) (storage : S) (now : Nat) (clock : Clock) (node : RaftNode S)
    (hstore : WellFormedStore storage)
    (hrestore : (RaftNode.new config storage now).restore clock = (.ok (), node))
    (ops : List DeliveryOp)
    (hrun : Along DeliveryOp.perform
      (fun run op => op.Admissible run ∧ op.CommitsWithoutGap run) ⟨node, []⟩ ops) :
    let run := ops.foldl DeliveryOp.perform ⟨node, []⟩
    (∀ batch ∈ run.readies, ∃ start, Contiguous LogEntry.index start batch) ∧
      (∀ index, run.node.volatile.lastApplied < index →
        index ≤ run.node.volatile.commitIndex →
        Delivered run.readies index ∨ ∃ entry ∈ run.queue, entry.index = index) ∧
      (∀ op : DeliveryOp, op.Admissible run → op.CommitsWithoutGap run →
        ∀ entry ∈ (op.perform run).queue, entry ∉ run.queue →
          (op.perform run).node.volatile.lastApplied < entry.index) ∧
      (Along DeliveryOp.perform (fun run op => op.AppliesUnqueued run) ⟨node, []⟩ ops →
        ∀ entry ∈ run.queue, run.node.volatile.lastApplied < entry.index) := by
  obtain ⟨hstart, hclear⟩ := restore_delivering hstore hrestore
  have hdelivering : Delivering (ops.foldl DeliveryOp.perform ⟨node, []⟩) :=
    invariant_foldl Delivering (fun _ _ hrun hop => hrun.perform hop.1 hop.2) hstart hrun
  obtain ⟨front, takenFrom, takenTo, hwindow⟩ := hdelivering.window
  refine ⟨hdelivering.readies_contiguous, fun index happlied hcommit =>
    hwindow.covered happlied hcommit, ?_, ?_⟩
  · intro op hop hgap entry hmem hnew
    exact (hdelivering.queued_above hop hgap hmem).resolve_left hnew
  · intro hunqueued
    refine (invariant_foldl (fun run => Delivering run ∧ ClearOfApplied run) ?_
      ⟨hstart, hclear⟩ (hrun.and hunqueued)).2
    intro run op hinv hop
    exact ⟨hinv.1.perform hop.1.1 hop.1.2,
      hinv.2.perform hinv.1 hop.1.1 hop.1.2 hop.2⟩

/-- A batch is returned in part, taken again and overtaken by a snapshot. -/
theorem committed_delivered_of_run_returned_batch :
    let node := ((RaftNode.new voterConfig MemStorage.new 0).restore ⟨0, 200⟩).2
    let ops : List DeliveryOp :=
      [.appendEntries 0 0 [⟨1, 1, []⟩, ⟨1, 2, []⟩, ⟨1, 3, []⟩], .commit 2, .takeReady,
        .advanceApplied 1, .requeueCommitted 1, .commit 3, .takeReady,
        .adoptSnapshotBoundary 2 1, .advanceApplied 3]
    let run := ops.foldl DeliveryOp.perform ⟨node, []⟩
    run.readies = [[⟨1, 1, []⟩, ⟨1, 2, []⟩], [⟨1, 2, []⟩, ⟨1, 3, []⟩]] ∧
      ∀ batch ∈ run.readies, ∃ start, Contiguous LogEntry.index start batch := by
  exact ⟨by decide, (committed_delivered_of_run voterConfig MemStorage.new 0 ⟨0, 200⟩ _
    MemStorage.new_wellFormed rfl _ (by decide)).1⟩

/-- A store that took the snapshot boundary 5 but not the applied index. -/
def gapStorage : MemStorage :=
  { entries := [⟨1, 6, []⟩, ⟨1, 7, []⟩, ⟨1, 8, []⟩]
    hardState := ⟨1, 0⟩
    snapshotIndex := 5
    snapshotTerm := 1
    appliedIndex := 2 }

theorem gapStorage_wellFormed : WellFormedStore gapStorage := by
  intro entries hload
  simp only [LogStorage.loadEntriesAfter, Except.ok.injEq] at hload
  subst hload
  decide

/-- The commit index reaches 8 while entries 3 to 5 are missing, and the
snapshot that supplies them leaves 6 to 8 neither delivered nor queued.  In a
second run a commit between a take and its apply queues entry 1 again, and the
watermark then passes it. -/
theorem committed_entry_not_delivered :
    (let node := ((RaftNode.new voterConfig gapStorage 0).restore ⟨0, 200⟩).2
      let ops : List DeliveryOp := [.commit 8, .adoptSnapshotBoundary 5 1, .takeReady]
      let run := ops.foldl DeliveryOp.perform ⟨node, []⟩
      WellFormedStore gapStorage ∧
        (RaftNode.new voterConfig gapStorage 0).restore ⟨0, 200⟩ = (.ok (), node) ∧
        Along DeliveryOp.perform (fun run op => op.Admissible run) ⟨node, []⟩ ops ∧
        ¬ ∀ index, run.node.volatile.lastApplied < index →
          index ≤ run.node.volatile.commitIndex → run.node.log.snapshotIndex < index →
          Delivered run.readies index ∨ ∃ entry ∈ run.queue, entry.index = index) ∧
      (let node := ((RaftNode.new voterConfig MemStorage.new 0).restore ⟨0, 200⟩).2
        let ops : List DeliveryOp :=
          [.appendEntries 0 0 [⟨1, 1, []⟩, ⟨1, 2, []⟩], .commit 1, .takeReady, .commit 2,
            .advanceApplied 1]
        let run := ops.foldl DeliveryOp.perform ⟨node, []⟩
        (new voterConfig MemStorage.new 0).restore ⟨0, 200⟩ = (.ok (), node) ∧
          Along DeliveryOp.perform (fun run op => op.Admissible run) ⟨node, []⟩ ops ∧
          ¬ ∀ entry ∈ run.queue, run.node.volatile.lastApplied < entry.index) := by
  refine ⟨⟨gapStorage_wellFormed, rfl, by decide, ?_⟩, rfl, by decide, by decide⟩
  intro hall
  exact absurd (hall 6 (by decide) (by decide) (by decide)) (by decide)

end NodeDB.Raft
