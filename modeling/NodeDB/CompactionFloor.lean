import NodeDB.LeaderHint

/-!
# Compaction opens no apply gap

A compaction cuts the log at an index that is delivered and durably applied.
The entries above the cut and the term at it stay readable, and neither the
node nor a restart on its storage then misses an entry to apply.
-/

namespace NodeDB.Raft

open LogStorage

variable {S : Type} [LogStorage S]

/-- A boundary write, done or failed, leaves the old or the new boundary and
the applied index as it was. -/
def BoundaryWrites (S : Type) [LogStorage S] : Prop :=
  ∀ (storage : S) (index term : Nat),
    let written := (LogStorage.compact storage index term).2
    (LogStorage.snapshotMetadata written = LogStorage.snapshotMetadata storage ∨
        LogStorage.snapshotMetadata written = (index, term)) ∧
      LogStorage.loadAppliedIndex written = LogStorage.loadAppliedIndex storage

theorem MemStorage.boundaryWrites : BoundaryWrites MemStorage :=
  fun _ _ _ => ⟨.inr rfl, rfl⟩

theorem RaftLog.snapshotIndex_restore (log : RaftLog S) :
    log.restore.2.snapshotIndex = (LogStorage.snapshotMetadata log.storage).1 := by
  unfold restore
  dsimp only
  split
  next => rfl
  next => rfl

namespace RaftNode

/-- A restart on this storage finds every entry it has still to apply. -/
def Restarts (storage : S) : Prop :=
  ∀ config clock, (boot config storage clock).hasApplyGap = false

theorem restarts_of_le {storage : S} (hle : ∀ applied,
    LogStorage.loadAppliedIndex storage = .ok applied →
      (LogStorage.snapshotMetadata storage).1 ≤ applied) : Restarts storage := by
  intro config clock
  unfold boot restore
  split
  next => rfl
  next =>
    dsimp only
    split
    next => rfl
    next applied happlied =>
      have hboundary := (RaftLog.new storage).snapshotIndex_restore
      have hbelow := hle applied happlied
      split
      all_goals
        next hrestore =>
          have hrestore : (RaftLog.new storage).restore = _ := hrestore
          rw [hrestore] at hboundary
          rw [← show _ = (snapshotMetadata storage).1 from hboundary] at hbelow
          exact decide_eq_false (not_lt.mpr hbelow)

/-- What a compaction under a ceiling leaves of a node. -/
structure Compacted (node : RaftNode S) (ceiling : Option Nat) (next : RaftNode S) : Prop where
  durable : next.durableApplied = node.durableApplied
  volatile : next.volatile = node.volatile
  floor : next.log.snapshotIndex = node.log.snapshotIndex ∨
    next.log.snapshotIndex ≤ node.durableApplied ∧
      next.log.snapshotIndex ≤ node.volatile.lastApplied ∧
      ∀ bound ∈ ceiling, next.log.snapshotIndex ≤ bound
  term : next.log.termAt next.log.snapshotIndex = node.log.termAt next.log.snapshotIndex
  above : (next.log.entries.filter fun e => decide (next.log.snapshotIndex < e.index)) =
    node.log.entries.filter fun e => decide (next.log.snapshotIndex < e.index)
  stored : ∀ applied, LogStorage.loadAppliedIndex node.log.storage = .ok applied →
    (LogStorage.snapshotMetadata node.log.storage).1 ≤ applied →
      node.durableApplied ≤ applied → Restarts next.log.storage

theorem Compacted.refl (node : RaftNode S) (ceiling : Option Nat) :
    Compacted node ceiling node := by
  refine ⟨rfl, rfl, .inl rfl, rfl, rfl, fun applied hload hbelow _ => restarts_of_le ?_⟩
  intro loaded hloaded
  rw [hload, Except.ok.injEq] at hloaded
  rwa [← hloaded]

theorem compacted_compactLogUpTo (hwrites : BoundaryWrites S) (node : RaftNode S)
    {ceiling : Option Nat} {upToIndex : Nat} (hceiling : ∀ bound ∈ ceiling, upToIndex ≤ bound) :
    Compacted node ceiling (node.compactLogUpTo upToIndex).2 := by
  unfold compactLogUpTo
  split
  next => exact .refl node ceiling
  next hpast =>
    dsimp only
    split
    next => exact .refl node ceiling
    next hfloor =>
      split
      next => exact .refl node ceiling
      next term hterm =>
        obtain ⟨hboundary, happlied⟩ := hwrites node.log.storage upToIndex term
        have hrestarts : ∀ applied, loadAppliedIndex node.log.storage = .ok applied →
            (snapshotMetadata node.log.storage).1 ≤ applied →
              node.durableApplied ≤ applied →
                Restarts (compact node.log.storage upToIndex term).2 := by
          intro applied hload hbelow hdurable
          refine restarts_of_le fun loaded hloaded => ?_
          rw [happlied, hload, Except.ok.injEq] at hloaded
          obtain hboundary | hboundary := hboundary
          · rwa [hboundary, ← hloaded]
          · rw [hboundary]
            dsimp only
            omega
        unfold RaftLog.applySnapshot
        rw [if_neg hpast]
        rcases hwrite : compact node.log.storage upToIndex term with ⟨result, storage⟩
        rw [hwrite] at hrestarts
        cases result with
        | error e => exact ⟨rfl, rfl, .inl rfl, rfl, rfl, hrestarts⟩
        | ok _ =>
          refine ⟨rfl, rfl, .inr ⟨by dsimp only; omega, by dsimp only; omega, hceiling⟩, ?_, ?_,
            hrestarts⟩
          · rw [hterm]
            simp [RaftLog.termAt, show upToIndex ≠ 0 by omega]
          · simp [List.filter_filter]

theorem compacted_compactLogWithin (hwrites : BoundaryWrites S) (node : RaftNode S)
    (ceiling : Option Nat) (upToIndex : Nat) :
    Compacted node ceiling (node.compactLogWithin ceiling upToIndex).2 := by
  refine compacted_compactLogUpTo hwrites node ?_
  intro bound hbound
  rw [Option.mem_def.mp hbound]
  exact min_le_right _ _

theorem compacted_maybeCompactLog (hwrites : BoundaryWrites S) (node : RaftNode S)
    (ceiling threshold : Option Nat) (appliedIndex : Nat) :
    Compacted node ceiling (node.maybeCompactLog ceiling threshold appliedIndex).2 := by
  unfold maybeCompactLog
  repeat' split
  all_goals try exact .refl node ceiling
  exact compacted_compactLogWithin hwrites node ceiling _

omit [LogStorage S] in
theorem hasApplyGap_eq_false_iff (node : RaftNode S) :
    node.hasApplyGap = false ↔ node.log.snapshotIndex ≤ node.volatile.lastApplied := by
  simp [hasApplyGap]

end RaftNode

/-- A compaction moves the boundary at most to what is durably applied,
delivered and allowed, keeps the term there and the entries above, and opens
no gap in the node or in a restart. -/
theorem compaction_opens_no_gap (hwrites : BoundaryWrites S) (node : RaftNode S)
    (ceiling threshold : Option Nat) (index : Nat) (next : RaftNode S)
    (hnext : next ∈ [(node.compactLogWithin ceiling index).2,
      (node.maybeCompactLog ceiling threshold index).2]) :
    node.Compacted ceiling next ∧
      (node.hasApplyGap = false → next.hasApplyGap = false) ∧
      (LogStorage.loadAppliedIndex node.log.storage = .ok node.durableApplied →
        (LogStorage.snapshotMetadata node.log.storage).1 ≤ node.durableApplied →
          RaftNode.Restarts next.log.storage) := by
  have hcompacted : node.Compacted ceiling next := by
    simp only [List.mem_cons, List.not_mem_nil, or_false] at hnext
    obtain rfl | rfl := hnext
    · exact node.compacted_compactLogWithin hwrites ceiling index
    · exact node.compacted_maybeCompactLog hwrites ceiling threshold index
  refine ⟨hcompacted, fun hgap => ?_, fun hload hbelow => ?_⟩
  · rw [RaftNode.hasApplyGap_eq_false_iff] at hgap ⊢
    rw [hcompacted.volatile]
    obtain hsame | ⟨-, hdelivered, -⟩ := hcompacted.floor
    · rwa [hsame]
    · exact hdelivered
  · exact hcompacted.stored _ hload hbelow le_rfl

/-- A node that applied two of its three entries is compacted up to the
second. -/
theorem compaction_opens_no_gap_second_entry :
    let node := RaftNode.boot voterConfig { MemStorage.new with
      entries := [⟨1, 1, []⟩, ⟨1, 2, []⟩, ⟨1, 3, []⟩], appliedIndex := 2 } ⟨0, 200⟩
    let next := (node.compactLogWithin (some 5) 2).2
    next.log.snapshotIndex = 2 ∧ next.hasApplyGap = false ∧
      RaftNode.Restarts next.log.storage := by
  intro node next
  have hcompacted := compaction_opens_no_gap MemStorage.boundaryWrites node (some 5) none 2
    next List.mem_cons_self
  exact ⟨by decide, hcompacted.2.1 (by decide), hcompacted.2.2 (by decide) (by decide)⟩

/-- A node that crashed between the boundary and the applied index of a
snapshot keeps its boundary above what it applied. -/
theorem boundary_above_applied :
    let node := RaftNode.boot voterConfig { MemStorage.new with
      snapshotIndex := 5, snapshotTerm := 1, appliedIndex := 2 } ⟨0, 200⟩
    let next := (node.compactLogWithin (some 4) 3).2
    ¬ next.log.snapshotIndex ≤ next.durableApplied ∧ ¬ next.log.snapshotIndex ≤ 4 := by
  decide

end NodeDB.Raft
