import NodeDB.RaftNodeRpc

/-!
# Applied index, snapshot boundary and compaction

The delivery watermark `lastApplied` moves as entries are handed to the state
machine; the floor `durableApplied` moves once their effects are durable.
-/

namespace NodeDB.Raft
namespace RaftNode

variable {S : Type}

/-- Advance the delivery watermark after the caller applied entries. -/
def advanceApplied (node : RaftNode S) (appliedTo : Nat) : RaftNode S :=
  { node with volatile := { node.volatile with
      lastApplied := max node.volatile.lastApplied appliedTo } }

/-- What a returned batch and the queue become: the batch above the watermark,
then the queue above the batch. -/
def mergeReturned (applied : Nat) (batch queued : List LogEntry) : List LogEntry :=
  let merged := batch.filter fun entry => decide (applied < entry.index)
  let through := (merged.getLast?.map LogEntry.index).getD applied
  merged ++ queued.filter fun entry => decide (through < entry.index)

def requeueCommitted (node : RaftNode S) (batch : List LogEntry) : RaftNode S :=
  { node with ready := { node.ready with
      committedEntries :=
        mergeReturned node.volatile.lastApplied batch node.ready.committedEntries } }

variable [LogStorage S]

def saveDurableAppliedIndex (node : RaftNode S) (index : Nat) :
    Except RaftError Unit × RaftNode S :=
  if index ≤ node.durableApplied then
    (.ok (), node)
  else
    match LogStorage.saveAppliedIndex node.log.storage index with
    | (.error e, storage) =>
      (.error e, { node with log := { node.log with storage := storage } })
    | (.ok (), storage) =>
      (.ok (), { node with
        log := { node.log with storage := storage }
        durableApplied := index })

/-- Move the commit index, the watermark and the queue to a snapshot the state
machine holds. -/
def coverThrough (node : RaftNode S) (index : Nat) : RaftNode S :=
  let covered : RaftNode S := { node with
    volatile := {
      commitIndex := max node.volatile.commitIndex index
      lastApplied := max node.volatile.lastApplied index }
    ready := { node.ready with
      committedEntries := node.ready.committedEntries.filter fun entry =>
        decide (index < entry.index) } }
  { covered with ready := { covered.ready with
      committedReadError :=
        if covered.hasApplyGap then covered.ready.committedReadError else none } }

def adoptSnapshotBoundary (node : RaftNode S)
    (lastIncludedIndex lastIncludedTerm : Nat) :
    Except RaftError Unit × RaftNode S :=
  if lastIncludedIndex ≤ node.log.snapshotIndex ∧
      lastIncludedIndex ≤ node.volatile.lastApplied then
    (.ok (), node)
  else
    match node.log.applySnapshot lastIncludedIndex lastIncludedTerm with
    | (.error e, log) => (.error e, { node with log := log })
    | (.ok (), log) =>
      ({ node with log := log }.coverThrough lastIncludedIndex).saveDurableAppliedIndex
        lastIncludedIndex

/-- Take the sender of a snapshot for the leader. -/
def followSender (node : RaftNode S) (clock : Clock) (req : InstallSnapshotRequest) :
    RaftNode S :=
  let node :=
    if node.hardState.currentTerm < req.term then node.becomeFollower clock req.term
    else node
  { node.resetElectionTimeout clock with leaderId := req.leaderId }

/-- Take a chunk of a leader's snapshot.  The last one moves the boundary. -/
def handleInstallSnapshot (node : RaftNode S) (clock : Clock) (req : InstallSnapshotRequest) :
    Except RaftError InstallSnapshotResponse × RaftNode S :=
  if req.term < node.hardState.currentTerm then
    (.ok ⟨node.hardState.currentTerm⟩, node)
  else
    let node := node.followSender clock req
    if req.done then
      match node.adoptSnapshotBoundary req.lastIncludedIndex req.lastIncludedTerm with
      | (.error e, node) => (.error e, node)
      | (.ok (), node) => (.ok ⟨node.hardState.currentTerm⟩, node)
    else
      (.ok ⟨node.hardState.currentTerm⟩, node)

/-- Discard the log up to an index that is delivered and durably applied. -/
def compactLogUpTo (node : RaftNode S) (upToIndex : Nat) :
    Except RaftError Bool × RaftNode S :=
  if upToIndex ≤ node.log.snapshotIndex then
    (.ok false, node)
  else
    let ceiling := min node.durableApplied node.volatile.lastApplied
    if ceiling < upToIndex then
      (.error (.compactionAheadOfApplied upToIndex ceiling), node)
    else
      match node.log.termAt upToIndex with
      | none => (.error (.logCompacted upToIndex (node.log.snapshotIndex + 1)), node)
      | some term =>
        match node.log.applySnapshot upToIndex term with
        | (.error e, log) => (.error e, { node with log := log })
        | (.ok (), log) => (.ok true, { node with log := log })

/-- Compact no further than the ceiling set on this log allows. -/
def compactLogWithin (node : RaftNode S) (ceiling : Option Nat) (upToIndex : Nat) :
    Except RaftError Bool × RaftNode S :=
  node.compactLogUpTo (ceiling.elim upToIndex (min upToIndex))

/-- Compact once the entries retained below the applied index reach the
configured threshold. -/
def maybeCompactLog (node : RaftNode S) (ceiling threshold : Option Nat)
    (appliedIndex : Nat) : Except RaftError Bool × RaftNode S :=
  match threshold with
  | none => (.ok false, node)
  | some threshold =>
    if appliedIndex ≤ node.log.snapshotIndex then
      (.ok false, node)
    else if appliedIndex - node.log.snapshotIndex < threshold then
      (.ok false, node)
    else
      node.compactLogWithin ceiling
        (min (min appliedIndex node.durableApplied) node.volatile.lastApplied)

/-! ## What each operation can do -/

theorem saveDurableAppliedIndex_cases (node : RaftNode S) (index : Nat) :
    ∃ storage durable, (node.saveDurableAppliedIndex index).2 =
      { node with
        log := { node.log with storage := storage }
        durableApplied := durable } := by
  unfold saveDurableAppliedIndex
  split
  next => exact ⟨node.log.storage, node.durableApplied, rfl⟩
  next =>
    split
    next storage _ => exact ⟨storage, node.durableApplied, rfl⟩
    next storage _ => exact ⟨storage, index, rfl⟩

theorem adoptSnapshotBoundary_cases (node : RaftNode S) (index term : Nat) :
    (index ≤ node.volatile.lastApplied ∧
        (node.adoptSnapshotBoundary index term).2 = node) ∨
      (∃ storage, (node.adoptSnapshotBoundary index term).2 =
        { node with log := { node.log with storage := storage } }) ∨
      ∃ storage durable, (node.adoptSnapshotBoundary index term).2 =
        { { node with log := (node.log.applySnapshot index term).2 }.coverThrough index with
          log := { (node.log.applySnapshot index term).2 with storage := storage }
          durableApplied := durable } := by
  unfold adoptSnapshotBoundary
  split
  next hcovered => exact .inl ⟨hcovered.2, rfl⟩
  next hmoves =>
    split
    next e log hfail =>
      refine .inr (.inl ⟨log.storage, ?_⟩)
      unfold RaftLog.applySnapshot at hfail
      split at hfail
      next => simp at hfail
      next =>
        split at hfail
        next =>
          simp only [Prod.mk.injEq] at hfail
          rw [← hfail.2]
        next => simp at hfail
    next log hdone =>
      obtain ⟨storage, durable, hsave⟩ := saveDurableAppliedIndex_cases
        (({ node with log := log } : RaftNode S).coverThrough index) index
      rw [hsave, hdone]
      exact .inr (.inr ⟨storage, durable, rfl⟩)

theorem compactLogUpTo_cases (node : RaftNode S) (upToIndex : Nat) :
    (node.compactLogUpTo upToIndex).2 = node ∨
      ∃ term, upToIndex ≤ node.volatile.lastApplied ∧
        (node.compactLogUpTo upToIndex).2 =
          { node with log := (node.log.applySnapshot upToIndex term).2 } := by
  unfold compactLogUpTo
  split
  next => exact .inl rfl
  next =>
    dsimp only
    split
    next => exact .inl rfl
    next hbelow =>
      split
      next => exact .inl rfl
      next term _ =>
        refine .inr ⟨term, by omega, ?_⟩
        split
        next hsnap => rw [hsnap]
        next hsnap => rw [hsnap]

end RaftNode
end NodeDB.Raft
