import NodeDB.LeaderLease
import NodeDB.RaftLog
import NodeDB.Ranking

/-!
# A Raft node and its internal transitions

The functions mutate one record.  Each takes the clock reading it would make
and, where it draws a fresh election timeout, the timeout drawn.
-/

namespace NodeDB.Raft

/-- The current instant and the next random election timeout. -/
structure Clock where
  now : Nat
  timeout : Nat
  deriving DecidableEq, Repr

structure LeaderContact where
  leaderCommit : Nat
  contactAt : Nat
  deriving DecidableEq, Repr

structure RaftNode (S : Type) where
  config : RaftConfig
  role : NodeRole
  hardState : HardState
  volatile : VolatileState
  leaderState : Option LeaderState
  log : RaftLog S
  electionDeadline : Nat
  heartbeatDeadline : Nat
  votesReceived : Finset Nat
  ready : Ready
  leaderId : Nat
  leadershipTransfer : Option LeadershipTransfer
  preVote : Option PreVoteRound
  durableApplied : Nat
  leaderContact : Option LeaderContact
  lastQuorumContact : Option Nat
  quorumWindow : List VoterAck
  leaderSince : Option Nat
  termStartIndex : Option Nat
  lease : LeaseState
  bootVoteFence : Nat
  replica : ReplicaState
  replicatedFloor : Nat

namespace RaftNode

variable {S : Type} [LogStorage S]

def new (config : RaftConfig) (storage : S) (now : Nat) : RaftNode S :=
  { config := config
    role :=
      if config.startsAsObserver then .observer
      else if config.startsAsLearner then .learner
      else .follower
    hardState := .new
    volatile := .new
    leaderState := none
    log := .new storage
    electionDeadline := now + config.electionTimeoutMax
    heartbeatDeadline := now
    votesReceived := ∅
    ready := .empty
    leaderId := 0
    leadershipTransfer := none
    preVote := none
    durableApplied := 0
    leaderContact := none
    lastQuorumContact := none
    quorumWindow := []
    leaderSince := none
    termStartIndex := none
    lease := .new
    bootVoteFence := now + config.electionTimeoutMax
    replica := .whole
    replicatedFloor := 0 }

def resetElectionTimeout (node : RaftNode S) (clock : Clock) : RaftNode S :=
  { node with electionDeadline := clock.now + clock.timeout }

def restore (node : RaftNode S) (clock : Clock) :
    Except RaftError Unit × RaftNode S :=
  match LogStorage.loadHardState node.log.storage with
  | .error e => (.error e, node)
  | .ok hardState =>
    let node := { node with hardState := hardState }
    match LogStorage.loadAppliedIndex node.log.storage with
    | .error e => (.error e, node)
    | .ok applied =>
      let node := { node with
        durableApplied := applied
        volatile := .restored applied }
      match node.log.restore with
      | (.error e, log) => (.error e, { node with log := log })
      | (.ok (), log) =>
        (.ok (), { node with log := log }.resetElectionTimeout clock)

def isLeader (node : RaftNode S) : Bool :=
  decide (node.role = .leader)

def isVoterRole (node : RaftNode S) : Bool :=
  match node.role with
  | .follower => true
  | .candidate => true
  | .leader => true
  | .learner => false
  | .observer => false

/-! ## Ready -/

def takeReady (node : RaftNode S) : Ready × RaftNode S :=
  (node.ready, { node with ready := .empty })

def persistHardState (node : RaftNode S) : RaftNode S :=
  { node with ready := { node.ready with hardState := some node.hardState } }

def persistHardStateIfDirty (node : RaftNode S) :
    Except RaftError Unit × RaftNode S :=
  match node.ready.hardState with
  | none => (.ok (), node)
  | some _ =>
    match LogStorage.saveHardState node.log.storage node.hardState with
    | (.error e, storage) =>
      (.error e, { node with log := { node.log with storage := storage } })
    | (.ok (), storage) =>
      (.ok (), { node with
        log := { node.log with storage := storage }
        ready := { node.ready with hardState := none } })

/-! ## Quorum contact and lease rounds -/

def voterAck (node : RaftNode S) (peer : Nat) : Option VoterAck :=
  node.quorumWindow.find? fun ack => decide (ack.peer = peer)

def armQuorumWindow (node : RaftNode S) (now : Nat) : RaftNode S :=
  { node with
    lastQuorumContact := some now
    leaderSince := some now
    quorumWindow := []
    lease := node.lease.beginTerm }

def voterHeardWithinWindow (node : RaftNode S) (peer now : Nat) : Bool :=
  let lastSeen :=
    match node.voterAck peer with
    | some ack => some ack.arrived
    | none => node.leaderSince
  match lastSeen with
  | none => false
  | some seen => decide (now - seen < node.config.electionTimeoutMax)

def refreshedContact (node : RaftNode S) (now : Nat) : Option Nat :=
  if node.role ≠ .leader then
    node.lastQuorumContact
  else
    let peersNeeded := node.config.quorum - 1
    if peersNeeded = 0 then
      some now
    else
      let arrivals := Ranking.descending (node.config.peers.filterMap fun peer =>
        (node.voterAck peer).map VoterAck.arrived)
      match arrivals[peersNeeded - 1]?, node.lastQuorumContact with
      | none, last => last
      | some contact, none => some contact
      | some contact, some last => some (if last < contact then contact else last)

def refreshQuorumContact (node : RaftNode S) (now : Nat) : RaftNode S :=
  { node with lastQuorumContact := node.refreshedContact now }

def quorumContactLost (node : RaftNode S) (now : Nat) : Bool :=
  node.isLeader &&
    match node.lastQuorumContact with
    | none => false
    | some last => decide (node.config.electionTimeoutMax ≤ now - last)

def stampLeaseRound (node : RaftNode S) (now : Nat) : Nat × RaftNode S :=
  let stamped := node.lease.stamp now
  (stamped.1, { node with lease := stamped.2 })

def raiseAck (peer round now : Nat) : List VoterAck → List VoterAck
  | [] => [⟨peer, round, now⟩]
  | ack :: rest =>
    if ack.peer = peer then
      { ack with round := max ack.round round, arrived := max ack.arrived now } :: rest
    else
      ack :: raiseAck peer round now rest

def recordLeaseAck (node : RaftNode S) (peer round now : Nat) : RaftNode S :=
  if node.lease.isCurrent round then
    { node with quorumWindow := raiseAck peer round now node.quorumWindow }
  else
    node

def ackedRound (node : RaftNode S) (peer : Nat) : Nat :=
  match node.voterAck peer with
  | none => untrackedRound
  | some ack => ack.round

/-- Settle the latest round that a quorum of the current voters has
acknowledged.  Returns the anchor. -/
def settleLease (node : RaftNode S) : Option Nat × RaftNode S :=
  let peersNeeded := node.config.quorum - 1
  if peersNeeded = 0 then
    (none, node)
  else
    let acked := Ranking.descending (node.config.peers.map node.ackedRound)
    match acked[peersNeeded - 1]? with
    | none => (none, node)
    | some quorumRound =>
      if quorumRound = untrackedRound then
        (node.lease.anchor, node)
      else
        let settled := node.lease.settle quorumRound
        (settled.1, { node with lease := settled.2 })

def replicatedFloorAt (node : RaftNode S) (now : Nat) : Nat :=
  match node.leaderState with
  | none => node.replicatedFloor
  | some leader =>
    let live := node.config.peers.filter fun peer =>
      node.voterHeardWithinWindow peer now
    let lowest := (live.map leader.matchIndexFor).min?
    let floor :=
      match lowest with
      | none => node.volatile.commitIndex
      | some matched => min matched node.volatile.commitIndex
    max node.replicatedFloor floor

/-! ## Replication -/

def maxAppendBatchBytes : Nat := 32 * 1024 * 1024

/-- The previous entry's term and the entries of a request that starts at
`nextIndex`; `none` when the peer needs a snapshot. -/
def batchFrom (node : RaftNode S) (nextIndex : Nat) :
    Option (Nat × List LogEntry) :=
  match node.log.termAt (nextIndex - 1) with
  | none => none
  | some prevLogTerm =>
    if nextIndex ≤ node.log.lastIndex then
      match node.log.entriesWithin nextIndex node.log.lastIndex maxAppendBatchBytes with
      | .ok entries => some (prevLogTerm, entries)
      | .error (.logCompacted _ _) => none
      | .error _ => some (prevLogTerm, [])
    else
      some (prevLogTerm, [])

def needSnapshot (node : RaftNode S) (peer : Nat) : RaftNode S :=
  { node with ready := { node.ready with
      snapshotsNeeded := node.ready.snapshotsNeeded ++ [peer] } }

def pushAppendEntries (node : RaftNode S) (now peer nextIndex prevLogTerm : Nat)
    (entries : List LogEntry) (round : Nat) : RaftNode S :=
  { node with ready := { node.ready with
      messages := node.ready.messages ++ [(peer, {
        term := node.hardState.currentTerm
        leaderId := node.config.nodeId
        prevLogIndex := nextIndex - 1
        prevLogTerm := prevLogTerm
        entries := entries
        leaderCommit := node.volatile.commitIndex
        round := round
        replicatedFloor := node.replicatedFloorAt now })] } }

def sendAppendEntries (node : RaftNode S) (now peer : Nat) : RaftNode S :=
  match node.leaderState with
  | none => node
  | some leader =>
    let nextIndex := leader.nextIndexFor peer
    match node.batchFrom nextIndex with
    | none => node.needSnapshot peer
    | some (prevLogTerm, entries) =>
      let stamped := node.stampLeaseRound now
      stamped.2.pushAppendEntries now peer nextIndex prevLogTerm entries stamped.1

/-- Send to an observer unless its queue is full.  Observer requests carry no
lease round. -/
def sendAppendEntriesToObserver (node : RaftNode S) (now observer : Nat) : RaftNode S :=
  match node.leaderState with
  | none => node
  | some leader =>
    match leader.observerState observer with
    | none => node
    | some state =>
      if leader.observerCanReceive observer = false then
        node
      else
        match node.batchFrom state.nextIndex with
        | none => node.needSnapshot observer
        | some (prevLogTerm, entries) =>
          let node := node.pushAppendEntries now observer state.nextIndex
            prevLogTerm entries untrackedRound
          { node with leaderState := some (leader.updateObserver observer fun state =>
              { state with
                pendingCount := min (state.pendingCount + max entries.length 1)
                  (2 ^ 32 - 1) }) }

def replicateToAll (node : RaftNode S) (now : Nat) : RaftNode S :=
  let node := (node.config.peers ++ node.config.learners).foldl
    (fun node peer => node.sendAppendEntries now peer) node
  node.config.observers.foldl
    (fun node observer => node.sendAppendEntriesToObserver now observer) node

/-! ## Commit -/

/-- Queue the committed entries that are neither applied nor queued. -/
def collectCommittedEntries (node : RaftNode S) : RaftNode S :=
  let queuedThrough :=
    (node.ready.committedEntries.getLast?.map LogEntry.index).getD 0
  let start := max node.volatile.lastApplied queuedThrough + 1
  let stop := node.volatile.commitIndex
  if stop < start then
    node
  else
    match node.log.entriesRange start stop with
    | .error e =>
      { node with ready := { node.ready with committedReadError := some e } }
    | .ok entries =>
      { node with ready := { node.ready with
          committedEntries := node.ready.committedEntries ++ entries } }

/-- Whether a quorum holds the entry at `index` of the current term. -/
def canCommit (node : RaftNode S) (leader : LeaderState) (index : Nat) : Bool :=
  decide (node.log.termAt index = some node.hardState.currentTerm) &&
    decide (node.config.quorum ≤
      (if index ≤ node.log.stableIndex then 1 else 0) +
        node.config.peers.countP fun peer => decide (index ≤ leader.matchIndexFor peer))

/-- Commit the largest index of the current term that a quorum holds. -/
def tryAdvanceCommitIndex (node : RaftNode S) : RaftNode S :=
  match node.leaderState with
  | none => node
  | some leader =>
    let last := node.log.lastIndex
    let indices := (List.range (last - node.volatile.commitIndex)).map fun back =>
      last - back
    match indices.find? (node.canCommit leader) with
    | none => node
    | some index =>
      { node with volatile := { node.volatile with commitIndex := index } }
        |>.collectCommittedEntries

/-! ## Role changes -/

def becomeFollower (node : RaftNode S) (clock : Clock) (term : Nat) : RaftNode S :=
  let role :=
    match node.role with
    | .learner => .learner
    | .observer => .observer
    | _ => .follower
  let votedFor :=
    if node.hardState.currentTerm < term then 0 else node.hardState.votedFor
  let node := { node with
    role := role
    hardState := ⟨term, votedFor⟩
    leaderId := 0
    leaderState := none
    votesReceived := ∅
    leadershipTransfer := none
    preVote := none
    lastQuorumContact := none
    quorumWindow := []
    leaderSince := none
    termStartIndex := none }
  node.persistHardState.resetElectionTimeout clock

/-- The progress a new leader keeps: its voters, learners and observers. -/
def newLeaderState (node : RaftNode S) : LeaderState :=
  let last := node.log.lastIndex
  node.config.learners.foldl (fun leader learner => leader.addPeer learner last)
    (LeaderState.new node.config.peers node.config.observers last)

/-- Take office: track the peers, append an empty entry of the term and
replicate. -/
def becomeLeader (node : RaftNode S) (now : Nat) : RaftNode S :=
  let noopIndex := node.log.lastIndex + 1
  let leading : RaftNode S := { node with
    role := .leader
    leaderId := node.config.nodeId
    leaderState := some node.newLeaderState }
  let armed := leading.armQuorumWindow now
  let started : RaftNode S := { armed with
    log := (armed.log.append ⟨armed.hardState.currentTerm, noopIndex, []⟩).2
    termStartIndex := some noopIndex }
  let counted :=
    if started.config.clusterSize = 1 then started.tryAdvanceCommitIndex else started
  counted.replicateToAll now

end RaftNode

end NodeDB.Raft
