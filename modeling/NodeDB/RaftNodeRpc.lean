import NodeDB.RaftNode

/-!
# Elections, requests and responses of a Raft node

Timeouts, votes, replication requests, their answers, proposals and the
membership operations.
-/

namespace NodeDB.Raft
namespace RaftNode

variable {S : Type} [LogStorage S]

/-! ## Elections -/

def startElection (node : RaftNode S) (clock : Clock) : RaftNode S :=
  if node.isVoterRole = false ∨ node.replica.mayLead = false then
    node
  else
    let candidate : RaftNode S := { node with
      preVote := none
      hardState := ⟨node.hardState.currentTerm + 1, node.config.nodeId⟩
      role := .candidate
      votesReceived := ∅
      leaderId := 0 }
    let candidate := candidate.persistHardState.resetElectionTimeout clock
    if candidate.config.peers.isEmpty then
      candidate.becomeLeader clock.now
    else
      { candidate with ready := { candidate.ready with
          voteRequests := candidate.ready.voteRequests ++
            candidate.config.peers.map fun peer => (peer, {
              term := candidate.hardState.currentTerm
              candidateId := candidate.config.nodeId
              lastLogIndex := candidate.log.lastIndex
              lastLogTerm := candidate.log.lastTerm
              transfer := false }) } }

/-- Probe the voters before raising the term.  A sole voter starts its
election at once. -/
def startPreElection (node : RaftNode S) (clock : Clock) : RaftNode S :=
  if node.isVoterRole = false ∨ node.replica.mayLead = false then
    node
  else if node.config.peers.isEmpty then
    node.startElection clock
  else
    let node := node.resetElectionTimeout clock
    let term := node.hardState.currentTerm + 1
    { node with
      preVote := some ⟨term, ∅⟩
      ready := { node.ready with
        preVoteRequests := node.ready.preVoteRequests ++
          node.config.peers.map fun peer => (peer, {
            term := term
            candidateId := node.config.nodeId
            lastLogIndex := node.log.lastIndex
            lastLogTerm := node.log.lastTerm }) } }

/-- Whether a live leader or a recent start forbids granting votes. -/
def voteRefusalActive (node : RaftNode S) (now : Nat) : Bool :=
  decide (now < node.bootVoteFence) ||
    match node.leaderContact with
    | none => false
    | some contact => decide (now - contact.contactAt < node.config.electionTimeoutMin)

/-- Whether a candidate's log is at least as up to date as this one. -/
def logUpToDate (node : RaftNode S) (lastLogTerm lastLogIndex : Nat) : Bool :=
  decide (node.log.lastTerm < lastLogTerm) ||
    (decide (lastLogTerm = node.log.lastTerm) && decide (node.log.lastIndex ≤ lastLogIndex))

def handleRequestVote (node : RaftNode S) (clock : Clock) (req : RequestVoteRequest) :
    RequestVoteResponse × RaftNode S :=
  if node.isVoterRole && !req.transfer && node.voteRefusalActive clock.now then
    (⟨node.hardState.currentTerm, false⟩, node)
  else
    let node :=
      if node.hardState.currentTerm < req.term then node.becomeFollower clock req.term
      else node
    if req.term < node.hardState.currentTerm then
      (⟨node.hardState.currentTerm, false⟩, node)
    else if node.isVoterRole = false then
      (⟨node.hardState.currentTerm, false⟩, node)
    else
      let votedFor := node.hardState.votedFor
      if (votedFor = 0 ∨ votedFor = req.candidateId) ∧
          node.logUpToDate req.lastLogTerm req.lastLogIndex then
        let voted : RaftNode S := { node with
          hardState := { node.hardState with votedFor := req.candidateId } }
        (⟨node.hardState.currentTerm, true⟩,
          voted.persistHardState.resetElectionTimeout clock)
      else
        (⟨node.hardState.currentTerm, false⟩, node)

def handleRequestVoteResponse (node : RaftNode S) (clock : Clock) (peer : Nat)
    (resp : RequestVoteResponse) : RaftNode S :=
  if node.hardState.currentTerm < resp.term then
    node.becomeFollower clock resp.term
  else if resp.term < node.hardState.currentTerm then
    node
  else if node.role ≠ .candidate then
    node
  else if resp.voteGranted then
    let node := { node with votesReceived := insert peer node.votesReceived }
    if node.config.quorum ≤ node.votesReceived.card + 1 then
      node.becomeLeader clock.now
    else
      node
  else
    node

def handlePreVote (node : RaftNode S) (clock : Clock) (req : PreVoteRequest) :
    PreVoteResponse :=
  let granted :=
    match node.role with
    | .leader => false
    | .learner => false
    | .observer => false
    | _ =>
      decide (node.hardState.currentTerm < req.term) &&
        !node.voteRefusalActive clock.now &&
        node.logUpToDate req.lastLogTerm req.lastLogIndex
  ⟨node.hardState.currentTerm, granted⟩

def handlePreVoteResponse (node : RaftNode S) (clock : Clock) (peer : Nat)
    (resp : PreVoteResponse) : RaftNode S :=
  if node.hardState.currentTerm < resp.term then
    node.becomeFollower clock resp.term
  else if node.role = .leader then
    node
  else
    match node.preVote with
    | none => node
    | some round =>
      if round.term ≠ node.hardState.currentTerm + 1 then
        { node with preVote := none }
      else if resp.voteGranted = false then
        node
      else
        let granted := insert peer round.granted
        if node.config.quorum ≤ granted.card + 1 then
          { node with preVote := none }.startElection clock
        else
          { node with preVote := some { round with granted := granted } }

/-- A leader handing over asks its successor to start an election now.  The
vote requests of that election are marked as a transfer. -/
def handleTimeoutNow (node : RaftNode S) (clock : Clock) (req : TimeoutNowRequest) :
    RaftNode S :=
  if node.role = .follower ∧ req.term = node.hardState.currentTerm ∧
      req.leaderId = node.leaderId then
    let node := node.startElection clock
    { node with ready := { node.ready with
        voteRequests := node.ready.voteRequests.map fun (peer, vote) =>
          (peer, if vote.term = node.hardState.currentTerm then
            { vote with transfer := true } else vote) } }
  else
    node

/-! ## Leadership transfer -/

def tryEmitTimeoutNow (node : RaftNode S) : RaftNode S :=
  match node.leadershipTransfer with
  | none => node
  | some transfer =>
    if transfer.emitted then
      node
    else if (node.leaderState.map fun leader => leader.matchIndexFor transfer.target) ≠
        some node.log.lastIndex then
      node
    else
      { node with
        ready := { node.ready with
          timeoutNow := node.ready.timeoutNow ++
            [(transfer.target, ⟨node.hardState.currentTerm, node.config.nodeId⟩)] }
        leadershipTransfer := some { transfer with emitted := true } }

def notLeaderError (node : RaftNode S) : RaftError :=
  .notLeader (if node.leaderId = 0 then none else some node.leaderId)
    node.hardState.currentTerm

def transferLeadership (node : RaftNode S) (now target : Nat) :
    Except RaftError Unit × RaftNode S :=
  if node.role ≠ .leader then
    (.error node.notLeaderError, node)
  else if target = node.config.nodeId ∨ target ∉ node.config.peers then
    (.error (.invalidTransferTarget target), node)
  else if node.leadershipTransfer.isSome then
    (.ok (), node)
  else
    let node : RaftNode S := { node with
      leadershipTransfer := some ⟨target, false, now + node.config.electionTimeoutMax⟩
      lease := node.lease.revoke }
    (.ok (), node.tryEmitTimeoutNow)

/-! ## Replication requests -/

def hasApplyGap (node : RaftNode S) : Bool :=
  decide (node.volatile.lastApplied < node.log.snapshotIndex)

def appendReply (node : RaftNode S) (req : AppendEntriesRequest) (success : Bool)
    (lastLogIndex : Nat) : AppendEntriesResponse :=
  { term := node.hardState.currentTerm
    success := success
    lastLogIndex := lastLogIndex
    round := req.round
    replica := node.replica }

def acceptLeader (node : RaftNode S) (clock : Clock) (req : AppendEntriesRequest) :
    RaftNode S :=
  let node :=
    if node.hardState.currentTerm < req.term ∨ node.role = .candidate ∨
        (node.role = .leader ∧ req.leaderId ≠ node.config.nodeId) then
      node.becomeFollower clock req.term
    else
      node
  { (node.resetElectionTimeout clock) with
    leaderId := req.leaderId
    replicatedFloor := max node.replicatedFloor req.replicatedFloor
    leaderContact := some ⟨req.leaderCommit, clock.now⟩ }

/-- Move the commit index up to the leader's, as far as this log is known to
match. -/
def followCommit (node : RaftNode S) (req : AppendEntriesRequest) : RaftNode S :=
  let commit := min req.leaderCommit (RaftLog.matchedIndex req.prevLogIndex req.entries)
  if node.volatile.commitIndex < commit then
    { node with volatile := { node.volatile with commitIndex := commit } }
      |>.collectCommittedEntries
  else
    node

def handleAppendEntries (node : RaftNode S) (clock : Clock) (req : AppendEntriesRequest) :
    AppendEntriesResponse × RaftNode S :=
  if req.term < node.hardState.currentTerm then
    (node.appendReply req false node.log.lastIndex, node)
  else
    let node := node.acceptLeader clock req
    if node.replica.wantsASnapshot then
      (node.appendReply req false node.log.lastIndex, node)
    else if node.hasApplyGap then
      (node.appendReply req false node.volatile.lastApplied, node)
    else if 0 < req.prevLogIndex ∧
        node.log.termAt req.prevLogIndex ≠ some req.prevLogTerm then
      (node.appendReply req false node.log.lastIndex, node)
    else
      match node.log.appendEntries req.entries with
      | (.error _, log) =>
        let node := { node with log := log }
        (node.appendReply req false node.log.lastIndex, node)
      | (.ok wrote, log) =>
        let node := { node with log := log }.followCommit req
        let matched := RaftLog.matchedIndex req.prevLogIndex req.entries
        (node.appendReply req true (node.log.claimableMatch matched wrote), node)

/-! ## Replication answers -/

/-- The next index after a rejection: never above the rejected one, never at
or below what the peer is known to hold. -/
def backOff (current lastLogIndex matched : Nat) : Nat :=
  let backedOff :=
    if lastLogIndex + 1 < current then lastLogIndex + 1 else current - 1
  max (max backedOff (matched + 1)) 1

def handleObserverResponse (node : RaftNode S) (now observer : Nat)
    (resp : AppendEntriesResponse) : RaftNode S :=
  match node.leaderState with
  | none => node
  | some leader =>
    if resp.success then
      { node with leaderState := some (leader.updateObserver observer fun state =>
          let state :=
            if state.matchIndex < resp.lastLogIndex then
              { state with
                matchIndex := resp.lastLogIndex
                nextIndex := resp.lastLogIndex + 1 }
            else
              state
          { state with pendingCount := state.pendingCount - 1 }) }
    else
      let node : RaftNode S := { node with
        leaderState := some (leader.updateObserver observer fun state =>
          { state with
            nextIndex := backOff state.nextIndex resp.lastLogIndex state.matchIndex
            pendingCount := state.pendingCount - 1 }) }
      node.sendAppendEntriesToObserver now observer

/-- Count an answer of a peer: for the read index, and for a voter also for
the lease and the quorum contact. -/
def countAnswer (node : RaftNode S) (now peer : Nat) (resp : AppendEntriesResponse) :
    RaftNode S :=
  match node.leaderState with
  | none => node
  | some leader =>
    let node : RaftNode S := { node with leaderState := some (leader.recordAck peer) }
    let node :=
      if peer ∈ node.config.peers then
        ((node.recordLeaseAck peer resp.round now).settleLease).2.refreshQuorumContact now
      else
        node
    { node with leaderState := node.leaderState.map fun leader =>
        leader.setPeerState peer resp.replica }

/-- Follow a counted answer: raise what the peer holds, or back off and
retry. -/
def followAnswer (node : RaftNode S) (now peer : Nat) (resp : AppendEntriesResponse) :
    RaftNode S :=
  match node.leaderState with
  | none => node
  | some leader =>
    if resp.success then
      let leader :=
        if leader.matchIndexFor peer < resp.lastLogIndex then
          (leader.setMatchIndex peer resp.lastLogIndex).setNextIndex peer
            (resp.lastLogIndex + 1)
        else
          leader
      let node : RaftNode S := { node with leaderState := some leader }
      if peer ∈ node.config.peers then
        let node := node.tryAdvanceCommitIndex
        { node with replicatedFloor := node.replicatedFloorAt now }
      else
        node
    else if resp.replica.wantsASnapshot then
      if peer ∈ node.ready.snapshotsNeeded then node else node.needSnapshot peer
    else
      let next := backOff (leader.nextIndexFor peer) resp.lastLogIndex
        (leader.matchIndexFor peer)
      { node with leaderState := some (leader.setNextIndex peer next) }
        |>.sendAppendEntries now peer

def handleAppendEntriesResponse (node : RaftNode S) (clock : Clock) (peer : Nat)
    (resp : AppendEntriesResponse) : RaftNode S :=
  if node.hardState.currentTerm < resp.term then
    node.becomeFollower clock resp.term
  else if resp.term < node.hardState.currentTerm then
    node
  else if node.role ≠ .leader then
    node
  else if peer ∈ node.config.observers then
    node.handleObserverResponse clock.now peer resp
  else if node.leaderState.isNone then
    node
  else
    ((node.countAnswer clock.now peer resp).followAnswer clock.now peer resp).tryEmitTimeoutNow

/-! ## Ticks, storage progress and proposals -/

def onStorageProgress (node : RaftNode S) : RaftNode S :=
  if node.leaderState.isSome then node.tryAdvanceCommitIndex else node

def tickLeader (node : RaftNode S) (clock : Clock) : RaftNode S :=
  let node : RaftNode S := { node with
    leadershipTransfer := node.leadershipTransfer.filter fun transfer =>
      decide (clock.now < transfer.deadline) }
  let node := node.refreshQuorumContact clock.now
  if node.quorumContactLost clock.now then
    node.becomeFollower clock node.hardState.currentTerm
  else if node.heartbeatDeadline ≤ clock.now then
    { node.replicateToAll clock.now with
      heartbeatDeadline := clock.now + node.config.heartbeatInterval }
  else
    node

def tick (node : RaftNode S) (clock : Clock) : RaftNode S :=
  match node.role with
  | .follower | .candidate =>
    if node.electionDeadline ≤ clock.now then node.startPreElection clock else node
  | .leader => node.tickLeader clock
  | .learner | .observer => node

def propose (node : RaftNode S) (now : Nat) (data : List UInt8) :
    Except RaftError Nat × RaftNode S :=
  if node.role ≠ .leader then
    (.error node.notLeaderError, node)
  else if node.leadershipTransfer.isSome then
    (.error .leadershipTransferInProgress, node)
  else
    let index := node.log.lastIndex + 1
    match node.log.append ⟨node.hardState.currentTerm, index, data⟩ with
    | (.error e, log) => (.error e, { node with log := log })
    | (.ok (), log) =>
      let node := { node with log := log }.replicateToAll now
      (.ok index,
        if node.config.clusterSize = 1 then node.tryAdvanceCommitIndex else node)

omit [LogStorage S] in
/-- A pre-vote says of a newer term what the vote would say, and a leader grants none. -/
theorem handlePreVote_granted (node : RaftNode S) (clock : Clock) (req : PreVoteRequest) :
    (node.handlePreVote clock req).voteGranted =
      (!node.isLeader && decide (node.hardState.currentTerm < req.term) &&
        (node.handleRequestVote clock ⟨req.term, req.candidateId, req.lastLogIndex,
          req.lastLogTerm, false⟩).1.voteGranted) := by
  unfold handlePreVote handleRequestVote isLeader isVoterRole
  by_cases hterm : node.hardState.currentTerm < req.term
  · cases hrole : node.role <;> cases hrefused : node.voteRefusalActive clock.now <;>
      simp [hterm, hrole, becomeFollower, persistHardState, resetElectionTimeout, logUpToDate]
    all_goals split <;> simp_all
  · cases hrole : node.role <;> simp [hterm]

end RaftNode

end NodeDB.Raft
