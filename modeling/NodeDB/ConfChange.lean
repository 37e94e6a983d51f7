import NodeDB.RaftNodeFrame

/-!
# Configuration changes

A node's configuration lists voters and learners.  A leader adjusts the
progress it tracks together with the configuration.

A change enters the leader's log as an ordinary entry, after the leader's
check.  Every replica applies it to its own configuration when the entry
commits.
-/

namespace NodeDB.Raft
namespace RaftNode

variable {S : Type} [LogStorage S]

/-- Replace the voter peers.  The lease anchor was justified for the old
voters and is withdrawn. -/
def setVoters (node : RaftNode S) (newVoters : List Nat) : RaftNode S :=
  let last := node.log.lastIndex
  let isLearner := fun peer => decide (peer ∈ node.config.learners)
  let joined := newVoters.filter fun peer =>
    !decide (peer ∈ node.config.peers) && !isLearner peer
  let left := node.config.peers.filter fun peer =>
    !decide (peer ∈ newVoters) && !isLearner peer
  let leaderState := node.leaderState.map fun leader =>
    left.foldl (fun leader peer => leader.removePeer peer)
      (joined.foldl (fun leader peer => leader.addPeer peer last) leader)
  { node with
    leaderState := leaderState
    config := { node.config with peers := newVoters }
    lease := node.lease.clearAnchor }

def tracks (node : RaftNode S) (peer : Nat) : Bool :=
  decide (peer = node.config.nodeId) || decide (peer ∈ node.config.peers) ||
    decide (peer ∈ node.config.learners)

def addPeer (node : RaftNode S) (peer : Nat) : RaftNode S :=
  if node.tracks peer then node
  else node.setVoters (node.config.peers ++ [peer])

def removePeer (node : RaftNode S) (peer : Nat) : RaftNode S :=
  if peer ∈ node.config.peers then
    node.setVoters (node.config.peers.filter fun id => decide (id ≠ peer))
  else
    node

def addLearner (node : RaftNode S) (peer : Nat) : RaftNode S :=
  if node.tracks peer then
    node
  else
    { node with
      leaderState := node.leaderState.map fun leader =>
        leader.addPeer peer node.log.lastIndex
      config := { node.config with learners := node.config.learners ++ [peer] } }

def removeLearner (node : RaftNode S) (peer : Nat) : RaftNode S :=
  if peer ∈ node.config.learners then
    { node with
      leaderState := node.leaderState.map fun leader => leader.removePeer peer
      config := { node.config with
        learners := node.config.learners.filter fun id => decide (id ≠ peer) } }
  else
    node

/-- Turn a learner into a voter.  The leader keeps the progress it tracked
for the learner. -/
def promoteLearner (node : RaftNode S) (peer : Nat) : Bool × RaftNode S :=
  if peer ∈ node.config.learners then
    (true, { node with config := { node.config with
      learners := node.config.learners.filter fun id => decide (id ≠ peer)
      peers :=
        if peer ∈ node.config.peers then node.config.peers
        else node.config.peers ++ [peer] } })
  else
    (false, node)

def promoteSelfToVoter (node : RaftNode S) : RaftNode S :=
  if node.role = .learner then
    { node with
      role := .follower
      config := { node.config with startsAsLearner := false } }
  else
    node

end RaftNode

end NodeDB.Raft

namespace NodeDB.MultiRaft

open Raft

inductive ConfChangeType where
  | addNode
  | removeNode
  | addLearner
  | promoteLearner
  | removeLearner
  deriving DecidableEq, Repr

structure ConfChange where
  changeType : ConfChangeType
  nodeId : Nat
  deriving DecidableEq, Repr

def confChangePrefix : UInt8 := 0xC1

inductive ClusterError where
  | learnerNotCaughtUp (groupId nodeId matchIndex commitIndex : Nat)
  | raft (error : RaftError)
  deriving DecidableEq, Repr

variable {S : Type}

def peerReplicaState (node : RaftNode S) (peer : Nat) : Option ReplicaState :=
  node.leaderState.bind fun leader => leader.peerStates.lookup peer

def peerAnsweredWhole (node : RaftNode S) (peer : Nat) : Bool :=
  decide (peerReplicaState node peer = some .whole)

def matchIndexFor (node : RaftNode S) (peer : Nat) : Option Nat :=
  node.leaderState.map fun leader => leader.matchIndexFor peer

def peerCaughtUp (node : RaftNode S) (peer : Nat) : Bool :=
  node.isLeader &&
    decide (node.volatile.commitIndex ≤ (matchIndexFor node peer).getD 0) &&
    peerAnsweredWhole node peer

/-- Whether a voter other than `removed` is known to be able to lead. -/
def wholeVoterStays (node : RaftNode S) (removed : Nat) : Bool :=
  ((node.config.nodeId :: node.config.peers).filter fun voter =>
    decide (voter ≠ removed)).any fun voter =>
      if voter = node.config.nodeId then
        node.replica.mayLead
      else
        match peerReplicaState node voter with
        | none => false
        | some state => state.mayLead

def admitConfChange (node : RaftNode S) (groupId : Nat) (change : ConfChange) :
    Except ClusterError Unit :=
  if node.role ≠ .leader then
    .ok ()
  else
    match change.changeType with
    | .promoteLearner =>
      if peerCaughtUp node change.nodeId then
        .ok ()
      else
        .error (.learnerNotCaughtUp groupId change.nodeId
          ((matchIndexFor node change.nodeId).getD 0) node.volatile.commitIndex)
    | .removeNode =>
      if wholeVoterStays node change.nodeId then
        .ok ()
      else
        .error (.raft (.proposalRejected
          (s!"removing voter {change.nodeId} from group {groupId} leaves no voter that " ++
            "may lead; every other voter is unheard this term or its data diverged; " ++
            "retry once another voter answers that it may lead")))
    | .addNode | .addLearner | .removeLearner => .ok ()

/-- Tell a departing peer of its removal while it is still tracked. -/
def notifyRemovedPeer (node : RaftNode S) (now peer : Nat) : RaftNode S :=
  if node.role ≠ .leader ∨
      (peer ∉ node.config.peers ∧ peer ∉ node.config.learners) then
    node
  else
    node.sendAppendEntries now peer

def applyConfChange (node : RaftNode S) (now : Nat) (change : ConfChange) : RaftNode S :=
  match change.changeType with
  | .addNode => node.addPeer change.nodeId
  | .removeNode => (notifyRemovedPeer node now change.nodeId).removePeer change.nodeId
  | .addLearner => node.addLearner change.nodeId
  | .promoteLearner =>
    if change.nodeId = node.config.nodeId then
      node.promoteSelfToVoter
    else
      (node.promoteLearner change.nodeId).2
  | .removeLearner => (notifyRemovedPeer node now change.nodeId).removeLearner change.nodeId

variable [LogStorage S]

/-- Propose a change.  `payload` is its encoding.  A change that commits
inside the proposal is applied at once. -/
def proposeConfChange (node : RaftNode S) (groupId now : Nat) (change : ConfChange)
    (payload : List UInt8) : Except ClusterError Nat × RaftNode S :=
  match admitConfChange node groupId change with
  | .error e => (.error e, node)
  | .ok () =>
    match node.propose now (confChangePrefix :: payload) with
    | (.error e, node) => (.error (.raft e), node)
    | (.ok index, node) =>
      (.ok index,
        if index ≤ node.volatile.commitIndex then applyConfChange node now change
        else node)

end NodeDB.MultiRaft
