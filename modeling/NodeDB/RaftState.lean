import NodeDB.RaftMessage
import Mathlib.Tactic

/-!
# State of one Raft replica

Roles, configuration, volatile state and the progress a leader keeps for its
peers.  Instants and durations are natural numbers on one clock; the sets of
votes are finite sets of node identifiers.
-/

namespace NodeDB.Raft

inductive NodeRole where
  | follower
  | candidate
  | leader
  | learner
  | observer
  deriving DecidableEq, Repr

namespace ReplicaState

def wantsASnapshot : ReplicaState → Bool
  | whole => false
  | wantsSnapshot => true
  | awaitingSnapshot => true

def mayLead : ReplicaState → Bool
  | whole => true
  | wantsSnapshot => true
  | awaitingSnapshot => false

end ReplicaState

/-- Configuration of one node of a group.  `peers` are the other voters. -/
structure RaftConfig where
  nodeId : Nat
  peers : List Nat
  learners : List Nat
  observers : List Nat
  startsAsLearner : Bool
  startsAsObserver : Bool
  electionTimeoutMin : Nat
  electionTimeoutMax : Nat
  heartbeatInterval : Nat
  deriving DecidableEq, Repr

namespace RaftConfig

def clusterSize (config : RaftConfig) : Nat :=
  config.peers.length + 1

def quorum (config : RaftConfig) : Nat :=
  config.clusterSize / 2 + 1

end RaftConfig

/-- The first voter of a group of three. -/
def voterConfig : RaftConfig :=
  { nodeId := 1
    peers := [2, 3]
    learners := []
    observers := []
    startsAsLearner := false
    startsAsObserver := false
    electionTimeoutMin := 150
    electionTimeoutMax := 300
    heartbeatInterval := 50 }

structure VolatileState where
  commitIndex : Nat
  lastApplied : Nat
  deriving DecidableEq, Repr

namespace VolatileState

def new : VolatileState := ⟨0, 0⟩

def restored (appliedIndex : Nat) : VolatileState :=
  ⟨appliedIndex, appliedIndex⟩

end VolatileState

structure LeadershipTransfer where
  target : Nat
  emitted : Bool
  deadline : Nat
  deriving DecidableEq, Repr

/-- A pre-vote round in progress for the hypothetical `term`. -/
structure PreVoteRound where
  term : Nat
  granted : Finset Nat
  deriving DecidableEq

structure ObserverState where
  nextIndex : Nat
  matchIndex : Nat
  pendingCount : Nat
  deriving DecidableEq, Repr

namespace ObserverState

def maxPending : Nat := 256

end ObserverState

/-! ## Per-peer tables -/

def updateFirst {α : Type} (id : Nat) (change : α → α) :
    List (Nat × α) → List (Nat × α)
  | [] => []
  | pair :: rest =>
    if pair.1 = id then (pair.1, change pair.2) :: rest
    else pair :: updateFirst id change rest

def withoutId {α : Type} (id : Nat) (pairs : List (Nat × α)) : List (Nat × α) :=
  pairs.filter fun pair => decide (pair.1 ≠ id)

structure LeaderState where
  nextIndex : List (Nat × Nat)
  matchIndex : List (Nat × Nat)
  observerStates : List (Nat × ObserverState)
  ackCount : List (Nat × Nat)
  peerStates : List (Nat × ReplicaState)
  deriving DecidableEq, Repr

namespace LeaderState

def new (peers observers : List Nat) (lastLogIndex : Nat) : LeaderState :=
  { nextIndex := peers.map fun id => (id, lastLogIndex + 1)
    matchIndex := peers.map fun id => (id, 0)
    observerStates := observers.map fun id => (id, ⟨lastLogIndex + 1, 0, 0⟩)
    ackCount := peers.map fun id => (id, 0)
    peerStates := [] }

def nextIndexFor (leader : LeaderState) (peer : Nat) : Nat :=
  (leader.nextIndex.lookup peer).getD 1

def setNextIndex (leader : LeaderState) (peer index : Nat) : LeaderState :=
  { leader with nextIndex := updateFirst peer (fun _ => index) leader.nextIndex }

def matchIndexFor (leader : LeaderState) (peer : Nat) : Nat :=
  (leader.matchIndex.lookup peer).getD 0

def setMatchIndex (leader : LeaderState) (peer index : Nat) : LeaderState :=
  { leader with matchIndex := updateFirst peer (fun _ => index) leader.matchIndex }

def addPeer (leader : LeaderState) (peer lastLogIndex : Nat) : LeaderState :=
  if leader.nextIndex.any fun pair => decide (pair.1 = peer) then
    leader
  else
    { leader with
      nextIndex := leader.nextIndex ++ [(peer, lastLogIndex + 1)]
      matchIndex := leader.matchIndex ++ [(peer, 0)]
      ackCount := leader.ackCount ++ [(peer, 0)] }

def removePeer (leader : LeaderState) (peer : Nat) : LeaderState :=
  { leader with
    nextIndex := withoutId peer leader.nextIndex
    matchIndex := withoutId peer leader.matchIndex
    ackCount := withoutId peer leader.ackCount
    peerStates := withoutId peer leader.peerStates }

/-- Count one response.  The counter saturates at the largest 64-bit
value. -/
def recordAck (leader : LeaderState) (peer : Nat) : LeaderState :=
  { leader with
    ackCount := updateFirst peer (fun count => min (count + 1) (2 ^ 64 - 1))
      leader.ackCount }

def setPeerState (leader : LeaderState) (peer : Nat) (replica : ReplicaState) :
    LeaderState :=
  { leader with peerStates := (peer, replica) :: withoutId peer leader.peerStates }

def observerState (leader : LeaderState) (observer : Nat) : Option ObserverState :=
  leader.observerStates.lookup observer

def updateObserver (leader : LeaderState) (observer : Nat)
    (change : ObserverState → ObserverState) : LeaderState :=
  { leader with observerStates := updateFirst observer change leader.observerStates }

def observerCanReceive (leader : LeaderState) (observer : Nat) : Bool :=
  match leader.observerState observer with
  | none => false
  | some state => decide (state.pendingCount < ObserverState.maxPending)

end LeaderState

end NodeDB.Raft
