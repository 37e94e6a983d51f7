import NodeDB.RaftDurability

/-!
# What no call of a Raft node changes

Elections, replication, proposals and the handling of committed entries leave
the configuration alone, and never turn a replica without a vote into one that
has it or back.
-/

namespace NodeDB.Raft

variable {S : Type}

/-- Same configuration, same right to vote and same state of the data.  Only
roles with a vote replace each other. -/
structure SameSeat (node next : RaftNode S) : Prop where
  config : next.config = node.config
  role : next.role = node.role ∨ (node.isVoterRole = true ∧ next.isVoterRole = true)
  replica : next.replica = node.replica

namespace SameSeat

theorem trans {first second third : RaftNode S} (h : SameSeat first second)
    (h' : SameSeat second third) : SameSeat first third := by
  refine ⟨h'.config.trans h.config, ?_, h'.replica.trans h.replica⟩
  obtain hrole | ⟨hvoter, hvoter'⟩ := h.role
  · obtain hrole' | ⟨hsecond, hthird⟩ := h'.role
    · exact .inl (hrole'.trans hrole)
    · refine .inr ⟨?_, hthird⟩
      unfold RaftNode.isVoterRole at hsecond ⊢
      rwa [hrole] at hsecond
  · obtain hrole' | ⟨-, hthird⟩ := h'.role
    · refine .inr ⟨hvoter, ?_⟩
      unfold RaftNode.isVoterRole at hvoter' ⊢
      rwa [hrole']
    · exact .inr ⟨hvoter, hthird⟩

theorem voterRole {node next : RaftNode S} (h : SameSeat node next) :
    next.isVoterRole = node.isVoterRole := by
  obtain hrole | ⟨hvoter, hvoter'⟩ := h.role
  · unfold RaftNode.isVoterRole
    rw [hrole]
  · rw [hvoter, hvoter']

theorem learner {node next : RaftNode S} (h : SameSeat node next)
    (hlearner : next.role = .learner) : node.role = .learner := by
  obtain hrole | ⟨-, hvoter⟩ := h.role
  · rw [← hrole, hlearner]
  · simp [RaftNode.isVoterRole, hlearner] at hvoter

end SameSeat

/-- A node that names another node as leader neither leads nor campaigns, and
one that names itself leads. -/
def RaftNode.HintAgrees (node : RaftNode S) : Prop :=
  (node.leaderId ≠ 0 → node.leaderId ≠ node.config.nodeId →
      node.role ≠ .leader ∧ node.role ≠ .candidate) ∧
    (node.leaderId ≠ 0 → node.leaderId = node.config.nodeId → node.role = .leader)

/-- A step that keeps the seat and, where it can be `sure` of who leads, the
agreement of role and leader. -/
structure Keeps (sure : Prop) (node next : RaftNode S) : Prop extends SameSeat node next where
  hint : sure → node.HintAgrees → next.HintAgrees

namespace Keeps

variable {sure : Prop} {node next third : RaftNode S}

theorem same (hconfig : next.config = node.config) (hrole : next.role = node.role)
    (hreplica : next.replica = node.replica) (hleader : next.leaderId = node.leaderId) :
    Keeps sure node next := by
  refine ⟨⟨hconfig, .inl hrole, hreplica⟩, fun _ hagrees => ?_⟩
  unfold RaftNode.HintAgrees
  rwa [hleader, hconfig, hrole]

/-- The seat is kept whatever the leader. -/
theorem seat (h : Keeps True node next) : SameSeat node next :=
  h.toSameSeat

theorem refl (node : RaftNode S) : Keeps sure node node :=
  .same rfl rfl rfl rfl

theorem trans (h : Keeps sure node next) (h' : Keeps sure next third) : Keeps sure node third :=
  ⟨h.toSameSeat.trans h'.toSameSeat, fun hsure hagrees => h'.hint hsure (h.hint hsure hagrees)⟩

theorem foldl {α : Type} {step : RaftNode S → α → RaftNode S}
    (hstep : ∀ node x, Keeps sure node (step node x)) (xs : List α) (node : RaftNode S) :
    Keeps sure node (xs.foldl step node) := by
  induction xs generalizing node with
  | nil => exact refl node
  | cons x xs ih => exact (hstep node x).trans (ih _)

/-- A step that forgets the leader agrees with every role. -/
theorem unnamed (hseat : SameSeat node next) (hleader : next.leaderId = 0) : Keeps sure node next :=
  ⟨hseat, fun _ _ => ⟨fun hnamed => absurd hleader hnamed,
    fun hnamed => absurd hleader hnamed⟩⟩

theorem leads (hseat : SameSeat node next) (hrole : next.role = .leader)
    (hleader : next.leaderId = next.config.nodeId) : Keeps sure node next :=
  ⟨hseat, fun _ _ => ⟨fun _ hother => absurd hleader hother, fun _ _ => hrole⟩⟩

end Keeps

open Keeps

namespace RaftNode

variable {sure : Prop}

/-! ## Replication and commit -/

section

variable (node : RaftNode S)

theorem keeps_sendAppendEntries (now peer : Nat) :
    Keeps sure node (node.sendAppendEntries now peer) := by
  unfold sendAppendEntries
  dsimp only
  repeat' split
  all_goals exact .same rfl rfl rfl rfl

theorem keeps_sendAppendEntriesToObserver (now observer : Nat) :
    Keeps sure node (node.sendAppendEntriesToObserver now observer) := by
  unfold sendAppendEntriesToObserver
  repeat' split
  all_goals exact .same rfl rfl rfl rfl

theorem keeps_replicateToAll (now : Nat) : Keeps sure node (node.replicateToAll now) :=
  (foldl (fun node peer => node.keeps_sendAppendEntries now peer) _ node).trans
    (foldl
      (fun node observer => node.keeps_sendAppendEntriesToObserver now observer) _ _)

theorem keeps_collectCommittedEntries : Keeps sure node node.collectCommittedEntries := by
  unfold collectCommittedEntries
  dsimp only
  repeat' split
  all_goals exact .same rfl rfl rfl rfl

theorem keeps_becomeFollower (clock : Clock) (term : Nat) :
    Keeps sure node (node.becomeFollower clock term) := by
  refine .unnamed ⟨rfl, ?_, rfl⟩ rfl
  unfold becomeFollower isVoterRole
  cases node.role <;> simp [persistHardState, resetElectionTimeout]

theorem role_becomeFollower (clock : Clock) (term : Nat) :
    (node.becomeFollower clock term).role ≠ .leader ∧
      (node.becomeFollower clock term).role ≠ .candidate := by
  unfold becomeFollower
  cases node.role <;> simp [persistHardState, resetElectionTimeout]

theorem keeps_settleLease : Keeps sure node node.settleLease.2 := by
  unfold settleLease
  dsimp only
  repeat' split
  all_goals exact .same rfl rfl rfl rfl

theorem keeps_recordLeaseAck (peer round now : Nat) :
    Keeps sure node (node.recordLeaseAck peer round now) := by
  unfold recordLeaseAck
  split <;> exact .same rfl rfl rfl rfl

theorem keeps_tryEmitTimeoutNow : Keeps sure node node.tryEmitTimeoutNow := by
  unfold tryEmitTimeoutNow
  repeat' split
  all_goals exact .same rfl rfl rfl rfl

end

variable [LogStorage S]

theorem keeps_tryAdvanceCommitIndex (node : RaftNode S) :
    Keeps sure node node.tryAdvanceCommitIndex := by
  unfold tryAdvanceCommitIndex
  split
  next => exact .refl node
  next =>
    dsimp only
    split
    next => exact .refl node
    next index _ =>
      refine trans ?_ (keeps_collectCommittedEntries _)
      exact .same rfl rfl rfl rfl

theorem keeps_becomeLeader {node : RaftNode S} (hvoter : node.isVoterRole = true)
    (now : Nat) : Keeps sure node (node.becomeLeader now) := by
  unfold becomeLeader
  dsimp only
  refine trans ?_ (keeps_replicateToAll _ now)
  split
  next =>
    refine trans ?_ (keeps_tryAdvanceCommitIndex _)
    exact .leads ⟨rfl, .inr ⟨hvoter, rfl⟩, rfl⟩ rfl rfl
  next => exact .leads ⟨rfl, .inr ⟨hvoter, rfl⟩, rfl⟩ rfl rfl

/-! ## Elections -/

theorem keeps_startElection (node : RaftNode S) (clock : Clock) :
    Keeps sure node (node.startElection clock) := by
  unfold startElection
  split
  next => exact .refl node
  next hmay =>
    rw [not_or] at hmay
    have hvoter : node.isVoterRole = true := by simpa using hmay.1
    dsimp only
    split
    next =>
      refine trans ?_ (keeps_becomeLeader rfl clock.now)
      exact .unnamed ⟨rfl, .inr ⟨hvoter, rfl⟩, rfl⟩ rfl
    next => exact .unnamed ⟨rfl, .inr ⟨hvoter, rfl⟩, rfl⟩ rfl

theorem keeps_startPreElection (node : RaftNode S) (clock : Clock) :
    Keeps sure node (node.startPreElection clock) := by
  unfold startPreElection
  split
  next => exact .refl node
  next =>
    split
    next => exact node.keeps_startElection clock
    next => exact .same rfl rfl rfl rfl

omit [LogStorage S] in
theorem keeps_handleRequestVote (node : RaftNode S) (clock : Clock)
    (req : RequestVoteRequest) : Keeps sure node (node.handleRequestVote clock req).2 := by
  unfold handleRequestVote
  split
  next => exact .refl node
  next =>
    dsimp only
    have hraised : Keeps sure node
        (if node.hardState.currentTerm < req.term then node.becomeFollower clock req.term
          else node) := by
      split
      next => exact node.keeps_becomeFollower clock req.term
      next => exact .refl node
    generalize (if node.hardState.currentTerm < req.term then
      node.becomeFollower clock req.term else node) = raised at hraised ⊢
    repeat' split
    all_goals exact hraised.trans (.same rfl rfl rfl rfl)

theorem keeps_handleRequestVoteResponse (node : RaftNode S) (clock : Clock) (peer : Nat)
    (resp : RequestVoteResponse) :
    Keeps sure node (node.handleRequestVoteResponse clock peer resp) := by
  unfold handleRequestVoteResponse
  dsimp only
  repeat' split
  all_goals try exact .same rfl rfl rfl rfl
  next => exact node.keeps_becomeFollower clock resp.term
  next hcandidate _ _ =>
    rw [not_not] at hcandidate
    refine trans ?_ (keeps_becomeLeader ?_ clock.now)
    · exact .same rfl rfl rfl rfl
    · simp [isVoterRole, hcandidate]

theorem keeps_handlePreVoteResponse (node : RaftNode S) (clock : Clock) (peer : Nat)
    (resp : PreVoteResponse) : Keeps sure node (node.handlePreVoteResponse clock peer resp) := by
  unfold handlePreVoteResponse
  dsimp only
  repeat' split
  all_goals try exact .same rfl rfl rfl rfl
  · exact node.keeps_becomeFollower clock resp.term
  · refine trans ?_ (keeps_startElection _ clock)
    exact .same rfl rfl rfl rfl

theorem keeps_handleTimeoutNow (node : RaftNode S) (clock : Clock)
    (req : TimeoutNowRequest) : Keeps sure node (node.handleTimeoutNow clock req) := by
  unfold handleTimeoutNow
  split
  next => exact (node.keeps_startElection clock).trans (.same rfl rfl rfl rfl)
  next => exact .refl node

/-! ## Replication requests and answers -/

/-- A request that names this node as the leader of a term not yet past
reaches it only while it leads that term. -/
def KnowsSelf (node : RaftNode S) (leaderId term : Nat) : Prop :=
  node.hardState.currentTerm ≤ term → leaderId ≠ 0 → leaderId = node.config.nodeId →
    node.role = .leader ∧ term = node.hardState.currentTerm

section

omit [LogStorage S]

theorem keeps_acceptLeader {node : RaftNode S} {req : AppendEntriesRequest}
    (hterm : node.hardState.currentTerm ≤ req.term) (clock : Clock) :
    Keeps (node.KnowsSelf req.leaderId req.term) node (node.acceptLeader clock req) := by
  unfold acceptLeader
  dsimp only
  split
  next hstep =>
    have hseat := (node.keeps_becomeFollower clock req.term).seat
    refine ⟨hseat.trans ⟨rfl, .inl rfl, rfl⟩,
      fun hknows _ => ⟨fun _ _ => ?_, fun hnamed hself => ?_⟩⟩
    · exact node.role_becomeFollower clock req.term
    · obtain ⟨hrole, hsame⟩ := hknows hterm hnamed hself
      simp [hrole, hsame, show req.leaderId = node.config.nodeId from hself] at hstep
  next hstay =>
    simp only [not_or, not_and, not_not] at hstay
    exact ⟨⟨rfl, .inl rfl, rfl⟩, fun hknows _ =>
      ⟨fun _ hother => ⟨fun hleads => hother (hstay.2.2 hleads), hstay.2.1⟩,
        fun hnamed hself => (hknows hterm hnamed hself).1⟩⟩

theorem keeps_followCommit (node : RaftNode S) (req : AppendEntriesRequest) :
    Keeps sure node (node.followCommit req) := by
  unfold followCommit
  dsimp only
  split
  next =>
    refine trans ?_ (keeps_collectCommittedEntries _)
    exact .same rfl rfl rfl rfl
  next => exact .refl node

end

theorem keeps_handleAppendEntries (node : RaftNode S) (clock : Clock)
    (req : AppendEntriesRequest) :
    Keeps (node.KnowsSelf req.leaderId req.term) node
      (node.handleAppendEntries clock req).2 := by
  unfold handleAppendEntries
  split
  next => exact .refl node
  next hterm =>
    have haccepted := keeps_acceptLeader (not_lt.mp hterm) clock
    dsimp only
    repeat' split
    -- only the last branch goes on to the commit index
    all_goals try exact haccepted.trans (.same rfl rfl rfl rfl)
    refine haccepted.trans (trans ?_ (keeps_followCommit _ req))
    exact .same rfl rfl rfl rfl

section

omit [LogStorage S]

theorem keeps_handleObserverResponse (node : RaftNode S) (now observer : Nat)
    (resp : AppendEntriesResponse) :
    Keeps sure node (node.handleObserverResponse now observer resp) := by
  unfold handleObserverResponse
  split
  next => exact .refl node
  next =>
    split
    next => exact .same rfl rfl rfl rfl
    next =>
      refine trans ?_ (keeps_sendAppendEntriesToObserver _ now observer)
      exact .same rfl rfl rfl rfl

theorem keeps_countAnswer (node : RaftNode S) (now peer : Nat)
    (resp : AppendEntriesResponse) : Keeps sure node (node.countAnswer now peer resp) := by
  unfold countAnswer
  split
  next => exact .refl node
  next leader _ =>
    dsimp only
    have hacked : Keeps sure node
        { node with leaderState := some (leader.recordAck peer) } := .same rfl rfl rfl rfl
    split
    next =>
      have hsettled := (hacked.trans (keeps_recordLeaseAck _ peer resp.round now)).trans
        (keeps_settleLease _)
      exact hsettled.trans (.same rfl rfl rfl rfl)
    next => exact .same rfl rfl rfl rfl

end

theorem keeps_followAnswer (node : RaftNode S) (now peer : Nat)
    (resp : AppendEntriesResponse) : Keeps sure node (node.followAnswer now peer resp) := by
  unfold followAnswer
  split
  next => exact .refl node
  next leader _ =>
    split
    next =>
      dsimp only
      generalize (if leader.matchIndexFor peer < resp.lastLogIndex then
        (leader.setMatchIndex peer resp.lastLogIndex).setNextIndex peer
          (resp.lastLogIndex + 1) else leader) = raised
      split
      next =>
        have hraised : Keeps sure node { node with leaderState := some raised } :=
          .same rfl rfl rfl rfl
        have hcommitted := hraised.trans (keeps_tryAdvanceCommitIndex _)
        exact hcommitted.trans (.same rfl rfl rfl rfl)
      next => exact .same rfl rfl rfl rfl
    next =>
      split
      next =>
        split
        next => exact .refl node
        next => exact .same rfl rfl rfl rfl
      next =>
        refine trans ?_ (keeps_sendAppendEntries _ now peer)
        exact .same rfl rfl rfl rfl

theorem keeps_handleAppendEntriesResponse (node : RaftNode S) (clock : Clock) (peer : Nat)
    (resp : AppendEntriesResponse) :
    Keeps sure node (node.handleAppendEntriesResponse clock peer resp) := by
  unfold handleAppendEntriesResponse
  repeat' split
  all_goals try exact .refl node
  · exact node.keeps_becomeFollower clock resp.term
  · exact node.keeps_handleObserverResponse clock.now peer resp
  · exact ((node.keeps_countAnswer clock.now peer resp).trans
      (keeps_followAnswer _ clock.now peer resp)).trans (keeps_tryEmitTimeoutNow _)

/-! ## Ticks and proposals -/

theorem keeps_onStorageProgress (node : RaftNode S) : Keeps sure node node.onStorageProgress := by
  unfold onStorageProgress
  split
  next => exact node.keeps_tryAdvanceCommitIndex
  next => exact .refl node

omit [LogStorage S] in
theorem keeps_tickLeader (node : RaftNode S) (clock : Clock) :
    Keeps sure node (node.tickLeader clock) := by
  unfold tickLeader
  dsimp only
  split
  next =>
    refine trans ?_ (keeps_becomeFollower _ clock _)
    exact .same rfl rfl rfl rfl
  next =>
    split
    next =>
      have hrefreshed : Keeps sure node (({ node with
          leadershipTransfer := node.leadershipTransfer.filter fun transfer =>
            decide (clock.now < transfer.deadline) } : RaftNode S).refreshQuorumContact
              clock.now) := .same rfl rfl rfl rfl
      exact (hrefreshed.trans (keeps_replicateToAll _ clock.now)).trans (.same rfl rfl rfl rfl)
    next => exact .same rfl rfl rfl rfl

theorem keeps_tick (node : RaftNode S) (clock : Clock) : Keeps sure node (node.tick clock) := by
  have hcampaign : Keeps sure node
      (if node.electionDeadline ≤ clock.now then node.startPreElection clock else node) := by
    split
    next => exact node.keeps_startPreElection clock
    next => exact .refl node
  unfold tick
  cases node.role with
  | follower | candidate => exact hcampaign
  | leader => exact node.keeps_tickLeader clock
  | learner | observer => exact .refl node

theorem keeps_propose (node : RaftNode S) (now : Nat) (data : List UInt8) :
    Keeps sure node (node.propose now data).2 := by
  unfold propose
  split
  next => exact .refl node
  next =>
    split
    next => exact .refl node
    next =>
      dsimp only
      split
      next => exact .same rfl rfl rfl rfl
      next log _ =>
        have hsent : Keeps sure node
            (({ node with log := log } : RaftNode S).replicateToAll now) := by
          refine trans ?_ (keeps_replicateToAll _ now)
          exact .same rfl rfl rfl rfl
        dsimp only
        split
        next => exact hsent.trans (keeps_tryAdvanceCommitIndex _)
        next => exact hsent

omit [LogStorage S] in
theorem keeps_transferLeadership (node : RaftNode S) (now target : Nat) :
    Keeps sure node (node.transferLeadership now target).2 := by
  unfold transferLeadership
  repeat' split
  all_goals try exact .refl node
  dsimp only
  refine trans ?_ (keeps_tryEmitTimeoutNow _)
  exact .same rfl rfl rfl rfl

theorem keeps_persistHardStateIfDirty (node : RaftNode S) :
    Keeps sure node node.persistHardStateIfDirty.2 := by
  unfold persistHardStateIfDirty
  repeat' split
  all_goals exact .same rfl rfl rfl rfl

end RaftNode

/-- A call of the driver on a node, membership changes apart. -/
inductive RaftCall where
  | tick (clock : Clock)
  | requestVote (clock : Clock) (req : RequestVoteRequest)
  | requestVoteResponse (clock : Clock) (peer : Nat) (resp : RequestVoteResponse)
  | preVoteResponse (clock : Clock) (peer : Nat) (resp : PreVoteResponse)
  | timeoutNow (clock : Clock) (req : TimeoutNowRequest)
  | appendEntries (clock : Clock) (req : AppendEntriesRequest)
  | appendEntriesResponse (clock : Clock) (peer : Nat) (resp : AppendEntriesResponse)
  | storageProgress
  | propose (now : Nat) (data : List UInt8)
  | transferLeadership (now target : Nat)
  | persistHardState
  | takeReady
  | advanceApplied (appliedTo : Nat)

variable [LogStorage S]

def RaftCall.perform (node : RaftNode S) : RaftCall → RaftNode S
  | tick clock => node.tick clock
  | requestVote clock req => (node.handleRequestVote clock req).2
  | requestVoteResponse clock peer resp => node.handleRequestVoteResponse clock peer resp
  | preVoteResponse clock peer resp => node.handlePreVoteResponse clock peer resp
  | timeoutNow clock req => node.handleTimeoutNow clock req
  | appendEntries clock req => (node.handleAppendEntries clock req).2
  | appendEntriesResponse clock peer resp =>
    node.handleAppendEntriesResponse clock peer resp
  | storageProgress => node.onStorageProgress
  | propose now data => (node.propose now data).2
  | transferLeadership now target => (node.transferLeadership now target).2
  | persistHardState => node.persistHardStateIfDirty.2
  | takeReady => node.takeReady.2
  | advanceApplied appliedTo => node.advanceApplied appliedTo

/-- An append request that names this node as leader reaches it only while it
leads the term. -/
def RaftCall.Sure (node : RaftNode S) : RaftCall → Prop
  | appendEntries _ req => node.KnowsSelf req.leaderId req.term
  | _ => True

theorem RaftCall.keeps_perform (node : RaftNode S) (call : RaftCall) :
    Keeps (call.Sure node) node (call.perform node) := by
  cases call with
  | tick clock => exact node.keeps_tick clock
  | requestVote clock req => exact node.keeps_handleRequestVote clock req
  | requestVoteResponse clock peer resp =>
    exact node.keeps_handleRequestVoteResponse clock peer resp
  | preVoteResponse clock peer resp =>
    exact node.keeps_handlePreVoteResponse clock peer resp
  | timeoutNow clock req => exact node.keeps_handleTimeoutNow clock req
  | appendEntries clock req => exact node.keeps_handleAppendEntries clock req
  | appendEntriesResponse clock peer resp =>
    exact node.keeps_handleAppendEntriesResponse clock peer resp
  | storageProgress => exact node.keeps_onStorageProgress
  | propose now data => exact node.keeps_propose now data
  | transferLeadership now target => exact node.keeps_transferLeadership now target
  | persistHardState => exact node.keeps_persistHardStateIfDirty
  | takeReady | advanceApplied appliedTo => exact .same rfl rfl rfl rfl

end NodeDB.Raft
