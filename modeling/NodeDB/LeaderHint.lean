import NodeDB.RaftNodeFrame
import NodeDB.StepRuns

/-!
# A node's role and the leader it names

The snapshot handler takes the sender for the leader without stepping down in
its own term.  Apart from that, a node that names another leader never leads
or campaigns.
-/

namespace NodeDB.Raft

variable {S : Type} [LogStorage S]

namespace RaftNode

theorem keeps_adoptSnapshotBoundary {sure : Prop} (node : RaftNode S) (index term : Nat) :
    Keeps sure node (node.adoptSnapshotBoundary index term).2 := by
  obtain ⟨-, hnext⟩ | ⟨storage, hnext⟩ | ⟨storage, durable, hnext⟩ :=
    node.adoptSnapshotBoundary_cases index term
  all_goals
    rw [hnext]
    exact .same rfl rfl rfl rfl

/-- A snapshot reaches this node from itself only while it leads the term, and
from another node of its own term only while it neither leads nor campaigns. -/
def SnapshotWelcome (node : RaftNode S) (req : InstallSnapshotRequest) : Prop :=
  node.KnowsSelf req.leaderId req.term ∧
    (req.term = node.hardState.currentTerm → req.leaderId ≠ 0 →
      req.leaderId ≠ node.config.nodeId → node.role ≠ .leader ∧ node.role ≠ .candidate)

omit [LogStorage S] in
theorem keeps_followSender {node : RaftNode S} {req : InstallSnapshotRequest}
    (hterm : node.hardState.currentTerm ≤ req.term) (clock : Clock) :
    Keeps (node.SnapshotWelcome req) node (node.followSender clock req) := by
  unfold followSender
  split
  next hnewer =>
    have hseat := (node.keeps_becomeFollower clock req.term).seat
    refine ⟨hseat.trans ⟨rfl, .inl rfl, rfl⟩, fun hwelcome _ => ⟨fun _ _ => ?_, ?_⟩⟩
    · exact node.role_becomeFollower clock req.term
    · intro hnamed hself
      exact absurd (hwelcome.1 hterm hnamed hself).2 hnewer.ne'
  next hsame =>
    refine ⟨⟨rfl, .inl rfl, rfl⟩, fun hwelcome _ => ⟨hwelcome.2 (by omega), ?_⟩⟩
    intro hnamed hself
    exact (hwelcome.1 hterm hnamed hself).1

theorem keeps_handleInstallSnapshot (node : RaftNode S) (clock : Clock)
    (req : InstallSnapshotRequest) :
    Keeps (node.SnapshotWelcome req) node (node.handleInstallSnapshot clock req).2 := by
  unfold handleInstallSnapshot
  split
  next => exact .refl node
  next hterm =>
    have hfollows := keeps_followSender (not_lt.mp hterm) clock
    dsimp only
    split
    next =>
      have hadopted := hfollows.trans
        (keeps_adoptSnapshotBoundary _ req.lastIncludedIndex req.lastIncludedTerm)
      split
      next hadopt => rwa [hadopt] at hadopted
      next hadopt => rwa [hadopt] at hadopted
    next => exact hfollows

/-- A node as it starts on its storage. -/
def boot (config : RaftConfig) (storage : S) (clock : Clock) : RaftNode S :=
  ((new config storage clock.now).restore clock).2

theorem leaderId_boot (config : RaftConfig) (storage : S) (clock : Clock) :
    (boot config storage clock).leaderId = 0 := by
  unfold boot restore
  dsimp only
  repeat' split
  all_goals rfl

end RaftNode

/-! ## Runs -/

/-- A call of the driver, the snapshot handler included. -/
inductive HintCall where
  | driver (call : RaftCall)
  | installSnapshot (clock : Clock) (req : InstallSnapshotRequest)

namespace HintCall

def perform (node : RaftNode S) : HintCall → RaftNode S
  | driver call => call.perform node
  | installSnapshot clock req => (node.handleInstallSnapshot clock req).2

/-- The sender of the request can be taken for the leader. -/
def Sure (node : RaftNode S) : HintCall → Prop
  | driver call => call.Sure node
  | installSnapshot _ req => node.SnapshotWelcome req

theorem hintAgrees_perform {node : RaftNode S} (hagrees : node.HintAgrees) {call : HintCall}
    (hsure : call.Sure node) : (call.perform node).HintAgrees := by
  cases call with
  | driver call => exact (call.keeps_perform node).hint hsure hagrees
  | installSnapshot clock req =>
    exact (node.keeps_handleInstallSnapshot clock req).hint hsure hagrees

end HintCall

/-- In every run in which the senders can be taken for leaders, a node names itself only while
it leads, and another node only while it neither leads nor campaigns. -/
theorem hint_agrees_of_run (config : RaftConfig) (storage : S) (clock : Clock)
    (calls : List HintCall)
    (hrun : StepRuns.Along HintCall.perform HintCall.Sure
      (RaftNode.boot config storage clock) calls) :
    (calls.foldl HintCall.perform (RaftNode.boot config storage clock)).HintAgrees := by
  refine StepRuns.invariant_foldl RaftNode.HintAgrees
    (fun node call hagrees hsure => HintCall.hintAgrees_perform hagrees hsure) ?_ hrun
  have hunnamed := RaftNode.leaderId_boot config storage clock
  exact ⟨fun hnamed => absurd hunnamed hnamed, fun hnamed => absurd hunnamed hnamed⟩

/-- A pre-vote and an election that node 1 of three starts. -/
def campaign : List HintCall :=
  [.driver (.tick ⟨400, 200⟩), .driver (.preVoteResponse ⟨400, 200⟩ 2 ⟨0, true⟩)]

/-- Node 1 wins its election and later follows the leader of a newer term. -/
theorem hint_agrees_of_run_elected :
    let calls := campaign ++ [.driver (.requestVoteResponse ⟨400, 200⟩ 2 ⟨1, true⟩),
      .installSnapshot ⟨500, 200⟩ ⟨2, 3, 4, 2, true⟩]
    let node := calls.foldl HintCall.perform (RaftNode.boot voterConfig MemStorage.new ⟨0, 200⟩)
    node.HintAgrees ∧ node.leaderId = 3 ∧ node.role = .follower := by
  refine ⟨hint_agrees_of_run voterConfig MemStorage.new ⟨0, 200⟩ _ ?_, by decide, by decide⟩
  refine ⟨trivial, trivial, trivial, ⟨?_, ?_⟩, trivial⟩
  · unfold RaftNode.KnowsSelf
    decide
  · decide

/-- A candidate takes a snapshot from the leader of its own term: it names that
leader and still campaigns. -/
theorem candidate_names_snapshot_sender :
    let calls := campaign ++ [.installSnapshot ⟨410, 200⟩ ⟨1, 2, 4, 1, true⟩]
    let node := calls.foldl HintCall.perform (RaftNode.boot voterConfig MemStorage.new ⟨0, 200⟩)
    ¬ node.HintAgrees := by
  unfold RaftNode.HintAgrees
  decide

end NodeDB.Raft
