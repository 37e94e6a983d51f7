import NodeDB.ConfChange
import NodeDB.MajorityQuorum
import NodeDB.StepRuns

/-!
# Voter sets in use while the membership changes

The committed changes of a group form one sequence, which each replica applies
to its own configuration at its own pace.  Quorums of two replicas meet as long
as no two replicas are more than one change apart.
-/

namespace NodeDB.MultiRaft

open Raft StepRuns MajorityQuorum List RaftNode

/-! ## The membership a sequence of changes describes -/

structure Membership where
  voters : Finset Nat
  learners : Finset Nat
  deriving DecidableEq

namespace Membership

def apply (membership : Membership) (change : ConfChange) : Membership :=
  let node := change.nodeId
  match change.changeType with
  | .addNode =>
    if node ∈ membership.voters ∨ node ∈ membership.learners then membership
    else { membership with voters := insert node membership.voters }
  | .removeNode => { membership with voters := membership.voters.erase node }
  | .addLearner =>
    if node ∈ membership.voters ∨ node ∈ membership.learners then membership
    else { membership with learners := insert node membership.learners }
  | .promoteLearner =>
    if node ∈ membership.learners then
      { voters := insert node membership.voters
        learners := membership.learners.erase node }
    else
      membership
  | .removeLearner => { membership with learners := membership.learners.erase node }

theorem apply_adjacent (membership : Membership) (change : ConfChange) :
    Adjacent membership.voters (membership.apply change).voters := by
  unfold apply
  cases change.changeType with
  | addNode =>
    dsimp only
    split
    next => exact .refl _
    next => exact adjacent_insert _ _
  | removeNode => exact adjacent_erase _ _
  | addLearner =>
    dsimp only
    split <;> exact .refl _
  | promoteLearner =>
    dsimp only
    split
    next => exact adjacent_insert _ _
    next => exact .refl _
  | removeLearner => exact .refl _

theorem apply_apply (membership : Membership) (change : ConfChange) :
    (membership.apply change).apply change = membership.apply change := by
  unfold apply
  cases change.changeType with
  | addNode =>
    dsimp only
    split
    next => rfl
    next => rw [if_pos (.inl (Finset.mem_insert_self _ _))]
  | removeNode => simp
  | addLearner =>
    dsimp only
    split
    next => rfl
    next => rw [if_pos (.inr (Finset.mem_insert_self _ _))]
  | promoteLearner =>
    dsimp only
    split
    next => rw [if_neg (Finset.notMem_erase _ _)]
    next => rfl
  | removeLearner => simp

theorem insert_of_removed {membership : Membership} {change : ConfChange} {node : Nat}
    (hbefore : node ∈ membership.voters)
    (hafter : node ∉ (membership.apply change).voters) :
    insert node (membership.apply change).voters = membership.voters := by
  unfold apply at hafter ⊢
  cases hkind : change.changeType with
  | addNode =>
    simp only [hkind] at hafter
    split at hafter
    next => exact absurd hbefore hafter
    next => exact absurd (Finset.mem_insert_of_mem hbefore) hafter
  | removeNode =>
    simp only [hkind, Finset.mem_erase, not_and] at hafter
    have hsame : node = change.nodeId := by
      by_contra hne
      exact hafter hne hbefore
    rw [hsame] at hbefore ⊢
    exact Finset.insert_erase hbefore
  | addLearner =>
    simp only [hkind] at hafter
    split at hafter <;> exact absurd hbefore hafter
  | promoteLearner =>
    simp only [hkind] at hafter
    split at hafter
    next => exact absurd (Finset.mem_insert_of_mem hbefore) hafter
    next => exact absurd hbefore hafter
  | removeLearner =>
    simp only [hkind] at hafter
    exact absurd hbefore hafter

end Membership

/-! ## Replicas follow the membership -/

variable {S : Type}

/-- The configuration lists the other voters and learners of the
membership. -/
structure ListsMembers (config : RaftConfig) (membership : Membership) : Prop where
  distinct : config.peers.Nodup
  peers : config.peers.toFinset = membership.voters.erase config.nodeId
  learners : config.learners.toFinset = membership.learners.erase config.nodeId

instance (config : RaftConfig) (membership : Membership) :
    Decidable (ListsMembers config membership) :=
  decidable_of_iff
    (config.peers.Nodup ∧ config.peers.toFinset = membership.voters.erase config.nodeId ∧
      config.learners.toFinset = membership.learners.erase config.nodeId)
    ⟨fun h => ⟨h.1, h.2.1, h.2.2⟩, fun h => ⟨h.distinct, h.peers, h.learners⟩⟩

variable {membership : Membership} {node : RaftNode S} {change : ConfChange} {base : Membership}
  {committed : List ConfChange} {next : RaftNode S}

theorem ListsMembers.mem_peers {config : RaftConfig} (hlists : ListsMembers config membership)
    (node : Nat) : node ∈ config.peers ↔ node ≠ config.nodeId ∧ node ∈ membership.voters := by
  rw [← mem_toFinset, hlists.peers, Finset.mem_erase]

theorem ListsMembers.mem_learners {config : RaftConfig} (hlists : ListsMembers config membership)
    (node : Nat) : node ∈ config.learners ↔ node ≠ config.nodeId ∧ node ∈ membership.learners := by
  rw [← mem_toFinset, hlists.learners, Finset.mem_erase]

theorem ListsMembers.tracks_iff (hlists : ListsMembers node.config membership) {peer : Nat}
    (hother : peer ≠ node.config.nodeId) :
    node.tracks peer = true ↔ peer ∈ membership.voters ∨ peer ∈ membership.learners := by
  unfold RaftNode.tracks
  simp [hlists.mem_peers, hlists.mem_learners, hother]

theorem config_notifyRemovedPeer (node : RaftNode S) (now peer : Nat) :
    SameSeat node (notifyRemovedPeer node now peer) := by
  unfold notifyRemovedPeer
  split
  next => exact ⟨rfl, .inl rfl, rfl⟩
  next => exact (node.keeps_sendAppendEntries now peer).seat

section

variable {ids : List Nat} {members : Finset Nat} {self peer : Nat}
  (hids : ids.toFinset = members.erase self)
include hids

theorem toFinset_concat (hother : peer ≠ self) :
    (ids ++ [peer]).toFinset = (insert peer members).erase self := by
  rw [toFinset_append, hids, Finset.erase_insert_of_ne hother]
  ext x
  simp

theorem toFinset_filter_ne (peer : Nat) :
    (ids.filter fun id => decide (id ≠ peer)).toFinset = (members.erase peer).erase self := by
  ext x
  have hmem := Finset.ext_iff.mp hids x
  simp only [mem_toFinset, Finset.mem_erase] at hmem
  simp only [mem_toFinset, mem_filter, decide_eq_true_eq, Finset.mem_erase, hmem]
  tauto

theorem toFinset_of_notMem (habsent : peer ∉ ids) :
    ids.toFinset = (members.erase peer).erase self := by
  rw [← toFinset_filter_ne hids peer, filter_eq_self.mpr]
  exact fun id hid => decide_eq_true fun heq => habsent (heq ▸ hid)

end

section

variable (hlists : ListsMembers node.config membership)
include hlists

theorem ListsMembers.addPeer (peer : Nat) :
    ListsMembers (node.addPeer peer).config (membership.apply ⟨.addNode, peer⟩) := by
  unfold RaftNode.addPeer Membership.apply
  dsimp only
  by_cases hself : peer = node.config.nodeId
  · rw [if_pos (by simp [RaftNode.tracks, hself])]
    split
    next => exact hlists
    next =>
      refine ⟨hlists.distinct, ?_, hlists.learners⟩
      rw [hself, Finset.erase_insert_eq_erase]
      exact hlists.peers
  · have htracks := hlists.tracks_iff hself
    split
    next hknown =>
      rw [if_pos (htracks.mp hknown)]
      exact hlists
    next hunknown =>
      have hfresh : ¬ (peer ∈ membership.voters ∨ peer ∈ membership.learners) :=
        fun h => hunknown (htracks.mpr h)
      rw [if_neg hfresh]
      refine ⟨?_, toFinset_concat hlists.peers hself, hlists.learners⟩
      refine List.Nodup.append hlists.distinct (nodup_singleton peer) ?_
      rw [disjoint_singleton, hlists.mem_peers]
      exact fun h => hfresh (.inl h.2)

theorem ListsMembers.removePeer (peer : Nat) :
    ListsMembers (node.removePeer peer).config (membership.apply ⟨.removeNode, peer⟩) := by
  unfold RaftNode.removePeer Membership.apply
  split
  next =>
    exact ⟨hlists.distinct.filter _, toFinset_filter_ne hlists.peers peer, hlists.learners⟩
  next habsent =>
    exact ⟨hlists.distinct, toFinset_of_notMem hlists.peers habsent, hlists.learners⟩

theorem ListsMembers.addLearner (peer : Nat) :
    ListsMembers (node.addLearner peer).config (membership.apply ⟨.addLearner, peer⟩) := by
  unfold RaftNode.addLearner Membership.apply
  dsimp only
  by_cases hself : peer = node.config.nodeId
  · rw [if_pos (by simp [RaftNode.tracks, hself])]
    split
    next => exact hlists
    next =>
      refine ⟨hlists.distinct, hlists.peers, ?_⟩
      rw [hself, Finset.erase_insert_eq_erase]
      exact hlists.learners
  · have htracks := hlists.tracks_iff hself
    split
    next hknown =>
      rw [if_pos (htracks.mp hknown)]
      exact hlists
    next hunknown =>
      rw [if_neg fun h => hunknown (htracks.mpr h)]
      exact ⟨hlists.distinct, hlists.peers, toFinset_concat hlists.learners hself⟩

theorem ListsMembers.removeLearner (peer : Nat) :
    ListsMembers (node.removeLearner peer).config
      (membership.apply ⟨.removeLearner, peer⟩) := by
  unfold RaftNode.removeLearner Membership.apply
  split
  next => exact ⟨hlists.distinct, hlists.peers, toFinset_filter_ne hlists.learners peer⟩
  next habsent => exact ⟨hlists.distinct, hlists.peers, toFinset_of_notMem hlists.learners habsent⟩

theorem ListsMembers.promoteLearner {peer : Nat}
    (hother : peer ≠ node.config.nodeId) :
    ListsMembers (node.promoteLearner peer).2.config
      (membership.apply ⟨.promoteLearner, peer⟩) := by
  unfold RaftNode.promoteLearner Membership.apply
  dsimp only
  split
  next hlearner =>
    rw [if_pos ((hlists.mem_learners peer).mp hlearner).2]
    refine ⟨?_, ?_, toFinset_filter_ne hlists.learners peer⟩
    · split
      next => exact hlists.distinct
      next habsent =>
        refine List.Nodup.append hlists.distinct (nodup_singleton peer) ?_
        rw [disjoint_singleton]
        exact habsent
    · split
      next hpresent =>
        rw [Finset.insert_eq_self.mpr ((hlists.mem_peers peer).mp hpresent).2]
        exact hlists.peers
      next => exact toFinset_concat hlists.peers hother
  next habsent =>
    rw [if_neg fun h => habsent ((hlists.mem_learners peer).mpr ⟨hother, h⟩)]
    exact hlists

theorem ListsMembers.applyConfChange (now : Nat) (change : ConfChange) :
    ListsMembers (applyConfChange node now change).config (membership.apply change) := by
  obtain ⟨kind, peer⟩ := change
  have hnotified : ListsMembers (notifyRemovedPeer node now peer).config membership := by
    rw [(config_notifyRemovedPeer node now peer).config]
    exact hlists
  unfold MultiRaft.applyConfChange
  cases kind with
  | addNode => exact hlists.addPeer peer
  | removeNode => exact hnotified.removePeer peer
  | addLearner => exact hlists.addLearner peer
  | promoteLearner =>
    dsimp only
    split
    next hself =>
      have hconfig : node.promoteSelfToVoter.config.nodeId = node.config.nodeId ∧
          node.promoteSelfToVoter.config.peers = node.config.peers ∧
          node.promoteSelfToVoter.config.learners = node.config.learners := by
        unfold promoteSelfToVoter
        split <;> exact ⟨rfl, rfl, rfl⟩
      unfold Membership.apply
      dsimp only
      rw [hself]
      refine ⟨by rw [hconfig.2.1]; exact hlists.distinct, ?_, ?_⟩
      · rw [hconfig.2.1, hconfig.1, hlists.peers]
        split
        next => rw [Finset.erase_insert_eq_erase]
        next => rfl
      · rw [hconfig.2.2, hconfig.1, hlists.learners]
        split
        next => rw [Finset.erase_idem]
        next => rfl
    next hother => exact hlists.promoteLearner hother
  | removeLearner => exact hnotified.removeLearner peer

end

theorem volatile_sendAppendEntries (node : RaftNode S) (now peer : Nat) :
    (node.sendAppendEntries now peer).volatile = node.volatile := by
  unfold sendAppendEntries
  split
  next => rfl
  next =>
    dsimp only
    split <;> rfl

/-- A change leaves the identity of the node and what it has committed, and
only the promotion of the node itself gives it a vote. -/
theorem applyConfChange_keeps (node : RaftNode S) (now : Nat) (change : ConfChange) :
    let changed := applyConfChange node now change
    changed.config.nodeId = node.config.nodeId ∧ changed.volatile = node.volatile ∧
      (changed.isVoterRole = true → node.isVoterRole = true ∨
        (node.role = .learner ∧ change = ⟨.promoteLearner, node.config.nodeId⟩)) := by
  obtain ⟨kind, peer⟩ := change
  have hseat := config_notifyRemovedPeer node now peer
  have hnodeId := congrArg RaftConfig.nodeId hseat.config
  have hvolatile : (notifyRemovedPeer node now peer).volatile = node.volatile := by
    unfold notifyRemovedPeer
    split
    next => rfl
    next => exact volatile_sendAppendEntries node now peer
  unfold applyConfChange
  cases kind with
  | addNode =>
    dsimp only
    unfold RaftNode.addPeer
    split <;> exact ⟨rfl, rfl, .inl⟩
  | removeNode =>
    dsimp only
    rw [← hnodeId, ← hvolatile, ← hseat.voterRole]
    unfold RaftNode.removePeer
    split <;> exact ⟨rfl, rfl, .inl⟩
  | addLearner =>
    dsimp only
    unfold RaftNode.addLearner
    split <;> exact ⟨rfl, rfl, .inl⟩
  | promoteLearner =>
    dsimp only
    split
    next hself =>
      unfold promoteSelfToVoter
      split
      next hlearner => exact ⟨rfl, rfl, fun _ => .inr ⟨hlearner, by rw [hself]⟩⟩
      next => exact ⟨rfl, rfl, .inl⟩
    next =>
      unfold RaftNode.promoteLearner
      split <;> exact ⟨rfl, rfl, .inl⟩
  | removeLearner =>
    dsimp only
    rw [← hnodeId, ← hvolatile, ← hseat.voterRole]
    unfold RaftNode.removeLearner
    split <;> exact ⟨rfl, rfl, .inl⟩

theorem nodeId_applyConfChange (node : RaftNode S) (now : Nat) (change : ConfChange) :
    (applyConfChange node now change).config.nodeId = node.config.nodeId :=
  (applyConfChange_keeps node now change).1

/-! ## Runs of a group -/

/-- A mounted replica and how many committed changes it applied. -/
structure Replica (S : Type) where
  node : RaftNode S
  applied : Nat

/-- The changes that committed and those still waiting in a leader's log, in
log order. -/
structure Group (S : Type) where
  replicas : List (Replica S)
  committed : List ConfChange
  pending : List ConfChange

variable {replica : Replica S} {group : Group S}

inductive GroupAction (S : Type) where
  | raft (replica : Nat) (call : RaftCall)
  | propose (replica now : Nat) (change : ConfChange) (payload : List UInt8)
  | commit
  | discard (kept : Nat)
  | apply (replica now : Nat)
  | mount (node : RaftNode S) (applied : Nat)
  | unmount (replica : Nat)

def membershipAt (base : Membership) (changes : List ConfChange) (n : Nat) : Membership :=
  (changes.take n).foldl Membership.apply base

def votersInUse (node : RaftNode S) : Finset Nat :=
  insert node.config.nodeId node.config.peers.toFinset

def IsQuorum (node : RaftNode S) (quorum : Finset Nat) : Prop :=
  quorum ⊆ votersInUse node ∧ node.config.quorum ≤ quorum.card
  deriving Decidable

/-- A replica lists the members and is one in the role it runs in. -/
structure Fits (membership : Membership) (node : RaftNode S) : Prop where
  lists : ListsMembers node.config membership
  voter : node.isVoterRole = true → node.config.nodeId ∈ membership.voters
  learner : node.role = .learner → node.config.nodeId ∈ membership.learners

instance (membership : Membership) (node : RaftNode S) : Decidable (Fits membership node) :=
  decidable_of_iff
    (ListsMembers node.config membership ∧
      (node.isVoterRole = true → node.config.nodeId ∈ membership.voters) ∧
      (node.role = .learner → node.config.nodeId ∈ membership.learners))
    ⟨fun h => ⟨h.1, h.2.1, h.2.2⟩, fun h => ⟨h.lists, h.voter, h.learner⟩⟩

/-- Every mounted replica has applied every committed change and is a member
in the role it runs in. -/
def Settled (base : Membership) (group : Group S) : Prop :=
  ∀ replica ∈ group.replicas, replica.applied = group.committed.length ∧
    Fits (membershipAt base group.committed group.committed.length) replica.node
  deriving Decidable

namespace GroupAction

variable [LogStorage S]

def perform (groupId : Nat) (group : Group S) : GroupAction S → Group S
  | raft replica call =>
    { group with replicas := group.replicas.modify replica fun replica =>
        { replica with node := call.perform replica.node } }
  | propose position now change payload =>
    match group.replicas[position]? with
    | none => group
    | some replica =>
      let proposed := proposeConfChange replica.node groupId now change payload
      let replicas := group.replicas.set position { replica with node := proposed.2 }
      match proposed.1 with
      | .error _ => { group with replicas := replicas }
      | .ok index =>
        if index ≤ proposed.2.volatile.commitIndex then
          { replicas := replicas
            committed := group.committed ++ group.pending ++ [change]
            pending := [] }
        else
          { group with replicas := replicas, pending := group.pending ++ [change] }
  | commit =>
    match group.pending with
    | [] => group
    | change :: rest =>
      { group with committed := group.committed ++ [change], pending := rest }
  | discard kept => { group with pending := group.pending.take kept }
  | apply position now =>
    match group.replicas[position]? with
    | none => group
    | some replica =>
      match group.committed[replica.applied]? with
      | none => group
      | some change =>
        let next : Replica S :=
          ⟨applyConfChange replica.node now change, replica.applied + 1⟩
        { group with replicas := group.replicas.set position next }
  | mount node applied => { group with replicas := group.replicas ++ [⟨node, applied⟩] }
  | unmount position => { group with replicas := group.replicas.eraseIdx position }

/-- Changes are proposed through the check, never as plain entries, and a
replica mounts with the members of some committed prefix. -/
def Admissible (base : Membership) (group : Group S) : GroupAction S → Prop
  | raft _ (.propose _ data) => data.head? ≠ some confChangePrefix
  | mount node applied => applied ≤ group.committed.length ∧
      ∃ n ≤ group.committed.length,
        ListsMembers node.config (membershipAt base group.committed n)
  | _ => True

/-- A change commits only in a settled group, and a replica mounts with the
members of the changes it has applied, at most one behind.  A proposal may
commit at once when its proposer is the only voter. -/
def OneChangeAtATime (base : Membership) (group : Group S) : GroupAction S → Prop
  | commit => Settled base group
  | propose position _ _ _ => ∀ replica ∈ group.replicas[position]?,
      (replica.node.config.clusterSize ≠ 1 ∧
          replica.node.volatile.commitIndex ≤ replica.node.log.lastIndex) ∨
        (group.pending = [] ∧ Settled base group)
  | mount node applied =>
    (applied = group.committed.length ∨ applied + 1 = group.committed.length) ∧
      Fits (membershipAt base group.committed applied) node
  | _ => True

instance (base : Membership) (group : Group S) (action : GroupAction S) :
    Decidable (action.Admissible base group) := by
  unfold Admissible
  split <;> infer_instance

instance (base : Membership) (group : Group S) :
    (action : GroupAction S) → Decidable (action.OneChangeAtATime base group)
  | commit => inferInstanceAs (Decidable (Settled base group))
  | propose position _ _ _ =>
    inferInstanceAs (Decidable (∀ replica ∈ group.replicas[position]?, _ ∨ _))
  | mount _ _ => inferInstanceAs (Decidable ((_ ∨ _) ∧ _))
  | raft .. | discard _ | apply .. | unmount _ => isTrue trivial

end GroupAction

/-! ## The invariant -/

theorem membershipAt_append (base : Membership) {changes : List ConfChange} {n : Nat}
    (hle : n ≤ changes.length) (more : List ConfChange) :
    membershipAt base (changes ++ more) n = membershipAt base changes n := by
  unfold membershipAt
  rw [take_append_of_le_length hle]

theorem membershipAt_succ (base : Membership) {changes : List ConfChange} {n : Nat}
    (hchange : changes[n]? = some change) :
    membershipAt base changes (n + 1) = (membershipAt base changes n).apply change := by
  unfold membershipAt
  rw [take_add_one, hchange, foldl_append]
  rfl

/-- Where a replica stands: it is one change behind, it is the proposer that
applied the last change at once, or it has applied every change. -/
inductive InStep (base : Membership) (committed : List ConfChange) (replica : Replica S) :
    Prop
  | behind (hlast : replica.applied + 1 = committed.length)
      (hfits : Fits (membershipAt base committed replica.applied) replica.node)
  | ahead (hlast : replica.applied + 1 = committed.length)
      (hlists : ListsMembers replica.node.config
        (membershipAt base committed committed.length))
      (hvoters : votersInUse replica.node =
          (membershipAt base committed committed.length).voters ∨
        votersInUse replica.node =
          (membershipAt base committed (committed.length - 1)).voters)
  | current (hlast : replica.applied = committed.length)
      (hlists : ListsMembers replica.node.config
        (membershipAt base committed committed.length))
      (hvoters : replica.node.isVoterRole = true →
        votersInUse replica.node =
            (membershipAt base committed committed.length).voters ∨
          votersInUse replica.node =
            (membershipAt base committed (committed.length - 1)).voters)

theorem ListsMembers.votersInUse_eq (hlists : ListsMembers node.config membership) :
    votersInUse node = insert node.config.nodeId membership.voters := by
  unfold votersInUse
  rw [hlists.peers]
  ext x
  simp only [Finset.mem_insert, Finset.mem_erase]
  tauto

theorem Fits.votersInUse_eq (hfits : Fits membership node) (hvoter : node.isVoterRole = true) :
    votersInUse node = membership.voters := by
  rw [hfits.lists.votersInUse_eq, Finset.insert_eq_self.mpr (hfits.voter hvoter)]

theorem Fits.votersInUse_of_voter (hfits : Fits membership node) (hvoter : node.isVoterRole = true)
    (now : Nat) (change : ConfChange) :
    votersInUse (applyConfChange node now change) = (membership.apply change).voters ∨
      votersInUse (applyConfChange node now change) = membership.voters := by
  rw [(hfits.lists.applyConfChange now change).votersInUse_eq, nodeId_applyConfChange]
  have hmember := hfits.voter hvoter
  by_cases hstays : node.config.nodeId ∈ (membership.apply change).voters
  · exact .inl (Finset.insert_eq_self.mpr hstays)
  · exact .inr (Membership.insert_of_removed hmember hstays)

theorem Fits.votersInUse_applyConfChange (hfits : Fits membership node) (now : Nat)
    (change : ConfChange) (hvoter : (applyConfChange node now change).isVoterRole = true) :
    votersInUse (applyConfChange node now change) = (membership.apply change).voters ∨
      votersInUse (applyConfChange node now change) = membership.voters := by
  obtain hbefore | ⟨hlearner, rfl⟩ := (applyConfChange_keeps node now change).2.2 hvoter
  · exact hfits.votersInUse_of_voter hbefore now change
  · left
    rw [(hfits.lists.applyConfChange now _).votersInUse_eq, nodeId_applyConfChange]
    have hmember := hfits.learner hlearner
    unfold Membership.apply
    dsimp only
    rw [if_pos hmember, Finset.insert_idem]

theorem InStep.votersInUse (hstep : InStep base committed replica)
    (hvoter : replica.node.isVoterRole = true) :
    votersInUse replica.node = (membershipAt base committed committed.length).voters ∨
      votersInUse replica.node =
        (membershipAt base committed (committed.length - 1)).voters := by
  cases hstep with
  | behind hlast hfits =>
    right
    rw [hfits.votersInUse_eq hvoter, ← hlast, Nat.add_sub_cancel]
  | ahead _ _ hvoters => exact hvoters
  | current _ _ hvoters => exact hvoters hvoter

theorem InStep.distinct (hstep : InStep base committed replica) :
    replica.node.config.peers.Nodup ∧
      replica.node.config.nodeId ∉ replica.node.config.peers := by
  have hself : ∀ {membership : Membership}, ListsMembers replica.node.config membership →
      replica.node.config.nodeId ∉ replica.node.config.peers := by
    intro membership hlists hmem
    exact ((hlists.mem_peers _).mp hmem).1 rfl
  cases hstep with
  | behind _ hfits => exact ⟨hfits.lists.distinct, hself hfits.lists⟩
  | ahead _ hlists _ => exact ⟨hlists.distinct, hself hlists⟩
  | current _ hlists _ => exact ⟨hlists.distinct, hself hlists⟩

theorem SameSeat.fits (hsame : SameSeat node next) (hfits : Fits membership node) :
    Fits membership next := by
  refine ⟨?_, ?_, ?_⟩
  · rw [hsame.config]
    exact hfits.lists
  · intro hvoter
    rw [hsame.config]
    exact hfits.voter (hsame.voterRole ▸ hvoter)
  · intro hlearner
    rw [hsame.config]
    exact hfits.learner (hsame.learner hlearner)

theorem InStep.sameSeat (hstep : InStep base committed replica)
    (hsame : SameSeat replica.node next) : InStep base committed { replica with node := next } := by
  have huse : MultiRaft.votersInUse next = MultiRaft.votersInUse replica.node := by
    unfold MultiRaft.votersInUse
    rw [hsame.config]
  cases hstep with
  | behind hlast hfits => exact .behind hlast (SameSeat.fits hsame hfits)
  | ahead hlast hlists hvoters =>
    refine .ahead hlast ?_ ?_
    · rw [hsame.config]
      exact hlists
    · rw [huse]
      exact hvoters
  | current hlast hlists hvoters =>
    refine .current hlast ?_ ?_
    · rw [hsame.config]
      exact hlists
    · intro hvoter
      rw [huse]
      exact hvoters (hsame.voterRole ▸ hvoter)

theorem InStep.applyNext (hstep : InStep base committed replica) (now : Nat)
    (hnext : committed[replica.applied]? = some change) :
    InStep base committed
      ⟨applyConfChange replica.node now change, replica.applied + 1⟩ := by
  have hmembership := membershipAt_succ base hnext
  cases hstep with
  | behind hlast hfits =>
    rw [hlast] at hmembership
    refine .current hlast ?_ ?_
    · rw [hmembership]
      exact hfits.lists.applyConfChange now change
    · intro hvoter
      rw [hmembership, ← hlast, Nat.add_sub_cancel]
      exact hfits.votersInUse_applyConfChange now change hvoter
  | ahead hlast hlists hvoters =>
    rw [hlast] at hmembership
    have hagain : (membershipAt base committed committed.length).apply change =
        membershipAt base committed committed.length := by
      rw [hmembership, Membership.apply_apply]
    have hlists' := hlists.applyConfChange now change
    rw [hagain] at hlists'
    refine .current hlast hlists' fun _ => ?_
    have huse : MultiRaft.votersInUse (applyConfChange replica.node now change) =
        MultiRaft.votersInUse replica.node := by
      rw [hlists'.votersInUse_eq, hlists.votersInUse_eq, nodeId_applyConfChange]
    rw [huse]
    exact hvoters
  | current hlast _ _ =>
    rw [getElem?_eq_none (by omega)] at hnext
    simp at hnext

theorem Settled.inStep (hsettled : Settled base group) (change : ConfChange)
    (hmem : replica ∈ group.replicas) : InStep base (group.committed ++ [change]) replica := by
  obtain ⟨happlied, hfits⟩ := hsettled replica hmem
  refine .behind (by rw [happlied, length_append, length_singleton]) ?_
  rw [membershipAt_append base (by omega), happlied]
  exact hfits

/-! ## Proposals -/

theorem volatile_sendAppendEntriesToObserver (node : RaftNode S) (now observer : Nat) :
    (node.sendAppendEntriesToObserver now observer).volatile = node.volatile := by
  unfold sendAppendEntriesToObserver
  repeat' split
  all_goals rfl

theorem volatile_replicateToAll (node : RaftNode S) (now : Nat) :
    (node.replicateToAll now).volatile = node.volatile := by
  unfold replicateToAll
  rw [foldl_unchanged volatile
      fun node observer => volatile_sendAppendEntriesToObserver node now observer,
    foldl_unchanged volatile
      fun node peer => volatile_sendAppendEntries node now peer]

variable [LogStorage S]

theorem propose_ok {now index : Nat} {data : List UInt8}
    (hpropose : node.propose now data = (.ok index, next)) :
    node.role = .leader ∧ index = node.log.lastIndex + 1 ∧
      (node.config.clusterSize ≠ 1 → next.volatile = node.volatile) := by
  unfold RaftNode.propose at hpropose
  split at hpropose
  next => simp at hpropose
  next hleader =>
    split at hpropose
    next => simp at hpropose
    next =>
      dsimp only at hpropose
      split at hpropose
      next => simp at hpropose
      next log _ =>
        obtain ⟨rfl, rfl⟩ := hpropose
        refine ⟨not_not.mp hleader, rfl, fun hmany => ?_⟩
        have hconfig := (keeps_replicateToAll
          ({ node with log := log } : RaftNode S) now).seat.config
        rw [if_neg (by rw [hconfig]; exact hmany)]
        exact volatile_replicateToAll _ now

theorem proposeConfChange_cases (node : RaftNode S) (groupId now : Nat)
    (change : ConfChange) (payload : List UInt8) :
    let proposed := proposeConfChange node groupId now change payload
    (∃ e, proposed.1 = .error e ∧ SameSeat node proposed.2) ∨
      ∃ index next, proposed.1 = .ok index ∧ SameSeat node next ∧
        node.isVoterRole = true ∧ index = node.log.lastIndex + 1 ∧
        (node.config.clusterSize ≠ 1 → next.volatile = node.volatile) ∧
        next.volatile = proposed.2.volatile ∧
        proposed.2 = if index ≤ next.volatile.commitIndex then
          applyConfChange next now change else next := by
  intro proposed
  have hproposed : proposed = proposeConfChange node groupId now change payload := rfl
  unfold proposeConfChange at hproposed
  split at hproposed
  next e _ =>
    rw [hproposed]
    exact .inl ⟨e, rfl, ⟨rfl, .inl rfl, rfl⟩⟩
  next =>
    have hsame := (node.keeps_propose now (confChangePrefix :: payload)).seat
    split at hproposed
    next e next hpropose =>
      rw [hpropose] at hsame
      rw [hproposed]
      exact .inl ⟨_, rfl, hsame⟩
    next index next hpropose =>
      rw [hpropose] at hsame
      obtain ⟨hleader, hindex, hvolatile⟩ := propose_ok hpropose
      have hvoter : node.isVoterRole = true := by simp [isVoterRole, hleader]
      rw [hproposed]
      refine .inr ⟨index, next, rfl, hsame, hvoter, hindex, hvolatile, ?_, rfl⟩
      split
      next => rw [(applyConfChange_keeps next now change).2.1]
      next => rfl

/-! ## Runs -/

def AllInStep (base : Membership) (group : Group S) : Prop :=
  ∀ replica ∈ group.replicas, InStep base group.committed replica

section

omit [LogStorage S]

theorem mem_modify {replicas : List (Replica S)} {position : Nat}
    {change : Replica S → Replica S} {replica : Replica S}
    (hmem : replica ∈ replicas.modify position change) :
    replica ∈ replicas ∨ ∃ old ∈ replicas, replica = change old := by
  obtain ⟨index, hget⟩ := mem_iff_getElem?.mp hmem
  rw [getElem?_modify] at hget
  obtain ⟨old, hold, hreplica⟩ := Option.map_eq_some_iff.mp hget
  have holdMem := mem_of_getElem? hold
  split at hreplica
  · exact .inr ⟨old, holdMem, hreplica.symm⟩
  · exact .inl (hreplica ▸ holdMem)

theorem AllInStep.set {base : Membership} {replicas : List (Replica S)}
    {committed : List ConfChange}
    (hothers : ∀ replica ∈ replicas, InStep base committed replica) {position : Nat}
    {replica : Replica S} (hnew : InStep base committed replica) :
    ∀ other ∈ replicas.set position replica, InStep base committed other := by
  intro other hmem
  rcases mem_or_eq_of_mem_set hmem with hold | rfl
  · exact hothers other hold
  · exact hnew

end

theorem AllInStep.propose (hgroup : AllInStep base group) (groupId position now : Nat)
    (change : ConfChange) (payload : List UInt8)
    (hone : (GroupAction.propose position now change payload :
      GroupAction S).OneChangeAtATime base group) :
    AllInStep base
      ((GroupAction.propose position now change payload).perform groupId group) := by
  unfold GroupAction.perform
  dsimp only
  split
  next => exact hgroup
  next replica hreplica =>
    have hmem := mem_of_getElem? hreplica
    obtain ⟨e, hfailed, hsame⟩ | ⟨index, next, hok, hsame, hvoter, hindex, hvolatile, hsaved,
      hnext⟩ := proposeConfChange_cases replica.node groupId now change payload
    · rw [hfailed]
      exact AllInStep.set hgroup ((hgroup replica hmem).sameSeat hsame)
    · rw [hok]
      dsimp only
      rw [← hsaved]
      split
      next hatOnce =>
        rw [if_pos hatOnce] at hnext
        obtain ⟨hmany, hbound⟩ | ⟨hpending, hsettled⟩ := hone replica hreplica
        · rw [hvolatile hmany] at hatOnce
          omega
        · -- The proposer is the only voter: it commits and applies the change.
          unfold AllInStep
          rw [hpending, append_nil]
          refine AllInStep.set (fun other hother => hsettled.inStep change hother) ?_
          obtain ⟨happlied, hfits⟩ := hsettled replica hmem
          have hfits' := SameSeat.fits hsame hfits
          have hmembership : membershipAt base (group.committed ++ [change])
              (group.committed ++ [change]).length =
                (membershipAt base group.committed group.committed.length).apply change := by
            rw [length_append, length_singleton, membershipAt_succ base (getElem?_concat_length ..),
              membershipAt_append base le_rfl]
          rw [hnext]
          refine .ahead ?_ ?_ ?_
          · rw [happlied, length_append, length_singleton]
          · rw [hmembership]
            exact hfits'.lists.applyConfChange now change
          · rw [hmembership, length_append, length_singleton, Nat.add_sub_cancel,
              membershipAt_append base le_rfl]
            exact hfits'.votersInUse_of_voter (hsame.voterRole ▸ hvoter) now change
      next hlater =>
        rw [if_neg hlater] at hnext
        rw [hnext]
        exact AllInStep.set hgroup ((hgroup replica hmem).sameSeat hsame)

theorem AllInStep.perform (hgroup : AllInStep base group) (groupId : Nat) (action : GroupAction S)
    (hone : action.OneChangeAtATime base group) :
    AllInStep base (action.perform groupId group) := by
  cases action with
  | raft position call =>
    intro replica hmem
    obtain hold | ⟨old, hold, rfl⟩ := mem_modify hmem
    · exact hgroup replica hold
    · exact (hgroup old hold).sameSeat (RaftCall.keeps_perform old.node call).toSameSeat
  | propose position now change payload =>
    exact hgroup.propose groupId position now change payload hone
  | commit =>
    unfold GroupAction.perform
    dsimp only
    split
    next => exact hgroup
    next change rest _ => exact fun replica hmem => Settled.inStep hone change hmem
  | discard => exact hgroup
  | apply position now =>
    unfold GroupAction.perform
    dsimp only
    split
    next => exact hgroup
    next replica hreplica =>
      split
      next => exact hgroup
      next change hchange =>
        have hmem := mem_of_getElem? hreplica
        exact AllInStep.set hgroup ((hgroup replica hmem).applyNext now hchange)
  | mount node applied =>
    refine forall_mem_concat.mpr ⟨hgroup, ?_⟩
    obtain ⟨hcurrent | hbehind, hfits⟩ := hone
    · rw [hcurrent] at hfits
      exact .current hcurrent hfits.lists fun hvoter => .inl (hfits.votersInUse_eq hvoter)
    · exact .behind hbehind hfits
  | unmount position =>
    intro replica hmem
    exact hgroup replica (mem_of_mem_eraseIdx hmem)

section

omit [LogStorage S]

theorem InStep.isMajority {base : Membership} {committed : List ConfChange}
    {replica : Replica S} (hstep : InStep base committed replica) {quorum : Finset Nat}
    (hquorum : IsQuorum replica.node quorum) :
    IsMajority (MultiRaft.votersInUse replica.node) quorum := by
  obtain ⟨hnodup, hself⟩ := hstep.distinct
  have hcard : (MultiRaft.votersInUse replica.node).card =
      replica.node.config.clusterSize := by
    unfold MultiRaft.votersInUse RaftConfig.clusterSize
    rw [Finset.card_insert_of_notMem (by simpa using hself), toFinset_card_of_nodup hnodup]
  refine ⟨hquorum.1, ?_⟩
  rw [hcard]
  exact hquorum.2

theorem InStep.adjacent {base : Membership} {committed : List ConfChange}
    {left right : Replica S} (hleft : InStep base committed left)
    (hright : InStep base committed right) (hvoter : left.node.isVoterRole = true)
    (hvoter' : right.node.isVoterRole = true) :
    Adjacent (MultiRaft.votersInUse left.node) (MultiRaft.votersInUse right.node) := by
  have hlast : Adjacent (membershipAt base committed (committed.length - 1)).voters
      (membershipAt base committed committed.length).voters := by
    cases hcommitted : committed.length with
    | zero => exact .refl _
    | succ n =>
      have hchange : committed[n]? = some committed[n] := getElem?_eq_getElem _
      rw [Nat.add_sub_cancel, membershipAt_succ base hchange]
      exact Membership.apply_adjacent _ _
  obtain hl | hl := hleft.votersInUse hvoter <;>
    obtain hr | hr := hright.votersInUse hvoter' <;> rw [hl, hr]
  · exact .refl _
  · exact hlast.symm
  · exact hlast
  · exact .refl _

end

/-- In every run in which a change commits only while every mounted replica
has applied the earlier ones, each quorum of one voter meets each quorum of
another. -/
theorem quorums_meet_of_run (base : Membership) (groupId : Nat)
    (replicas : List (Replica S))
    (hstart : ∀ replica ∈ replicas, replica.applied = 0 ∧ Fits base replica.node)
    (actions : List (GroupAction S))
    (hrun : Along (GroupAction.perform groupId)
      (fun group action => action.OneChangeAtATime base group) ⟨replicas, [], []⟩ actions) :
    let group := actions.foldl (GroupAction.perform groupId) ⟨replicas, [], []⟩
    ∀ left ∈ group.replicas, ∀ right ∈ group.replicas,
      left.node.isVoterRole = true → right.node.isVoterRole = true →
      ∀ quorum quorum', IsQuorum left.node quorum → IsQuorum right.node quorum' →
        (quorum ∩ quorum').Nonempty := by
  have hinit : AllInStep base (⟨replicas, [], []⟩ : Group S) := by
    intro replica hmem
    obtain ⟨happlied, hfits⟩ := hstart replica hmem
    exact .current happlied hfits.lists fun hvoter => .inl (hfits.votersInUse_eq hvoter)
  have hgroup := invariant_foldl (AllInStep base)
    (fun group action hgroup hone => hgroup.perform groupId action hone) hinit hrun
  intro group left hleft right hright hvoter hvoter' quorum quorum' hquorum hquorum'
  have hstep := hgroup left hleft
  have hstep' := hgroup right hright
  exact (hstep.isMajority hquorum).meet (hstep'.isMajority hquorum')
    (hstep.adjacent hstep' hvoter hvoter')

/-! ## A group of three -/

def memberConfig (nodeId : Nat) (peers : List Nat) : RaftConfig :=
  { nodeId := nodeId
    peers := peers
    learners := []
    observers := []
    startsAsLearner := false
    startsAsObserver := false
    electionTimeoutMin := 150
    electionTimeoutMax := 300
    heartbeatInterval := 50 }

def threeVoters : List (Replica MemStorage) :=
  [⟨RaftNode.new (memberConfig 1 [2, 3]) MemStorage.new 0, 0⟩,
    ⟨RaftNode.new (memberConfig 2 [1, 3]) MemStorage.new 0, 0⟩,
    ⟨RaftNode.new (memberConfig 3 [1, 2]) MemStorage.new 0, 0⟩]

def electNodeOne : List (GroupAction MemStorage) :=
  [.raft 0 (.tick ⟨400, 200⟩),
    .raft 0 (.preVoteResponse ⟨400, 200⟩ 2 ⟨0, true⟩),
    .raft 1 (.requestVote ⟨400, 200⟩ ⟨1, 1, 0, 0, false⟩),
    .raft 0 (.requestVoteResponse ⟨400, 200⟩ 2 ⟨1, true⟩)]

/-- Node 4 joins the group once every replica has applied its addition. -/
theorem quorums_meet_of_run_fourth_voter :
    let actions : List (GroupAction MemStorage) := electNodeOne ++
      [.propose 0 410 ⟨.addNode, 4⟩ [4],
        .raft 0 (.appendEntriesResponse ⟨420, 200⟩ 2 ⟨1, true, 2, 1, .whole⟩),
        .commit, .apply 0 430, .apply 1 440,
        .mount (RaftNode.new (memberConfig 4 [1, 2, 3]) MemStorage.new 450) 1,
        .apply 2 460]
    let group := actions.foldl (GroupAction.perform 7) ⟨threeVoters, [], []⟩
    (∀ replica ∈ group.replicas, votersInUse replica.node = {1, 2, 3, 4}) ∧
      ∀ left ∈ group.replicas, ∀ right ∈ group.replicas,
        left.node.isVoterRole = true → right.node.isVoterRole = true →
        ∀ quorum quorum', IsQuorum left.node quorum → IsQuorum right.node quorum' →
          (quorum ∩ quorum').Nonempty :=
  ⟨by decide, quorums_meet_of_run ⟨{1, 2, 3}, ∅⟩ 7 threeVoters (by decide) _ (by decide)⟩

/-- The leader takes a second change into its log while the first is pending.
Both commit with the answer of node 2, and the leader applies both while node 3
has applied neither: the quorums of the two are disjoint. -/
theorem quorums_disjoint_of_two_pending :
    let proposals : List (GroupAction MemStorage) := electNodeOne ++
      [.propose 0 410 ⟨.addNode, 4⟩ [4], .propose 0 410 ⟨.addNode, 5⟩ [5],
        .raft 1 (.appendEntries ⟨420, 200⟩ ⟨1, 1, 0, 0,
          [⟨1, 1, []⟩, ⟨1, 2, [confChangePrefix, 4]⟩, ⟨1, 3, [confChangePrefix, 5]⟩],
          0, 1, 0⟩),
        .raft 0 (.appendEntriesResponse ⟨430, 200⟩ 2 ⟨1, true, 3, 1, .whole⟩)]
    let applies : List (GroupAction MemStorage) :=
      [.commit, .commit, .apply 0 440, .apply 0 440]
    let start : Group MemStorage := ⟨threeVoters, [], []⟩
    let proposed := proposals.foldl (GroupAction.perform 7) start
    let group := applies.foldl (GroupAction.perform 7) proposed
    (∀ replica ∈ threeVoters, Fits ⟨{1, 2, 3}, ∅⟩ replica.node) ∧
      Along (GroupAction.perform 7) (fun group action => action.Admissible ⟨{1, 2, 3}, ∅⟩ group)
        start (proposals ++ applies) ∧
      proposed.replicas[0]?.map (fun leader => (leader.node.volatile.commitIndex,
        leader.node.log.entries)) = some (3,
          [⟨1, 1, []⟩, ⟨1, 2, [confChangePrefix, 4]⟩, ⟨1, 3, [confChangePrefix, 5]⟩]) ∧
      proposed.replicas[1]?.map (fun voter => voter.node.log.entries) =
        proposed.replicas[0]?.map (fun leader => leader.node.log.entries) ∧
      ¬ ∀ left ∈ group.replicas, ∀ right ∈ group.replicas,
        left.node.isVoterRole = true → right.node.isVoterRole = true →
        ∀ quorum quorum', IsQuorum left.node quorum → IsQuorum right.node quorum' →
          (quorum ∩ quorum').Nonempty := by
  refine ⟨by decide, by decide, by decide, by decide, fun hmeet => ?_⟩
  have hdisjoint := hmeet _ (getElem_mem (n := 0) (by decide))
    _ (getElem_mem (n := 2) (by decide)) (by decide) (by decide)
    {1, 4, 5} {2, 3} (by decide) (by decide)
  exact absurd hdisjoint (by decide)

end NodeDB.MultiRaft
