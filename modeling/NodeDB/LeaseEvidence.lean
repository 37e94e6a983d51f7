import NodeDB.ConfChange
import NodeDB.StepRuns

/-!
# Evidence behind the lease anchor

A leader anchors its lease at the sending time of a round that a quorum of
voters has acknowledged.  The anchor stays justified while the voters it was
settled against are a quorum of the current ones.
-/

namespace NodeDB.Raft

open List LeaseState RaftNode

variable {S : Type}

inductive LeaseOp where
  | newTerm (elapsed : Nat)
  | stamp (elapsed : Nat)
  | acknowledge (peer : Nat) (resp : AppendEntriesResponse) (elapsed : Nat)
  | setVoters (voters : List Nat)
  | addPeer (peer : Nat)
  | removePeer (peer : Nat)
  | addLearner (peer : Nat)
  | removeLearner (peer : Nat)
  | promoteLearner (peer : Nat)
  | promoteSelf

/-- A node with the history of its term: every round it stamped, with the
sending time, and every answer it received. -/
structure LeaseRun (S : Type) where
  node : RaftNode S
  clock : Nat
  rounds : List (Nat × Nat)
  acks : List (Nat × Nat)

namespace LeaseRun

def start (config : RaftConfig) (storage : S) : LeaseRun S :=
  { node := .new config storage 0, clock := 0, rounds := [], acks := [] }

/-- The peer answered a round of the term that was sent at `time` or
later. -/
def Acknowledged (run : LeaseRun S) (time peer : Nat) : Prop :=
  ∃ pair ∈ run.rounds, time ≤ pair.2 ∧ (peer, pair.1) ∈ run.acks
  deriving Decidable

/-- How many of the current voters acknowledged a round sent at `time` or
later. -/
def support (run : LeaseRun S) (time : Nat) : Nat :=
  run.node.config.peers.countP fun peer => decide (run.Acknowledged time peer)

end LeaseRun

namespace LeaseOp

def takeOffice (node : RaftNode S) (now : Nat) : RaftNode S :=
  { node with
    role := .leader
    leaderId := node.config.nodeId
    leaderState := some node.newLeaderState }
    |>.armQuorumWindow now

def perform (run : LeaseRun S) : LeaseOp → LeaseRun S
  | newTerm elapsed =>
    let now := run.clock + elapsed
    { node := takeOffice run.node now, clock := now, rounds := [], acks := [] }
  | stamp elapsed =>
    let now := run.clock + elapsed
    let stamped := run.node.stampLeaseRound now
    { run with
      node := stamped.2
      clock := now
      rounds := run.rounds ++ [(stamped.1, now)] }
  | acknowledge peer resp elapsed =>
    let now := run.clock + elapsed
    { run with
      node := run.node.countAnswer now peer resp
      clock := now
      acks := (peer, resp.round) :: run.acks }
  | setVoters voters => { run with node := run.node.setVoters voters }
  | addPeer peer => { run with node := run.node.addPeer peer }
  | removePeer peer => { run with node := run.node.removePeer peer }
  | addLearner peer => { run with node := run.node.addLearner peer }
  | removeLearner peer => { run with node := run.node.removeLearner peer }
  | promoteLearner peer => { run with node := (run.node.promoteLearner peer).2 }
  | promoteSelf => { run with node := run.node.promoteSelfToVoter }

def Distinct : LeaseOp → Prop
  | setVoters voters => voters.Nodup
  | _ => True

instance (op : LeaseOp) : Decidable op.Distinct := by
  cases op <;> dsimp only [Distinct] <;> infer_instance

/-- No anchor survives a promotion that raises the quorum: the cluster had an
even number of voters before it, or there was no anchor. -/
def KeepsQuorum (run : LeaseRun S) : LeaseOp → Prop
  | promoteLearner _ =>
    run.node.lease.anchor = none ∨ run.node.config.clusterSize % 2 = 0
  | _ => True

instance (run : LeaseRun S) (op : LeaseOp) : Decidable (KeepsQuorum run op) := by
  cases op <;> dsimp only [KeepsQuorum] <;> infer_instance

end LeaseOp

/-! ## The invariant -/

/-- The lease follows the rounds and answers of the term. -/
structure LeaseRun.Justified (run : LeaseRun S) : Prop where
  bounded : run.node.lease.nextRound ≤ lastRound
  times : ∀ pair ∈ run.rounds, pair.2 ≤ run.clock
  below : ∀ pair ∈ run.rounds, pair.1 ≤ run.node.lease.nextRound
  ordered : ∀ a ∈ run.rounds, ∀ b ∈ run.rounds, a.1 < b.1 → a.2 ≤ b.2
  complete : ∀ round, run.node.lease.isCurrent round = true →
    ∃ time, (round, time) ∈ run.rounds
  pending : ∀ pair ∈ run.node.lease.sent, pair ∈ run.rounds
  answered : ∀ ack ∈ run.node.quorumWindow,
    (ack.peer, ack.round) ∈ run.acks ∧ ∃ time, (ack.round, time) ∈ run.rounds
  anchored : ∀ time, run.node.lease.anchor = some time →
    run.node.config.quorum - 1 ≤ run.support time
  distinct : run.node.config.peers.Nodup

namespace LeaseRun

theorem support_mono (run run' : LeaseRun S)
    (hpeers : run'.node.config.peers = run.node.config.peers)
    (hrounds : ∀ pair ∈ run.rounds, pair ∈ run'.rounds)
    (hacks : ∀ ack ∈ run.acks, ack ∈ run'.acks) (time : Nat) :
    run.support time ≤ run'.support time := by
  unfold support
  rw [hpeers]
  apply countP_mono_left
  intro peer _ hacked
  rw [decide_eq_true_eq] at hacked ⊢
  obtain ⟨pair, hpair, htime, hack⟩ := hacked
  exact ⟨pair, hrounds pair hpair, htime, hacks _ hack⟩

variable {run : LeaseRun S}

theorem Justified.frame (hrun : run.Justified) (node : RaftNode S)
    (hlease : node.lease = run.node.lease) (hwindow : node.quorumWindow = run.node.quorumWindow)
    (hpeers : node.config.peers = run.node.config.peers) :
    ({ run with node := node } : LeaseRun S).Justified where
  bounded := by simpa [hlease] using hrun.bounded
  times := hrun.times
  below := by simpa [hlease] using hrun.below
  ordered := hrun.ordered
  complete := by simpa [hlease] using hrun.complete
  pending := by simpa [hlease] using hrun.pending
  answered := by simpa [hwindow] using hrun.answered
  anchored := by
    intro time hanchor
    have hquorum : node.config.quorum = run.node.config.quorum := by
      simp [RaftConfig.quorum, RaftConfig.clusterSize, hpeers]
    have hsupport := hrun.anchored time (by simpa [hlease] using hanchor)
    rw [← hquorum] at hsupport
    exact hsupport.trans
      (support_mono run { run with node := node } hpeers (fun _ h => h) (fun _ h => h) time)
  distinct := by simpa [hpeers] using hrun.distinct

theorem Justified.setVoters (hrun : run.Justified) {voters : List Nat} (hdistinct : voters.Nodup) :
    ({ run with node := run.node.setVoters voters } : LeaseRun S).Justified :=
  { hrun with
    anchored := by
      intro time hanchor
      cases hanchor
    distinct := hdistinct }

theorem Justified.newTerm (hrun : run.Justified) (elapsed : Nat) :
    (LeaseOp.perform run (.newTerm elapsed)).Justified where
  bounded := hrun.bounded
  times := by simp [LeaseOp.perform]
  below := by simp [LeaseOp.perform]
  ordered := by simp [LeaseOp.perform]
  complete := by
    intro round hcurrent
    obtain ⟨hfirst, hnext⟩ := (isCurrent_iff _ _).mp hcurrent
    exact absurd hnext (Nat.not_lt.mpr hfirst)
  pending := by
    simp [LeaseOp.perform, LeaseOp.takeOffice, armQuorumWindow, beginTerm]
  answered := by simp [LeaseOp.perform, LeaseOp.takeOffice, armQuorumWindow]
  anchored := by
    intro time hanchor
    cases hanchor
  distinct := hrun.distinct

theorem Justified.stamp (hrun : run.Justified) (elapsed : Nat) :
    (LeaseOp.perform run (.stamp elapsed)).Justified := by
  let stamped := LeaseOp.perform run (.stamp elapsed)
  have hrounds : stamped.rounds =
      run.rounds ++ [(run.node.lease.nextRound, run.clock + elapsed)] := rfl
  have hnext : stamped.node.lease.nextRound =
      min (run.node.lease.nextRound + 1) lastRound := rfl
  have hbounded := hrun.bounded
  have hkept : ∀ pair ∈ run.rounds, pair ∈ stamped.rounds :=
    fun _ => mem_append_left _
  have hcases : ∀ pair ∈ stamped.rounds, pair ∈ run.rounds ∨
      pair = (run.node.lease.nextRound, run.clock + elapsed) := by
    intro pair hpair
    simpa [hrounds] using hpair
  refine ⟨?_, ?_, ?_, ?_, ?_, ?_, ?_, ?_, hrun.distinct⟩
  · exact min_le_right _ _
  · intro pair hpair
    rcases hcases pair hpair with hold | rfl
    · exact (hrun.times pair hold).trans (Nat.le_add_right _ _)
    · exact le_rfl
  · intro pair hpair
    rw [hnext, le_min_iff]
    rcases hcases pair hpair with hold | rfl
    · have hbelow := hrun.below pair hold
      omega
    · exact ⟨Nat.le_succ _, hbounded⟩
  · intro a ha b hb hlt
    rcases hcases a ha with ha | rfl
    · rcases hcases b hb with hb | rfl
      · exact hrun.ordered a ha b hb hlt
      · exact (hrun.times a ha).trans (Nat.le_add_right _ _)
    · rcases hcases b hb with hb | rfl
      · exact absurd hlt (hrun.below b hb).not_gt
      · exact le_rfl
  · intro round hcurrent
    have hcurrent : run.node.lease.termFirstRound ≤ round ∧
        round < stamped.node.lease.nextRound := (isCurrent_iff _ _).mp hcurrent
    by_cases hold : round < run.node.lease.nextRound
    · have hknown := (isCurrent_iff _ _).mpr ⟨hcurrent.1, hold⟩
      obtain ⟨time, htime⟩ := hrun.complete round hknown
      exact ⟨time, hkept _ htime⟩
    · have heq : round = run.node.lease.nextRound := by
        have hlt := hcurrent.2
        rw [hnext] at hlt
        have := (lt_min_iff.mp hlt).1
        omega
      rw [heq]
      exact ⟨_, mem_append_right _ mem_cons_self⟩
  · intro pair hpair
    have hpair : pair ∈ (if maxPendingRounds ≤ run.node.lease.sent.length then
        run.node.lease.sent.drop 1 else run.node.lease.sent) ++
          [(run.node.lease.nextRound, run.clock + elapsed)] := hpair
    rcases mem_append.mp hpair with hold | hnew
    · have hsent : pair ∈ run.node.lease.sent := by
        split at hold
        · exact mem_of_mem_drop hold
        · exact hold
      exact hkept pair (hrun.pending pair hsent)
    · exact mem_append_right _ hnew
  · intro ack hack
    obtain ⟨hin, time, htime⟩ := hrun.answered ack hack
    exact ⟨hin, time, hkept _ htime⟩
  · intro time hanchor
    exact (hrun.anchored time hanchor).trans
      (support_mono run stamped rfl hkept (fun _ h => h) time)

end LeaseRun

/-! ## Answers -/

theorem RaftNode.settleLease_cases (node : RaftNode S) :
    node.settleLease.2 = node ∨
      ∃ round, round ≠ untrackedRound ∧
        node.config.quorum - 1 ≤
          node.config.peers.countP (fun peer => decide (round ≤ node.ackedRound peer)) ∧
        node.settleLease.2 = { node with lease := (node.lease.settle round).2 } := by
  unfold settleLease
  dsimp only
  split
  · exact .inl rfl
  next hneeded =>
    split
    · exact .inl rfl
    next round hround =>
      split
      · exact .inl rfl
      next hne =>
        refine .inr ⟨round, hne, ?_, rfl⟩
        have hcount := Ranking.le_countP_of_descending hround
        rw [countP_map] at hcount
        have heq : node.config.quorum - 1 - 1 + 1 = node.config.quorum - 1 := by omega
        rw [heq] at hcount
        exact hcount

theorem RaftNode.mem_raiseAck {peer round now : Nat} {window : List VoterAck}
    {ack : VoterAck} (hack : ack ∈ raiseAck peer round now window) :
    (ack ∈ window ∨ ∃ old ∈ window, old.peer = ack.peer ∧ old.round = ack.round) ∨
      (ack.peer = peer ∧ ack.round = round) := by
  induction window with
  | nil =>
    have heq : ack = ⟨peer, round, now⟩ := by simpa [raiseAck] using hack
    exact .inr (by simp [heq])
  | cons first rest ih =>
    unfold raiseAck at hack
    split at hack
    next heq =>
      rcases mem_cons.mp hack with rfl | hrest
      · rcases le_total first.round round with hle | hle
        · exact .inr ⟨heq, max_eq_right hle⟩
        · exact .inl (.inr ⟨first, mem_cons_self, rfl, (max_eq_left hle).symm⟩)
      · exact .inl (.inl (mem_cons_of_mem _ hrest))
    next =>
      rcases mem_cons.mp hack with rfl | hrest
      · exact .inl (.inl mem_cons_self)
      · rcases ih hrest with (hold | ⟨old, hold, hsame⟩) | hnew
        · exact .inl (.inl (mem_cons_of_mem _ hold))
        · exact .inl (.inr ⟨old, mem_cons_of_mem _ hold, hsame⟩)
        · exact .inr hnew

namespace LeaseRun

variable {run : LeaseRun S} {peer round : Nat}

section

variable (hrun : run.Justified)
include hrun

theorem Justified.hear (ack : Nat × Nat) {now : Nat} (hnow : run.clock ≤ now) :
    ({ run with clock := now, acks := ack :: run.acks } : LeaseRun S).Justified :=
  { hrun with
    times := fun pair hpair => (hrun.times pair hpair).trans hnow
    answered := by
      intro other hother
      obtain ⟨hin, htime⟩ := hrun.answered other hother
      exact ⟨mem_cons_of_mem _ hin, htime⟩
    anchored := fun time hanchor => (hrun.anchored time hanchor).trans
      (support_mono run { run with clock := now, acks := ack :: run.acks } rfl (fun _ h => h)
        (fun _ h => mem_cons_of_mem _ h) time) }

theorem Justified.recordAck (hin : (peer, round) ∈ run.acks) (now : Nat) :
    ({ run with node := run.node.recordLeaseAck peer round now } :
      LeaseRun S).Justified := by
  unfold recordLeaseAck
  split
  next hcurrent =>
    refine { hrun with answered := ?_ }
    intro ack hack
    rcases mem_raiseAck hack with (hold | ⟨old, hold, hpeer, hround⟩) | ⟨rfl, rfl⟩
    · exact hrun.answered ack hold
    · have hanswered := hrun.answered old hold
      rw [hpeer, hround] at hanswered
      exact hanswered
    · exact ⟨hin, hrun.complete _ hcurrent⟩
  next => exact hrun

theorem Justified.acknowledged_of_ackedRound {sentAt : Nat}
    (hne : round ≠ untrackedRound) (hsent : (round, sentAt) ∈ run.node.lease.sent)
    (hacked : round ≤ run.node.ackedRound peer) : run.Acknowledged sentAt peer := by
  have hpair := hrun.pending _ hsent
  unfold ackedRound at hacked
  cases hack : run.node.voterAck peer with
  | none =>
    rw [hack] at hacked
    exact absurd (Nat.le_zero.mp hacked) hne
  | some ack =>
    rw [hack] at hacked
    dsimp only at hacked
    have hpeer := find?_some hack
    simp only [decide_eq_true_eq] at hpeer
    obtain ⟨hin, time, htime⟩ := hrun.answered ack (mem_of_find?_eq_some hack)
    rw [hpeer] at hin
    rcases Nat.lt_or_eq_of_le hacked with hlt | heq
    · exact ⟨(ack.round, time), htime, hrun.ordered _ hpair _ htime hlt, hin⟩
    · rw [← heq] at hin
      exact ⟨(round, sentAt), hpair, le_rfl, hin⟩

theorem Justified.settleLease :
    ({ run with node := run.node.settleLease.2 } : LeaseRun S).Justified := by
  rcases run.node.settleLease_cases with hsame | ⟨round, hne, hcount, hsettled⟩
  · rw [hsame]
    exact hrun
  rw [hsettled]
  rcases run.node.lease.settle_cases round with hkept | hmoved
  · exact hrun.frame _ hkept rfl rfl
  obtain ⟨sentAt, hsent, hnext, hfirst, hpending, hanchor⟩ := hmoved
  have hsupport : run.node.config.quorum - 1 ≤ run.support sentAt := by
    apply hcount.trans
    apply countP_mono_left
    intro peer _ hacked
    rw [decide_eq_true_eq] at hacked ⊢
    exact hrun.acknowledged_of_ackedRound hne hsent hacked
  refine ⟨?_, hrun.times, ?_, hrun.ordered, ?_, ?_, hrun.answered, ?_, hrun.distinct⟩
  · exact hnext ▸ hrun.bounded
  · exact hnext ▸ hrun.below
  · intro other hcurrent
    have hcurrent := (isCurrent_iff _ _).mp hcurrent
    rw [hnext, hfirst] at hcurrent
    exact hrun.complete other ((isCurrent_iff _ _).mpr hcurrent)
  · intro pair hpair
    exact hrun.pending pair (hpending pair hpair)
  · intro time htime
    rcases hanchor with hnew | hold
    · rw [hnew] at htime
      rw [← Option.some.inj htime]
      exact hsupport
    · rw [hold] at htime
      exact hrun.anchored time htime

theorem Justified.acknowledge (peer : Nat) (resp : AppendEntriesResponse)
    (elapsed : Nat) : (LeaseOp.perform run (.acknowledge peer resp elapsed)).Justified := by
  have hheard := hrun.hear (peer, resp.round) (Nat.le_add_right run.clock elapsed)
  simp only [LeaseOp.perform, countAnswer]
  split
  · exact hheard
  next leader hleader =>
    have hcounted := hheard.frame
      { run.node with leaderState := some (leader.recordAck peer) } rfl rfl rfl
    split
    · have hrecorded := hcounted.recordAck mem_cons_self (run.clock + elapsed)
      exact hrecorded.settleLease.frame _ rfl rfl rfl
    · exact hcounted.frame _ rfl rfl rfl

theorem Justified.promoteLearner (peer : Nat)
    (hquorum : LeaseOp.KeepsQuorum run (.promoteLearner peer)) :
    (LeaseOp.perform run (.promoteLearner peer)).Justified := by
  simp only [LeaseOp.perform, RaftNode.promoteLearner]
  split
  next hlearner =>
    by_cases hin : peer ∈ run.node.config.peers
    · simp only [if_pos hin]
      exact hrun.frame _ rfl rfl rfl
    simp only [if_neg hin]
    refine { hrun with anchored := ?_, distinct := ?_ }
    · intro time hanchor
      rcases hquorum with hnone | heven
      · cases hnone.symm.trans hanchor
      have hsupport := hrun.anchored time hanchor
      simp only [support, RaftConfig.quorum, RaftConfig.clusterSize, countP_append,
        length_append, length_singleton] at hsupport heven ⊢
      refine le_trans ?_ (Nat.le_add_right _ _)
      refine le_trans ?_ hsupport
      omega
    · exact List.Nodup.append hrun.distinct (by simp) (by simpa using hin)
  next => exact hrun

end

theorem justified_start {config : RaftConfig} (hdistinct : config.peers.Nodup)
    (storage : S) : (start config storage).Justified where
  bounded := (by decide : 1 ≤ lastRound)
  times := by simp [start]
  below := by simp [start]
  ordered := by simp [start]
  complete := by
    intro round hcurrent
    obtain ⟨hfirst, hnext⟩ := (isCurrent_iff _ _).mp hcurrent
    exact absurd hnext (Nat.not_lt.mpr hfirst)
  pending := by simp [start, RaftNode.new, LeaseState.new]
  answered := by simp [start, RaftNode.new]
  anchored := by
    intro time hanchor
    cases hanchor
  distinct := hdistinct

end LeaseRun

theorem justified_perform {run : LeaseRun S} {op : LeaseOp} (hrun : run.Justified)
    (hdistinct : op.Distinct) (hquorum : LeaseOp.KeepsQuorum run op) :
    (op.perform run).Justified := by
  cases op with
  | newTerm elapsed => exact hrun.newTerm elapsed
  | stamp elapsed => exact hrun.stamp elapsed
  | acknowledge peer resp elapsed => exact hrun.acknowledge peer resp elapsed
  | setVoters voters => exact hrun.setVoters hdistinct
  | addPeer peer =>
    simp only [LeaseOp.perform, RaftNode.addPeer]
    split
    · exact hrun
    next htracks =>
      apply hrun.setVoters
      simp only [tracks, Bool.or_eq_true, decide_eq_true_eq, not_or] at htracks
      exact List.Nodup.append hrun.distinct (by simp) (by simpa using htracks.1.2)
  | removePeer peer =>
    simp only [LeaseOp.perform, RaftNode.removePeer]
    split
    · exact hrun.setVoters (hrun.distinct.filter _)
    · exact hrun
  | addLearner peer =>
    simp only [LeaseOp.perform, RaftNode.addLearner]
    split
    · exact hrun
    · exact hrun.frame _ rfl rfl rfl
  | removeLearner peer =>
    simp only [LeaseOp.perform, RaftNode.removeLearner]
    split
    · exact hrun.frame _ rfl rfl rfl
    · exact hrun
  | promoteLearner peer => exact hrun.promoteLearner peer hquorum
  | promoteSelf =>
    simp only [LeaseOp.perform, promoteSelfToVoter]
    split
    · exact hrun.frame _ rfl rfl rfl
    · exact hrun

/-- In every run, an anchored lease rests on a quorum: counting the leader
itself, a quorum of the current voters acknowledged a round of the term that
was sent at the anchor or later. -/
theorem lease_anchor_justified (config : RaftConfig) (storage : S)
    (hconfig : config.peers.Nodup) (ops : List LeaseOp)
    (hdistinct : ∀ op ∈ ops, op.Distinct)
    (hrun : StepRuns.Along LeaseOp.perform LeaseOp.KeepsQuorum
      (LeaseRun.start config storage) ops) :
    let run := ops.foldl LeaseOp.perform (LeaseRun.start config storage)
    ∀ time, run.node.lease.anchor = some time →
      ∃ voters : Finset Nat, (∀ peer ∈ voters, peer ∈ run.node.config.peers) ∧
        run.node.config.quorum - 1 ≤ voters.card ∧
        ∀ peer ∈ voters, run.Acknowledged time peer := by
  intro run time hanchor
  have hinv : run.Justified := StepRuns.invariant_foldl LeaseRun.Justified
    (fun run op hinv hok => justified_perform hinv hok.1 hok.2)
    (LeaseRun.justified_start hconfig storage) (hrun.and_of_forall hdistinct)
  refine ⟨(run.node.config.peers.filter fun peer =>
    decide (run.Acknowledged time peer)).toFinset, ?_, ?_, ?_⟩
  · intro peer hpeer
    exact (mem_filter.mp (mem_toFinset.mp hpeer)).1
  · rw [toFinset_card_of_nodup (hinv.distinct.filter _), ← countP_eq_length_filter]
    exact hinv.anchored time hanchor
  · intro peer hpeer
    simpa using (mem_filter.mp (mem_toFinset.mp hpeer)).2

/-- Three voters and a learner.  One answer is a quorum of the three voters;
the learner is added as a voter after the anchor was withdrawn. -/
theorem lease_anchor_justified_three_voters :
    let config : RaftConfig := ⟨1, [2, 3], [4], [], false, false, 150, 300, 50⟩
    let ops : List LeaseOp :=
      [.newTerm 5, .stamp 1, .stamp 0, .acknowledge 2 ⟨1, true, 1, 1, .whole⟩ 3,
        .setVoters [2, 3], .promoteLearner 4, .stamp 1,
        .acknowledge 3 ⟨1, true, 1, 3, .whole⟩ 1, .acknowledge 4 ⟨1, true, 1, 3, .whole⟩ 1]
    let run := ops.foldl LeaseOp.perform (LeaseRun.start config ())
    run.node.lease.anchor = some 10 ∧ run.node.config.quorum = 3 ∧
      ∃ voters : Finset Nat, (∀ peer ∈ voters, peer ∈ run.node.config.peers) ∧
        3 - 1 ≤ voters.card ∧ ∀ peer ∈ voters, run.Acknowledged 10 peer := by
  refine ⟨by decide, by decide, ?_⟩
  exact lease_anchor_justified _ () (by decide) _ (by decide) (by decide) 10 (by decide)

/-- One answer anchors the lease of three voters.  Promoting a learner makes
them four; the anchor stays, and one acknowledging voter is no longer
enough. -/
theorem promotion_keeps_stale_anchor :
    let config : RaftConfig := ⟨1, [2, 3], [4], [], false, false, 150, 300, 50⟩
    let ops : List LeaseOp :=
      [.newTerm 5, .stamp 1, .acknowledge 2 ⟨1, true, 1, 1, .whole⟩ 3, .promoteLearner 4]
    let run := ops.foldl LeaseOp.perform (LeaseRun.start config ())
    run.node.role = .leader ∧ run.node.lease.anchor = some 6 ∧
      ¬ ∃ voters : Finset Nat, (∀ peer ∈ voters, peer ∈ run.node.config.peers) ∧
        run.node.config.quorum - 1 ≤ voters.card ∧
        ∀ peer ∈ voters, run.Acknowledged 6 peer := by
  intro config ops run
  refine ⟨by decide, by decide, ?_⟩
  rintro ⟨voters, hpeers, hcard, hacked⟩
  have honly : ∀ peer ∈ run.node.config.peers, run.Acknowledged 6 peer → peer = 2 := by
    decide
  have hsub : voters ⊆ {2} := by
    intro peer hpeer
    rw [Finset.mem_singleton]
    exact honly peer (hpeers peer hpeer) (hacked peer hpeer)
  have hone : voters.card ≤ 1 := Finset.card_le_card hsub
  have hquorum : run.node.config.quorum - 1 = 2 := by decide
  omega

end NodeDB.Raft
