import NodeDB.CompletionRegistry
import NodeDB.StepRuns

/-!
# Agreement on verdicts

The replicas of the sequencer group apply one log.  A leader proposes the
verdict of a complete tally of its own; the proposal may reach the log much
later, after other votes and next to the proposals of other leaders.  A vote
of a participant replaces its earlier one.  While no vote turns a tally that
was complete already, all verdicts of a transaction agree.
-/

namespace NodeDB.Calvin

open Std List CompletionRegistry KeyedFold TreeMap

/-- The vshards that take part in each transaction. -/
structure Participation where
  vshards : TxnId → List UInt32
  distinct : ∀ txn, (vshards txn).Nodup

/-- The entries of the sequencer log that reach the registry. -/
inductive CompletionEntry where
  | batch (txn : TxnId)
  | vote (txn : TxnId) (vshard : UInt32) (vote : ParticipantVote)
  | verdict (txn : TxnId) (verdict : VerdictOutcome)
  | ack (txn : TxnId) (vshard : UInt32) (result : List UInt8)
  deriving DecidableEq, Repr

/-- A replica: its registry and how many entries of the log it has applied. -/
structure Replica where
  registry : CompletionRegistry
  applied : Nat

/-- The replicas, their common log and the verdicts that leaders proposed. -/
structure SequencerGroup (ν : Type) where
  log : List CompletionEntry
  proposed : List (TxnId × VerdictOutcome)
  replica : ν → Replica

inductive GroupAction (ν : Type) where
  | sequence (txn : TxnId)
  | castVote (txn : TxnId) (vshard : UInt32) (vote : ParticipantVote)
  | acknowledge (txn : TxnId) (vshard : UInt32) (result : List UInt8)
  | applyNext (node : ν) (now : Nat)
  | assign (node : ν) (now inboxSeq : Nat) (txn : TxnId)
  | register (node : ν) (now : Nat) (txn : TxnId) (report : Bool)
  | dropReceiver (node : ν) (channel : Nat)
  | setWaiterlessTtl (node : ν) (ttl : Nat)
  | propose (node : ν) (txn : TxnId) (verdict : VerdictOutcome)
  | commitVerdict (txn : TxnId) (verdict : VerdictOutcome)
  /-- A replica starts again with an empty registry and applies the log from
  `first` on. -/
  | restart (node : ν) (first : Nat)

namespace Replica

def applyEntry (participation : Participation) (registry : CompletionRegistry) (now : Nat) :
    CompletionEntry → CompletionRegistry
  | .batch txn => registry.seedExpected now txn (participation.vshards txn).length
  | .vote txn vshard vote => registry.noteVote now txn vshard vote
  | .verdict txn verdict => registry.noteVerdict now txn verdict
  | .ack txn vshard result => registry.noteCompletionAck now txn vshard result

def applyNext (participation : Participation) (log : List CompletionEntry) (replica : Replica)
    (now : Nat) : Replica :=
  match log[replica.applied]? with
  | none => replica
  | some entry =>
    { registry := applyEntry participation replica.registry now entry
      applied := replica.applied + 1 }

def Proposes (replica : Replica) (txn : TxnId) (verdict : VerdictOutcome) : Prop :=
  .proposal txn verdict ∈ replica.registry.sent ∨
    (txn, verdict) ∈ replica.registry.drainUnproposedVerdicts
  deriving Decidable

end Replica

namespace SequencerGroup

variable {ν : Type} [DecidableEq ν]

def start : SequencerGroup ν :=
  { log := [], proposed := [], replica := fun _ => { registry := .new, applied := 0 } }

def modifyReplica (group : SequencerGroup ν) (node : ν) (replica : Replica) :
    SequencerGroup ν :=
  { group with replica := fun other => if other = node then replica else group.replica other }

def modifyRegistry (group : SequencerGroup ν) (node : ν) (registry : CompletionRegistry) :
    SequencerGroup ν :=
  group.modifyReplica node { group.replica node with registry := registry }

def perform (participation : Participation) (group : SequencerGroup ν) :
    GroupAction ν → SequencerGroup ν
  | .sequence txn => { group with log := group.log ++ [.batch txn] }
  | .castVote txn vshard vote =>
    if vshard ∈ participation.vshards txn then
      { group with log := group.log ++ [.vote txn vshard vote] }
    else
      group
  | .acknowledge txn vshard result =>
    { group with log := group.log ++ [.ack txn vshard result] }
  | .applyNext node now =>
    group.modifyReplica node ((group.replica node).applyNext participation group.log now)
  | .assign node now inboxSeq txn =>
    group.modifyRegistry node ((group.replica node).registry.noteAssigned now inboxSeq txn
      (participation.vshards txn).length)
  | .register node now txn report =>
    group.modifyRegistry node ((group.replica node).registry.registerCompletion now txn
      (participation.vshards txn).length report)
  | .dropReceiver node channel =>
    group.modifyRegistry node ((group.replica node).registry.dropReceiver channel)
  | .setWaiterlessTtl node ttl =>
    group.modifyRegistry node ((group.replica node).registry.setWaiterlessTtl ttl)
  | .propose node txn verdict =>
    if (group.replica node).Proposes txn verdict then
      { group with proposed := group.proposed ++ [(txn, verdict)] }
    else
      group
  | .commitVerdict txn verdict =>
    if (txn, verdict) ∈ group.proposed then
      { group with log := group.log ++ [.verdict txn verdict] }
    else
      group
  | .restart node first =>
    group.modifyReplica node
      { registry := .new, applied := min first (group.replica node).applied }

end SequencerGroup

open SequencerGroup

/-! ## Tallies of the log -/

def countVote (txn : TxnId) (votes : TreeMap UInt32 ParticipantVote) :
    CompletionEntry → TreeMap UInt32 ParticipantVote
  | .vote voted vshard vote => if voted = txn then votes.insert vshard vote else votes
  | .batch _ => votes
  | .verdict _ _ => votes
  | .ack _ _ _ => votes

def tallied (log : List CompletionEntry) (txn : TxnId) : TreeMap UInt32 ParticipantVote :=
  log.foldl (countVote txn) ∅

/-- A vote that comes when all participants have voted repeats its
participant's decision, or another participant aborts anyway. -/
def KeepsTally (participation : Participation) (group : SequencerGroup ν) :
    GroupAction ν → Prop
  | .castVote txn vshard vote =>
    (tallied group.log txn).size = (participation.vshards txn).length →
      ((tallied group.log txn)[vshard]?).map ParticipantVote.isCommit = some vote.isCommit ∨
        ((tallied group.log txn).toList.any fun item =>
          decide (item.1 ≠ vshard) && !item.2.isCommit) = true
  | _ => True

instance (participation : Participation) (group : SequencerGroup ν) (action : GroupAction ν) :
    Decidable (KeepsTally participation group action) := by
  cases action <;> dsimp only [KeepsTally] <;> infer_instance

theorem tallied_append (log : List CompletionEntry) (entry : CompletionEntry) (txn : TxnId) :
    tallied (log ++ [entry]) txn = countVote txn (tallied log txn) entry := by
  unfold tallied
  rw [foldl_append]
  rfl

theorem tallyVerdict_insert {votes : TreeMap UInt32 ParticipantVote} {vshard : UInt32}
    {vote : ParticipantVote}
    (hkeeps : (votes[vshard]?).map ParticipantVote.isCommit = some vote.isCommit ∨
      (votes.toList.any fun item => decide (item.1 ≠ vshard) && !item.2.isCommit) = true) :
    (tallyVerdict (votes.insert vshard vote)).isCommit = (tallyVerdict votes).isCommit := by
  rw [Bool.eq_iff_iff, tallyVerdict_isCommit, tallyVerdict_isCommit]
  obtain hsame | hother := hkeeps
  · obtain ⟨replaced, hreplaced, hcommit⟩ := Option.map_eq_some_iff.mp hsame
    constructor
    · intro hall other found hfound
      by_cases heq : other = vshard
      · subst heq
        obtain rfl : replaced = found := Option.some.inj (hreplaced.symm.trans hfound)
        rw [hcommit]
        exact hall other vote getElem?_insert_self
      · exact hall other found ((getElem?_insert_ne _ heq _).trans hfound)
    · intro hall other found hfound
      rw [getElem?_insert_eq_some_iff] at hfound
      obtain ⟨rfl, rfl⟩ | ⟨-, hkept⟩ := hfound
      · rw [← hcommit]
        exact hall other replaced hreplaced
      · exact hall other found hkept
  · obtain ⟨⟨other, abort⟩, hmem, hitem⟩ := any_eq_true.mp hother
    rw [mem_toList_iff_getElem?_eq_some] at hmem
    rw [Bool.and_eq_true, decide_eq_true_eq, Bool.not_eq_true'] at hitem
    -- the other participant's abort decides both tallies
    constructor
    · intro hall
      have hcommit := hall other abort ((getElem?_insert_ne _ hitem.1 _).trans hmem)
      rw [hitem.2] at hcommit
      cases hcommit
    · intro hall
      have hcommit := hall other abort hmem
      rw [hitem.2] at hcommit
      cases hcommit

/-! ## Decided transactions -/

section Agreement

variable (participation : Participation)

def AllVoted (log : List CompletionEntry) (txn : TxnId) : Prop :=
  ∀ vshard ∈ participation.vshards txn, vshard ∈ tallied log txn

/-- At some point of the log all participants had voted, with this decision. -/
def Decided (log : List CompletionEntry) (txn : TxnId) (commit : Bool) : Prop :=
  ∃ prior, prior <+: log ∧ AllVoted participation prior txn ∧
    (tallyVerdict (tallied prior txn)).isCommit = commit

theorem Decided.append {participation : Participation} {log : List CompletionEntry} {txn : TxnId}
    {commit : Bool} (hdecided : Decided participation log txn commit)
    (entry : CompletionEntry) : Decided participation (log ++ [entry]) txn commit := by
  obtain ⟨prior, hprior, hvoted, htally⟩ := hdecided
  exact ⟨prior, hprior.trans (prefix_append log [entry]), hvoted, htally⟩

/-- Only participants vote, and the decisions of the log are those of its
latest votes. -/
structure Steady (log : List CompletionEntry) : Prop where
  voters : ∀ prior, prior <+: log → ∀ txn, ∀ vshard ∈ tallied prior txn,
    vshard ∈ participation.vshards txn
  steady : ∀ txn commit, Decided participation log txn commit →
    AllVoted participation log txn ∧ (tallyVerdict (tallied log txn)).isCommit = commit

theorem steady_nil : Steady participation [] := by
  constructor
  · intro prior hprior txn vshard hmem
    rw [prefix_nil.mp hprior] at hmem
    simp [tallied] at hmem
  · rintro txn commit ⟨prior, hprior, hvoted, htally⟩
    rw [prefix_nil.mp hprior] at hvoted htally
    exact ⟨hvoted, htally⟩

variable {participation} {log : List CompletionEntry}

section

variable (hsteady : Steady participation log)
include hsteady

variable {txn : TxnId}

theorem Steady.agree {commit commit' : Bool} (hdecided : Decided participation log txn commit)
    (hdecided' : Decided participation log txn commit') : commit = commit' :=
  (hsteady.steady txn commit hdecided).2.symm.trans (hsteady.steady txn commit' hdecided').2

theorem Steady.append (entry : CompletionEntry)
    (hvoters : ∀ txn vshard, vshard ∈ countVote txn (tallied log txn) entry →
      vshard ∈ participation.vshards txn) (hkept : ∀ txn vshard, vshard ∈ tallied log txn →
      vshard ∈ countVote txn (tallied log txn) entry)
    (htallies : ∀ txn, AllVoted participation log txn →
      (tallyVerdict (countVote txn (tallied log txn) entry)).isCommit =
        (tallyVerdict (tallied log txn)).isCommit) : Steady participation (log ++ [entry]) := by
  constructor
  · intro prior hprior txn vshard hmem
    obtain rfl | hprior := prefix_concat_iff.mp hprior
    · rw [tallied_append] at hmem
      exact hvoters txn vshard hmem
    · exact hsteady.voters prior hprior txn vshard hmem
  · rintro txn commit ⟨prior, hprior, hvoted, htally⟩
    obtain rfl | hprior := prefix_concat_iff.mp hprior
    · exact ⟨hvoted, htally⟩
    · obtain ⟨hall, hcommit⟩ := hsteady.steady txn commit ⟨prior, hprior, hvoted, htally⟩
      constructor
      · intro vshard hmem
        rw [tallied_append]
        exact hkept txn vshard (hall vshard hmem)
      · rwa [tallied_append, htallies txn hall]

theorem Steady.append_vote {vshard : UInt32} {vote : ParticipantVote}
    (hvoter : vshard ∈ participation.vshards txn)
    (hkeeps : (tallied log txn).size = (participation.vshards txn).length →
      ((tallied log txn)[vshard]?).map ParticipantVote.isCommit = some vote.isCommit ∨
        ((tallied log txn).toList.any fun item =>
          decide (item.1 ≠ vshard) && !item.2.isCommit) = true) :
    Steady participation (log ++ [.vote txn vshard vote]) := by
  apply hsteady.append
  · intro other voter hmem
    simp only [countVote] at hmem
    split at hmem
    next heq =>
      subst heq
      rw [mem_insert, LawfulEqOrd.compare_eq_iff_eq] at hmem
      obtain rfl | hmem := hmem
      · exact hvoter
      · exact hsteady.voters log prefix_rfl txn voter hmem
    next => exact hsteady.voters log prefix_rfl other voter hmem
  · intro other voter hmem
    simp only [countVote]
    split
    · exact mem_insert.mpr (Or.inr hmem)
    · exact hmem
  · intro other hall
    simp only [countVote]
    split
    next heq =>
      subst heq
      have hsize := size_eq_length (participation.distinct txn)
        (hsteady.voters log prefix_rfl txn) hall
      exact tallyVerdict_insert (hkeeps hsize)
    next => rfl

theorem Steady.append_other {entry : CompletionEntry}
    (hother : ∀ txn votes, countVote txn votes entry = votes) :
    Steady participation (log ++ [entry]) := by
  apply hsteady.append
  · simpa only [hother] using hsteady.voters log prefix_rfl
  · simp only [hother, imp_self, implies_true]
  · simp only [hother, implies_true]

end

/-! ## Replicas -/

/-- What a replica knows of a transaction: only latest votes, the number of
participants if any, and a verdict that was decided. -/
structure Knows (participation : Participation) (log : List CompletionEntry)
    (votes : TxnId → TreeMap UInt32 ParticipantVote) (txn : TxnId) (entry : PendingCompletion) :
    Prop where
  latest : ∀ (vshard : UInt32) (vote : ParticipantVote), entry.votes[vshard]? = some vote →
    (votes txn)[vshard]? = some vote
  expected : entry.expectedParticipants = 0 ∨
    entry.expectedParticipants = (participation.vshards txn).length
  stored : ∀ verdict, entry.verdict = some verdict →
    Decided participation log txn verdict.isCommit

namespace Knows

variable {votes : TxnId → TreeMap UInt32 ParticipantVote} {txn : TxnId}
  {entry before : PendingCompletion}

theorem new (participation : Participation) (log : List CompletionEntry)
    (votes : TxnId → TreeMap UInt32 ParticipantVote) (txn : TxnId) (now : Nat) :
    Knows participation log votes txn (.new now) := by
  refine ⟨?_, Or.inl rfl, ?_⟩ <;> simp [PendingCompletion.new]

theorem seed (hknows : Knows participation log votes txn entry) :
    Knows participation log votes txn (entry.seed (participation.vshards txn).length) := by
  refine ⟨hknows.latest, Or.inr ?_, hknows.stored⟩
  change max entry.expectedParticipants _ = _
  obtain hexpected | hexpected := hknows.expected
  · rw [hexpected, Nat.zero_max]
  · rw [hexpected, Nat.max_self]

theorem agrees (hknows : Knows participation log votes txn before)
    (hagrees : entry.Agrees before) : Knows participation log votes txn entry :=
  ⟨hagrees.votes ▸ hknows.latest, hagrees.expected ▸ hknows.expected,
    hagrees.verdict ▸ hknows.stored⟩

theorem storeVerdict (hknows : Knows participation log votes txn entry)
    {verdict : VerdictOutcome} (hdecided : Decided participation log txn verdict.isCommit) :
    Knows participation log votes txn (CompletionRegistry.storeVerdict verdict entry) := by
  obtain heq | heq := storeVerdict_cases verdict entry <;> rw [heq]
  · refine { hknows with stored := ?_ }
    rintro _ ⟨⟩
    exact hdecided
  · exact hknows

theorem decided (hknows : Knows participation log (tallied prior) txn entry)
    (hprior : prior <+: log)
    (hvoters : ∀ vshard ∈ tallied prior txn, vshard ∈ participation.vshards txn)
    (hcomplete : entry.tallyComplete = true) :
    Decided participation log txn (tallyVerdict entry.votes).isCommit := by
  unfold PendingCompletion.tallyComplete at hcomplete
  rw [Bool.and_eq_true, decide_eq_true_eq, decide_eq_true_eq] at hcomplete
  obtain ⟨hpos, hsize⟩ := hcomplete
  have hlength : entry.votes.size = (participation.vshards txn).length := by
    obtain hexpected | hexpected := hknows.expected
    · omega
    · exact hsize.trans hexpected
  have hcounted : ∀ vshard ∈ entry.votes, vshard ∈ tallied prior txn := by
    intro vshard hmem
    obtain ⟨vote, hvote⟩ := (mem_iff_exists _ _).mp hmem
    exact mem_of_getElem? (hknows.latest vshard vote hvote)
  have hall := mem_of_length_le_size
    (fun vshard hmem => hvoters vshard (hcounted vshard hmem)) hlength.ge
  refine ⟨prior, hprior, fun vshard hmem => hcounted vshard (hall vshard hmem), ?_⟩
  rw [Bool.eq_iff_iff, tallyVerdict_isCommit, tallyVerdict_isCommit]
  constructor
  · intro hcommit vshard vote hvote
    exact hcommit vshard vote (hknows.latest vshard vote hvote)
  · intro hcommit vshard vote hvote
    have hmem := mem_of_getElem? hvote
    obtain ⟨own, hown⟩ := (mem_iff_exists _ _).mp (hall vshard (hvoters vshard hmem))
    have hsame := (hknows.latest vshard own hown).symm.trans hvote
    exact Option.some.inj hsame ▸ hcommit vshard own hown

end Knows

/-- The replica knows what the part of the log it applied says. -/
structure Replica.Sound (participation : Participation) (log : List CompletionEntry)
    (replica : Replica) : Prop where
  applied : replica.applied ≤ log.length
  entries : replica.registry.Everywhere
    (Knows participation log (tallied (log.take replica.applied)))
  proposals : ∀ txn verdict, .proposal txn verdict ∈ replica.registry.sent →
    Decided participation log txn verdict.isCommit

namespace Replica.Sound

theorem new {applied : Nat} (hle : applied ≤ log.length) :
    Sound participation log { registry := .new, applied := applied } := by
  refine ⟨hle, ?_, ?_⟩ <;> simp [CompletionRegistry.Everywhere, CompletionRegistry.new]

variable {replica : Replica}

section

variable (hsound : replica.Sound participation log)
include hsound

theorem append (entry : CompletionEntry) : replica.Sound participation (log ++ [entry]) := by
  refine ⟨?_, ?_, fun txn verdict hsent => (hsound.proposals txn verdict hsent).append entry⟩
  · rw [length_append]
    exact hsound.applied.trans (Nat.le_add_right _ _)
  · rw [take_append_of_le_length hsound.applied]
    intro txn known hentry
    have hknows := hsound.entries txn known hentry
    exact { hknows with
      stored := fun verdict hverdict => (hknows.stored verdict hverdict).append entry }

theorem of_registry {registry : CompletionRegistry} (hentries : registry.Everywhere
      (Knows participation log (tallied (log.take replica.applied))))
    (hproposals : ∀ txn verdict, .proposal txn verdict ∈ registry.sent →
      .proposal txn verdict ∈ replica.registry.sent) :
    Sound participation log { replica with registry := registry } :=
  ⟨hsound.applied, hentries, fun txn verdict hsent =>
    hsound.proposals txn verdict (hproposals txn verdict hsent)⟩

theorem noteAssigned (now inboxSeq : Nat) (txn : TxnId) :
    Sound participation log { replica with
      registry := replica.registry.noteAssigned now inboxSeq txn
        (participation.vshards txn).length } := by
  apply hsound.of_registry
  · exact hsound.entries.noteAssigned now inboxSeq txn _ (Knows.new _ _ _ _ _)
      fun entry hknows => hknows.seed
  · intro other verdict hsent
    unfold CompletionRegistry.noteAssigned at hsent
    rw [modifyEntry_sent] at hsent
    split at hsent
    · simpa using hsent
    · exact hsent

theorem registerCompletion (now : Nat) (txn : TxnId) (report : Bool) :
    Sound participation log { replica with
      registry := replica.registry.registerCompletion now txn
        (participation.vshards txn).length report } := by
  apply hsound.of_registry
  · refine hsound.entries.registerCompletion
      (fun _ _ _ hagrees hknows => hknows.agrees hagrees) now txn (Knows.new _ _ _ _ _) _ _ ?_
    exact fun entry hknows => { hknows.seed with }
  · exact fun _ _ hsent => by simpa only [modifyEntry_sent] using proposal_of_settle hsent

theorem dropReceiver (channel : Nat) :
    Sound participation log { replica with
      registry := replica.registry.dropReceiver channel } :=
  hsound.of_registry hsound.entries fun _ _ hsent => hsent

theorem setWaiterlessTtl (ttl : Nat) :
    Sound participation log { replica with
      registry := replica.registry.setWaiterlessTtl ttl } :=
  hsound.of_registry hsound.entries fun _ _ hsent => hsent

variable {txn : TxnId} {verdict : VerdictOutcome}

theorem proposes (hsteady : Steady participation log) (hproposes : replica.Proposes txn verdict) :
    Decided participation log txn verdict.isCommit := by
  obtain hsent | hdrained := hproposes
  · exact hsound.proposals txn verdict hsent
  · obtain ⟨⟨found, entry⟩, hmem, heq⟩ := mem_map.mp hdrained
    obtain ⟨hmem, hcomplete⟩ := mem_filter.mp hmem
    cases heq
    rw [Bool.and_eq_true] at hcomplete
    rw [mem_toList_iff_getElem?_eq_some] at hmem
    exact (hsound.entries found entry hmem).decided (List.take_prefix _ _)
      (hsteady.voters _ (List.take_prefix _ _) found) hcomplete.1

theorem applyBatch (now : Nat) (txn : TxnId) :
    Sound participation log { replica with
      registry := replica.registry.seedExpected now txn (participation.vshards txn).length } := by
  apply hsound.of_registry
  · refine hsound.entries.seedExpected now txn _ (Knows.new _ _ _ _ _) ?_
    exact fun entry hknows => { hknows with expected := hknows.seed.expected }
  · exact fun _ _ hsent => hsent

theorem applyAck (now : Nat) (txn : TxnId) (vshard : UInt32) (result : List UInt8) :
    Sound participation log { replica with
      registry := replica.registry.noteCompletionAck now txn vshard result } := by
  apply hsound.of_registry
  · refine hsound.entries.noteCompletionAck
      (fun _ _ _ hagrees hknows => hknows.agrees hagrees) now txn (Knows.new _ _ _ _ _) _ _ ?_
    exact fun entry results hknows => { hknows with }
  · exact fun _ _ hsent => by simpa only [modifyEntry_sent] using proposal_of_settle hsent

theorem applyVerdict (now : Nat) (hdecided : Decided participation log txn verdict.isCommit) :
    Sound participation log { replica with
      registry := replica.registry.noteVerdict now txn verdict } := by
  apply hsound.of_registry
  · exact hsound.entries.noteVerdict
      (fun _ _ _ hagrees hknows => hknows.agrees hagrees) now txn (Knows.new _ _ _ _ _) verdict
      fun entry hknows => hknows.storeVerdict hdecided
  · intro other proposed hsent
    have hbefore := proposal_of_settle hsent
    simp only [broadcast, modifyEntry_sent,
      mem_append, mem_map, reduceCtorEq, and_false, exists_false, or_false] at hbefore
    exact hbefore

theorem noteVote_knows (now : Nat) {vshard : UInt32} {vote : ParticipantVote}
    {votes : TxnId → TreeMap UInt32 ParticipantVote} (hvotes : ∀ other, votes other =
      countVote other (tallied (log.take replica.applied) other) (.vote txn vshard vote)) :
    (replica.registry.noteVote now txn vshard vote).Everywhere
      (Knows participation log votes) := by
  refine hsound.entries.noteVote (Q := Knows participation log votes) now txn vshard vote
    (Knows.new _ _ _ _ _) ?_
    (fun entry hknows => { hknows with }) ?_
  · intro entry hknows
    refine { hknows with latest := fun other found hfound => ?_ }
    rw [hvotes]
    simp only [countVote, if_true]
    by_cases heq : other = vshard
    · subst heq
      rw [getElem?_insert_self] at hfound ⊢
      exact hfound
    · rw [getElem?_insert_ne _ heq] at hfound ⊢
      exact hknows.latest other found hfound
  · intro other entry hne hknows
    refine { hknows with latest := ?_ }
    rw [hvotes]
    simp only [countVote, if_neg (Ne.symm hne)]
    exact hknows.latest

theorem applyNext (hsteady : Steady participation log)
    (hverdicts : ∀ txn verdict, .verdict txn verdict ∈ log →
      Decided participation log txn verdict.isCommit) (now : Nat) :
    Sound participation log (replica.applyNext participation log now) := by
  unfold Replica.applyNext
  split
  · exact hsound
  next entry hentry =>
    have hlt : replica.applied < log.length := (List.getElem?_eq_some_iff.mp hentry).1
    have htallied : ∀ txn, tallied (log.take (replica.applied + 1)) txn =
        countVote txn (tallied (log.take replica.applied) txn) entry := by
      intro txn
      rw [take_add_one, hentry]
      exact tallied_append _ _ _
    -- an entry that is not a vote leaves the tallies the replica is measured by
    have hstep : ∀ registry,
        Sound participation log { replica with registry := registry } →
        (∀ txn votes, countVote txn votes entry = votes) →
        Sound participation log { registry := registry, applied := replica.applied + 1 } := by
      intro registry happlied hother
      refine ⟨hlt, ?_, happlied.proposals⟩
      intro txn known hknown
      have hknows := happlied.entries txn known hknown
      refine { hknows with latest := ?_ }
      rw [htallied, hother]
      exact hknows.latest
    cases entry with
    | batch txn => exact hstep _ (hsound.applyBatch now txn) fun _ _ => rfl
    | ack txn vshard result =>
      exact hstep _ (hsound.applyAck now txn vshard result) fun _ _ => rfl
    | verdict txn verdict =>
      exact hstep _ (hsound.applyVerdict now
        (hverdicts txn verdict (mem_of_getElem? hentry))) fun _ _ => rfl
    | vote txn vshard vote =>
      have hentries := hsound.noteVote_knows now htallied
      refine ⟨hlt, hentries, ?_⟩
      intro other verdict hsent
      obtain hsent | ⟨known, hknown, hcomplete, rfl⟩ :=
        proposal_of_noteVote hsent
      · exact hsound.proposals other verdict hsent
      · exact (hentries other known hknown).decided (List.take_prefix _ _)
          (hsteady.voters _ (List.take_prefix _ _) other) hcomplete

end

end Replica.Sound

/-! ## Runs -/

/-- Proposals and the verdicts of the log were decided, and every replica has
applied part of the log. -/
structure SequencerGroup.Sound {ν : Type} (participation : Participation)
    (group : SequencerGroup ν) : Prop where
  steady : Steady participation group.log
  proposed : ∀ txn verdict, (txn, verdict) ∈ group.proposed →
    Decided participation group.log txn verdict.isCommit
  verdicts : ∀ txn verdict, .verdict txn verdict ∈ group.log →
    Decided participation group.log txn verdict.isCommit
  replicas : ∀ node, (group.replica node).Sound participation group.log

namespace SequencerGroup.Sound

variable {ν : Type} [DecidableEq ν] {group : SequencerGroup ν}

section

variable (hsound : group.Sound participation)
include hsound

omit [DecidableEq ν] in
theorem append {entry : CompletionEntry} (hsteady : Steady participation (group.log ++ [entry]))
    (hverdict : ∀ txn verdict, entry = .verdict txn verdict →
      Decided participation group.log txn verdict.isCommit) :
    Sound participation { group with log := group.log ++ [entry] } := by
  refine ⟨hsteady, ?_, ?_, fun node => (hsound.replicas node).append entry⟩
  · intro txn verdict hmem
    exact (hsound.proposed txn verdict hmem).append entry
  · intro txn verdict hmem
    rw [mem_append, mem_singleton] at hmem
    obtain hmem | hmem := hmem
    · exact (hsound.verdicts txn verdict hmem).append entry
    · exact (hverdict txn verdict hmem.symm).append entry

theorem modifyReplica (node : ν) {replica : Replica}
    (hreplica : replica.Sound participation group.log) :
    Sound participation (group.modifyReplica node replica) := by
  refine ⟨hsound.steady, hsound.proposed, hsound.verdicts, ?_⟩
  intro other
  unfold SequencerGroup.modifyReplica
  dsimp only
  split
  · exact hreplica
  · exact hsound.replicas other

theorem perform (action : GroupAction ν) (hkeeps : KeepsTally participation group action) :
    (group.perform participation action).Sound participation := by
  cases action with
  | sequence txn | acknowledge txn vshard result =>
    exact hsound.append (hsound.steady.append_other fun _ _ => rfl) fun _ _ heq => by cases heq
  | castVote txn vshard vote =>
    simp only [SequencerGroup.perform]
    split
    next hvoter =>
      exact hsound.append (hsound.steady.append_vote hvoter hkeeps)
        fun _ _ heq => by cases heq
    next => exact hsound
  | applyNext node now =>
    exact hsound.modifyReplica node
      ((hsound.replicas node).applyNext hsound.steady hsound.verdicts now)
  | assign node now inboxSeq txn =>
    exact hsound.modifyReplica node ((hsound.replicas node).noteAssigned now inboxSeq txn)
  | register node now txn report =>
    exact hsound.modifyReplica node ((hsound.replicas node).registerCompletion now txn report)
  | dropReceiver node channel =>
    exact hsound.modifyReplica node ((hsound.replicas node).dropReceiver channel)
  | setWaiterlessTtl node ttl =>
    exact hsound.modifyReplica node ((hsound.replicas node).setWaiterlessTtl ttl)
  | propose node txn verdict =>
    simp only [SequencerGroup.perform]
    split
    next hproposes =>
      refine ⟨hsound.steady, ?_, hsound.verdicts, hsound.replicas⟩
      intro other proposed hmem
      rw [mem_append, mem_singleton] at hmem
      obtain hmem | hmem := hmem
      · exact hsound.proposed other proposed hmem
      · cases hmem
        exact (hsound.replicas node).proposes hsound.steady hproposes
    next => exact hsound
  | commitVerdict txn verdict =>
    simp only [SequencerGroup.perform]
    split
    next hproposed =>
      refine hsound.append (hsound.steady.append_other fun _ _ => rfl) ?_
      intro other committed heq
      cases heq
      exact hsound.proposed txn verdict hproposed
    next => exact hsound
  | restart node first =>
    exact hsound.modifyReplica node
      (.new ((Nat.min_le_right _ _).trans (hsound.replicas node).applied))

omit [DecidableEq ν] in
theorem decided_of_verdict {node : ν} {txn : TxnId}
    {commit : Bool} (hverdict : (group.replica node).registry.verdict txn = some commit) :
    Decided participation group.log txn commit := by
  obtain ⟨stored, hstored, rfl⟩ := Option.map_eq_some_iff.mp hverdict
  obtain ⟨entry, hentry, hstored⟩ := Option.bind_eq_some_iff.mp hstored
  exact ((hsound.replicas node).entries txn entry hentry).stored stored hstored

end

end SequencerGroup.Sound

variable {ν : Type}

theorem group_sound_start (participation : Participation) :
    (SequencerGroup.start : SequencerGroup ν).Sound participation := by
  refine ⟨steady_nil participation, ?_, ?_, fun node => .new (Nat.le_refl 0)⟩ <;>
    simp [start]

theorem log_prefix_perform [DecidableEq ν] (participation : Participation)
    (group : SequencerGroup ν) (action : GroupAction ν) :
    group.log <+: (group.perform participation action).log := by
  cases action with
  | castVote txn vshard vote | commitVerdict txn verdict =>
    simp only [SequencerGroup.perform]
    split
    · exact prefix_append _ _
    · exact prefix_rfl
  | propose node txn verdict =>
    simp only [SequencerGroup.perform]
    split <;> exact prefix_rfl
  | sequence txn | acknowledge txn vshard result => exact prefix_append _ _
  | applyNext node now | assign node now inboxSeq txn | register node now txn report
  | dropReceiver node channel | setWaiterlessTtl node ttl | restart node first =>
    exact prefix_rfl

theorem log_prefix_foldl [DecidableEq ν] (participation : Participation)
    (actions : List (GroupAction ν)) (group : SequencerGroup ν) :
    group.log <+: (actions.foldl (SequencerGroup.perform participation) group).log := by
  induction actions generalizing group with
  | nil => exact prefix_rfl
  | cons action rest ih =>
    exact (log_prefix_perform participation group action).trans (ih _)

end Agreement

/-- In every run whose votes keep complete tallies, a verdict that some replica
has stored is the verdict that every replica reads from then on. -/
theorem verdicts_agree {ν : Type} [DecidableEq ν] (participation : Participation)
    (before after : List (GroupAction ν))
    (hkeeps : StepRuns.Along (SequencerGroup.perform participation) (KeepsTally participation)
      SequencerGroup.start (before ++ after))
    (node other : ν) (txn : TxnId) (commit later : Bool)
    (hstored : ((before.foldl (SequencerGroup.perform participation)
      SequencerGroup.start).replica node).registry.verdict txn = some commit)
    (hlater : (((before ++ after).foldl (SequencerGroup.perform participation)
      SequencerGroup.start).replica other).registry.verdict txn = some later) : commit = later := by
  have hrule : ∀ (actions : List (GroupAction ν)),
      StepRuns.Along (SequencerGroup.perform participation) (KeepsTally participation)
        start actions →
      (actions.foldl (SequencerGroup.perform participation)
        start).Sound participation := fun actions halong =>
    StepRuns.invariant_foldl (fun group : SequencerGroup ν => group.Sound participation)
      (fun group action hsound hkeep => hsound.perform action hkeep)
      (group_sound_start participation) halong
  have hearly := hrule before ((StepRuns.along_append _ _ _ _ _).mp hkeeps).1
  have hlate := hrule (before ++ after) hkeeps
  obtain ⟨prior, hprior, hvoted, htally⟩ := hearly.decided_of_verdict hstored
  have hlogs := log_prefix_foldl participation after
    (before.foldl (SequencerGroup.perform participation) start)
  rw [← foldl_append] at hlogs
  exact hlate.steady.agree ⟨prior, hprior.trans hlogs, hvoted, htally⟩
    (hlate.decided_of_verdict hlater)

/-- Two participants vote commit, one of them twice, and two leaders propose
the verdict. -/
theorem verdicts_agree_twice :
    let participation : Participation := ⟨fun _ => [1, 2], fun _ => by decide⟩
    let before : List (GroupAction Bool) :=
      [.sequence ⟨3, 0⟩, .castVote ⟨3, 0⟩ 1 .commit, .castVote ⟨3, 0⟩ 2 .commit,
        .applyNext true 0, .applyNext true 0, .applyNext true 0, .propose true ⟨3, 0⟩ .commit,
        .commitVerdict ⟨3, 0⟩ .commit, .applyNext true 0]
    let after : List (GroupAction Bool) :=
      [.castVote ⟨3, 0⟩ 2 .commit, .applyNext false 0, .applyNext false 0, .applyNext false 0,
        .propose false ⟨3, 0⟩ .commit, .commitVerdict ⟨3, 0⟩ .commit, .applyNext false 0,
        .applyNext false 0, .applyNext false 0]
    ∃ commit later, ((before.foldl (SequencerGroup.perform participation)
        start).replica true).registry.verdict ⟨3, 0⟩ = some commit ∧
      (((before ++ after).foldl (SequencerGroup.perform participation)
        start).replica false).registry.verdict ⟨3, 0⟩ = some later ∧
      commit = later := by
  intro participation before after
  refine ⟨true, true, by decide, by decide, ?_⟩
  exact verdicts_agree participation before after (by decide) true false ⟨3, 0⟩ true true
    (by decide) (by decide)

/-- A participant votes abort and, while the verdict is on its way, commit.
The leader proposes both tallies and the second verdict overwrites the
first. -/
theorem verdict_overwritten :
    let participation : Participation := ⟨fun _ => [1, 2], fun _ => by decide⟩
    let cause : AbortCause := { reason := .participantError, refusal := none }
    let before : List (GroupAction Unit) :=
      [.sequence ⟨3, 0⟩, .castVote ⟨3, 0⟩ 1 .commit, .castVote ⟨3, 0⟩ 2 (.abort cause),
        .applyNext () 0, .applyNext () 0, .applyNext () 0,
        .propose () ⟨3, 0⟩ (.abort cause), .castVote ⟨3, 0⟩ 2 .commit, .applyNext () 0,
        .propose () ⟨3, 0⟩ .commit, .commitVerdict ⟨3, 0⟩ (.abort cause), .applyNext () 0]
    let after : List (GroupAction Unit) :=
      [.commitVerdict ⟨3, 0⟩ .commit, .applyNext () 0]
    ((before.foldl (SequencerGroup.perform participation)
        start).replica ()).registry.verdict ⟨3, 0⟩ = some false ∧
      (((before ++ after).foldl (SequencerGroup.perform participation)
        start).replica ()).registry.verdict ⟨3, 0⟩ = some true := by
  decide

end NodeDB.Calvin
