import NodeDB.LockEntry
import NodeDB.KeyedFold

/-!
# The completion registry of one sequencer replica

Every replica keeps an entry for each transaction it hears of.  The entry
collects the votes of the participants, the verdict and the acknowledgements,
and answers the coordinator that waits on it once the transaction is decided
and every participant acknowledged.  Entries that nobody will collect are
swept after a window of time.  Whatever the registry hands out is kept in the
order in which it was sent.
-/

namespace NodeDB.Calvin

open Std KeyedFold

inductive AbortReason where
  | serializationConflict
  | participantError
  | collectionSuperseded
  | predictionDrift
  | partsLost
  | planRejected
  deriving DecidableEq, Repr

structure AbortCause where
  reason : AbortReason
  refusal : Option (List UInt8)
  deriving DecidableEq, Repr

inductive ParticipantVote where
  | commit
  | abort (cause : AbortCause)
  deriving DecidableEq, Repr

inductive VerdictOutcome where
  | commit
  | abort (cause : AbortCause)
  deriving DecidableEq, Repr

inductive AttemptOutcome where
  | completed
  | aborted (cause : AbortCause)
  deriving DecidableEq, Repr

def VerdictOutcome.isCommit : VerdictOutcome → Bool
  | commit => true
  | abort _ => false

def ParticipantVote.isCommit : ParticipantVote → Bool
  | commit => true
  | abort _ => false

def outcomeFor : VerdictOutcome → AttemptOutcome
  | .commit => .completed
  | .abort cause => .aborted cause

/-! ## The tally -/

def AbortCause.rank (cause : AbortCause) : Nat :=
  match cause.reason with
  | .partsLost => 6
  | .planRejected => 5
  | .participantError => if cause.refusal.isSome then 4 else 3
  | .collectionSuperseded => 2
  | .predictionDrift => 1
  | .serializationConflict => 0

/-- The cause held after one more vote: a strictly higher rank replaces it. -/
def heldCause (held : Option AbortCause) : ParticipantVote → Option AbortCause
  | .commit => held
  | .abort cause =>
    match held with
    | none => some cause
    | some best => if best.rank < cause.rank then some cause else some best

def tallyVerdict (votes : TreeMap UInt32 ParticipantVote) : VerdictOutcome :=
  match (votes.toList.map Prod.snd).foldl heldCause none with
  | some cause => .abort cause
  | none => .commit

theorem foldl_heldCause_eq_none (votes : List ParticipantVote) (held : Option AbortCause) :
    votes.foldl heldCause held = none ↔
      held = none ∧ ∀ vote ∈ votes, vote.isCommit = true := by
  induction votes generalizing held with
  | nil => simp
  | cons vote rest ih =>
    rw [List.foldl_cons, ih, List.forall_mem_cons]
    cases vote with
    | commit => simp [heldCause, ParticipantVote.isCommit]
    | abort cause =>
      have hheld : heldCause held (.abort cause) ≠ none := by
        unfold heldCause
        cases held with
        | none => simp
        | some best =>
          dsimp only
          split
          · simp
          · simp
      simp [hheld, ParticipantVote.isCommit]

theorem tallyVerdict_isCommit (votes : TreeMap UInt32 ParticipantVote) :
    (tallyVerdict votes).isCommit = true ↔
      ∀ (vshard : UInt32) (vote : ParticipantVote), votes[vshard]? = some vote →
        vote.isCommit = true := by
  have hnone : (tallyVerdict votes).isCommit = true ↔
      (votes.toList.map Prod.snd).foldl heldCause none = none := by
    unfold tallyVerdict
    cases (votes.toList.map Prod.snd).foldl heldCause none with
    | none | some cause => simp [VerdictOutcome.isCommit]
  rw [hnone, foldl_heldCause_eq_none]
  constructor
  · rintro ⟨-, hall⟩ vshard vote hvote
    exact hall vote (List.mem_map.mpr
      ⟨(vshard, vote), TreeMap.mem_toList_iff_getElem?_eq_some.mpr hvote, rfl⟩)
  · intro hall
    refine ⟨rfl, ?_⟩
    intro vote hmem
    obtain ⟨⟨vshard, listed⟩, hlisted, rfl⟩ := List.mem_map.mp hmem
    exact hall vshard listed (TreeMap.mem_toList_iff_getElem?_eq_some.mp hlisted)

/-! ## Entries -/

/-- The coordinator's end of a one-shot channel.  A report also carries the
apply results. -/
structure CompletionWaiter where
  channel : Nat
  report : Bool
  deriving DecidableEq, Repr

structure PendingCompletion where
  expectedParticipants : Nat
  ackedVshards : TreeSet UInt32
  ackResults : TreeMap UInt32 (List UInt8)
  completionTx : Option CompletionWaiter
  abandoned : Bool
  votes : TreeMap UInt32 ParticipantVote
  verdict : Option VerdictOutcome
  verdictProposed : Bool
  parked : Bool
  sequenced : Bool
  created : Nat

namespace PendingCompletion

def new (created : Nat) : PendingCompletion :=
  { expectedParticipants := 0, ackedVshards := ∅, ackResults := ∅, completionTx := none,
    abandoned := false, votes := ∅, verdict := none, verdictProposed := false,
    parked := false, sequenced := false, created := created }

def hasWaiter (entry : PendingCompletion) : Bool :=
  entry.completionTx.isSome

def isComplete (entry : PendingCompletion) : Bool :=
  decide (0 < entry.expectedParticipants) &&
    decide (entry.expectedParticipants ≤ entry.ackedVshards.size)

def isTerminal (entry : PendingCompletion) : Bool :=
  entry.abandoned || (entry.verdict.isSome && entry.isComplete)

def tallyComplete (entry : PendingCompletion) : Bool :=
  decide (0 < entry.expectedParticipants) &&
    decide (entry.votes.size = entry.expectedParticipants)

def seed (expected : Nat) (entry : PendingCompletion) : PendingCompletion :=
  { entry with expectedParticipants := max entry.expectedParticipants expected }

end PendingCompletion

/-! ## The registry -/

inductive Emission where
  | assigned (inboxSeq : Nat) (txn : TxnId) (participants : Nat)
  | proposal (txn : TxnId) (verdict : VerdictOutcome)
  | signal (vshard : UInt32) (txn : TxnId) (commit : Bool)
  | outcome (txn : TxnId) (channel : Nat) (outcome : AttemptOutcome)
      (results : List (List UInt8))
  deriving DecidableEq, Repr

structure CompletionRegistry where
  assignments : TreeSet Nat
  completions : TreeMap TxnId PendingCompletion
  verdictSignalSenders : TreeSet UInt32
  waiterless : List (Nat × TxnId)
  orphans : List (Nat × TxnId)
  waiterlessTtl : Option Nat
  channels : Nat
  closed : TreeSet Nat
  sent : List Emission

namespace CompletionRegistry

def defaultWaiterlessTtl : Nat := 120

def new : CompletionRegistry :=
  { assignments := ∅, completions := ∅, verdictSignalSenders := ∅, waiterless := [],
    orphans := [], waiterlessTtl := none, channels := 0, closed := ∅, sent := [] }

def window (registry : CompletionRegistry) : Nat :=
  registry.waiterlessTtl.getD defaultWaiterlessTtl

def isLive (registry : CompletionRegistry) (waiter : CompletionWaiter) : Bool :=
  !registry.closed.contains waiter.channel

def hasLiveWaiter (registry : CompletionRegistry) (entry : PendingCompletion) : Bool :=
  entry.completionTx.any registry.isLive

/-- Change the entry of `txn`.  A missing one is created and joins the
orphans. -/
def modifyEntry (registry : CompletionRegistry) (now : Nat) (txn : TxnId)
    (change : PendingCompletion → PendingCompletion) : CompletionRegistry :=
  match registry.completions[txn]? with
  | some entry =>
    { registry with completions := registry.completions.insert txn (change entry) }
  | none =>
    { registry with
      completions := registry.completions.insert txn (change (.new now))
      orphans := registry.orphans ++ [(now, txn)] }

/-! ## Eviction -/

def parkWaiterless (registry : CompletionRegistry) (txn : TxnId) (now : Nat) :
    CompletionRegistry :=
  match registry.completions[txn]? with
  | none => registry
  | some entry =>
    if entry.parked || entry.hasWaiter || !entry.isTerminal then
      registry
    else
      { registry with
        completions := registry.completions.insert txn { entry with parked := true }
        waiterless := registry.waiterless ++ [(now, txn)] }

/-- Take the slots whose window passed off the queue, and the entries among
them that are still without a waiter. -/
def sweepSlots (now window : Nat) (completions : TreeMap TxnId PendingCompletion) :
    List (Nat × TxnId) → List (Nat × TxnId) × TreeMap TxnId PendingCompletion
  | [] => ([], completions)
  | (since, txn) :: rest =>
    if now - since < window then
      ((since, txn) :: rest, completions)
    else
      let kept :=
        match completions[txn]? with
        | none => completions
        | some entry => if entry.hasWaiter then completions else completions.erase txn
      sweepSlots now window kept rest

def sweepWaiterless (registry : CompletionRegistry) (now : Nat) : CompletionRegistry :=
  let swept := sweepSlots now registry.window registry.completions registry.waiterless
  { registry with waiterless := swept.1, completions := swept.2 }

/-- The same for the orphans.  A slot is skipped when its entry is sequenced,
parked or younger than the window; one with a live waiter is queued again. -/
def sweepOrphanSlots (live : PendingCompletion → Bool) (now window : Nat)
    (completions : TreeMap TxnId PendingCompletion) (waitedOn : List (Nat × TxnId)) :
    List (Nat × TxnId) → List (Nat × TxnId) × TreeMap TxnId PendingCompletion
  | [] => (waitedOn, completions)
  | (since, txn) :: rest =>
    if now - since < window then
      ((since, txn) :: rest ++ waitedOn, completions)
    else
      match completions[txn]? with
      | none => sweepOrphanSlots live now window completions waitedOn rest
      | some entry =>
        if entry.sequenced || entry.parked || decide (now - entry.created < window) then
          sweepOrphanSlots live now window completions waitedOn rest
        else if live entry then
          sweepOrphanSlots live now window completions (waitedOn ++ [(now, txn)]) rest
        else
          sweepOrphanSlots live now window (completions.erase txn) waitedOn rest

def sweepOrphans (registry : CompletionRegistry) (now : Nat) : CompletionRegistry :=
  let swept := sweepOrphanSlots registry.hasLiveWaiter now registry.window
    registry.completions [] registry.orphans
  { registry with orphans := swept.1, completions := swept.2 }

def settleWaiterless (registry : CompletionRegistry) (txn : TxnId) (now : Nat) :
    CompletionRegistry :=
  ((registry.parkWaiterless txn now).sweepWaiterless now).sweepOrphans now

/-! ## Delivery -/

def deliver (registry : CompletionRegistry) (txn : TxnId) (waiter : CompletionWaiter)
    (outcome : AttemptOutcome) (results : List (List UInt8)) : CompletionRegistry :=
  if registry.isLive waiter then
    { registry with
      sent := registry.sent ++
        [.outcome txn waiter.channel outcome (if waiter.report then results else [])] }
  else
    registry

/-- Answer the waiter of a terminal entry.  The entry stays, for those who
still ask for its verdict. -/
def fire (registry : CompletionRegistry) (txn : TxnId) : CompletionRegistry :=
  match registry.completions[txn]? with
  | none => registry
  | some entry =>
    match entry.isTerminal, entry.verdict, entry.completionTx with
    | true, some verdict, some waiter =>
      deliver
        { registry with
          completions := registry.completions.insert txn
            { entry with completionTx := none, ackResults := ∅ } }
        txn waiter (outcomeFor verdict) (entry.ackResults.toList.map Prod.snd)
    | _, _, _ => registry

def settle (registry : CompletionRegistry) (txn : TxnId) (now : Nat) : CompletionRegistry :=
  (registry.fire txn).settleWaiterless txn now

/-! ## What the registry is told -/

def noteAssigned (registry : CompletionRegistry) (now inboxSeq : Nat) (txn : TxnId)
    (expectedParticipants : Nat) : CompletionRegistry :=
  let registry :=
    if registry.assignments.contains inboxSeq then
      { registry with
        assignments := registry.assignments.erase inboxSeq
        sent := registry.sent ++ [.assigned inboxSeq txn expectedParticipants] }
    else
      registry
  registry.modifyEntry now txn (PendingCompletion.seed expectedParticipants)

/-- The batch that sequences `txn` is applied here.  A missing entry is created
without an orphan slot. -/
def seedExpected (registry : CompletionRegistry) (now : Nat) (txn : TxnId)
    (expected : Nat) : CompletionRegistry :=
  let entry := { (registry.completions[txn]?).getD (.new now) with sequenced := true }
  { registry with completions := registry.completions.insert txn (entry.seed expected) }

def registerWaiter (registry : CompletionRegistry) (now : Nat) (txn : TxnId)
    (expectedParticipants : Nat) (waiter : CompletionWaiter) : CompletionRegistry :=
  let registry := registry.modifyEntry now txn fun entry =>
    { entry.seed expectedParticipants with completionTx := some waiter }
  registry.settle txn now

def registerCompletion (registry : CompletionRegistry) (now : Nat) (txn : TxnId)
    (expectedParticipants : Nat) (report : Bool) : CompletionRegistry :=
  registerWaiter { registry with channels := registry.channels + 1 } now txn
    expectedParticipants { channel := registry.channels, report := report }

def noteCompletionAck (registry : CompletionRegistry) (now : Nat) (txn : TxnId)
    (vshard : UInt32) (result : List UInt8) : CompletionRegistry :=
  let registry := registry.modifyEntry now txn fun entry =>
    { entry with
      ackedVshards := entry.ackedVshards.insert vshard
      ackResults :=
        if result.isEmpty then entry.ackResults else entry.ackResults.insert vshard result }
  registry.settle txn now

/-- Record a vote.  The vote that completes the tally sends it to the leader,
once. -/
def noteVote (registry : CompletionRegistry) (now : Nat) (txn : TxnId) (vshard : UInt32)
    (vote : ParticipantVote) : CompletionRegistry :=
  let registry := registry.modifyEntry now txn fun entry =>
    { entry with votes := entry.votes.insert vshard vote }
  match registry.completions[txn]? with
  | none => registry
  | some entry =>
    if entry.tallyComplete && !entry.verdictProposed then
      { registry with
        completions := registry.completions.insert txn { entry with verdictProposed := true }
        sent := registry.sent ++ [.proposal txn (tallyVerdict entry.votes)] }
    else
      registry

/-- The complete tallies without a stored verdict, which a leader proposes
again on every tick. -/
def drainUnproposedVerdicts (registry : CompletionRegistry) : List (TxnId × VerdictOutcome) :=
  (registry.completions.toList.filter fun item =>
    item.2.tallyComplete && item.2.verdict.isNone).map fun item =>
      (item.1, tallyVerdict item.2.votes)

def broadcast (registry : CompletionRegistry) (txn : TxnId) (commit : Bool) :
    CompletionRegistry :=
  { registry with
    sent := registry.sent ++
      registry.verdictSignalSenders.toList.map fun vshard => .signal vshard txn commit }

/-- The stored verdict after one more arrives: one that differs overwrites
it. -/
def storeVerdict (verdict : VerdictOutcome) (entry : PendingCompletion) :
    PendingCompletion :=
  match entry.verdict with
  | none => { entry with verdict := some verdict }
  | some existing =>
    if existing.isCommit ≠ verdict.isCommit then
      { entry with verdict := some verdict }
    else
      entry

def noteVerdict (registry : CompletionRegistry) (now : Nat) (txn : TxnId)
    (verdict : VerdictOutcome) : CompletionRegistry :=
  ((registry.modifyEntry now txn (storeVerdict verdict)).broadcast txn verdict.isCommit).settle
    txn now

/-- A multi-part transaction lost its parts: it aborts without acks. -/
def notePartsAbandoned (registry : CompletionRegistry) (now : Nat) (txn : TxnId) :
    CompletionRegistry :=
  let registry := registry.modifyEntry now txn fun entry =>
    { entry with
      abandoned := true
      verdict := some (.abort { reason := .partsLost, refusal := none }) }
  (registry.broadcast txn false).settle txn now

def verdict (registry : CompletionRegistry) (txn : TxnId) : Option Bool :=
  ((registry.completions[txn]?).bind PendingCompletion.verdict).map VerdictOutcome.isCommit

def dropReceiver (registry : CompletionRegistry) (channel : Nat) : CompletionRegistry :=
  { registry with closed := registry.closed.insert channel }

def setWaiterlessTtl (registry : CompletionRegistry) (ttl : Nat) : CompletionRegistry :=
  { registry with waiterlessTtl := some ttl }

end CompletionRegistry

/-! ## What settling keeps -/

/-- Two entries that agree on votes, verdict and acknowledgements. -/
structure PendingCompletion.Agrees (entry other : PendingCompletion) : Prop where
  expected : entry.expectedParticipants = other.expectedParticipants
  acked : entry.ackedVshards = other.ackedVshards
  abandoned : entry.abandoned = other.abandoned
  votes : entry.votes = other.votes
  verdict : entry.verdict = other.verdict

namespace CompletionRegistry

variable {txn : TxnId} {entry : PendingCompletion} {other : TxnId}

theorem sweepSlots_sublist (now window : Nat) (slots : List (Nat × TxnId))
    (completions : TreeMap TxnId PendingCompletion)
    (hentry : (sweepSlots now window completions slots).2[txn]? = some entry) :
    completions[txn]? = some entry := by
  induction slots generalizing completions with
  | nil => exact hentry
  | cons slot rest ih =>
    obtain ⟨since, waited⟩ := slot
    simp only [sweepSlots] at hentry
    split at hentry
    · exact hentry
    have hkept := ih _ hentry
    split at hkept
    · exact hkept
    split at hkept
    · exact hkept
    · exact (getElem?_erase_eq_some_iff.mp hkept).2

theorem sweepOrphanSlots_sublist (live : PendingCompletion → Bool) (now window : Nat)
    (slots waitedOn : List (Nat × TxnId)) (completions : TreeMap TxnId PendingCompletion)
    (hentry : (sweepOrphanSlots live now window completions waitedOn slots).2[txn]? =
      some entry) : completions[txn]? = some entry := by
  induction slots generalizing completions waitedOn with
  | nil => exact hentry
  | cons slot rest ih =>
    obtain ⟨since, waited⟩ := slot
    simp only [sweepOrphanSlots] at hentry
    split at hentry
    · exact hentry
    split at hentry
    · exact ih _ _ hentry
    split at hentry
    · exact ih _ _ hentry
    split at hentry
    · exact ih _ _ hentry
    · exact (getElem?_erase_eq_some_iff.mp (ih _ _ hentry)).2

section

variable (registry : CompletionRegistry)

theorem settleWaiterless_entry (txn : TxnId) (now : Nat)
    (hentry : (registry.settleWaiterless txn now).completions[other]? = some entry) :
    ∃ parked : Bool, ∃ before, registry.completions[other]? = some before ∧
      entry = { before with parked := parked } := by
  have hparked := sweepSlots_sublist _ _ _ _ (sweepOrphanSlots_sublist _ _ _ _ _ _ hentry)
  unfold parkWaiterless at hparked
  split at hparked
  · exact ⟨entry.parked, entry, hparked, rfl⟩
  next before hbefore =>
    split at hparked
    · exact ⟨entry.parked, entry, hparked, rfl⟩
    · rw [getElem?_insert_eq_some_iff] at hparked
      obtain ⟨rfl, rfl⟩ | ⟨-, hkept⟩ := hparked
      · exact ⟨true, before, hbefore, rfl⟩
      · exact ⟨entry.parked, entry, hkept, rfl⟩

theorem deliver_completions (txn : TxnId) (waiter : CompletionWaiter) (outcome : AttemptOutcome)
    (results : List (List UInt8)) :
    (registry.deliver txn waiter outcome results).completions = registry.completions := by
  unfold deliver
  split
  · rfl
  · rfl

theorem fire_entry (txn : TxnId) (hentry : (registry.fire txn).completions[other]? = some entry) :
    ∃ before, registry.completions[other]? = some before ∧ entry.Agrees before := by
  unfold fire at hentry
  split at hentry
  · exact ⟨entry, hentry, rfl, rfl, rfl, rfl, rfl⟩
  next before hbefore =>
    split at hentry
    · rw [deliver_completions, getElem?_insert_eq_some_iff] at hentry
      obtain ⟨rfl, rfl⟩ | ⟨-, hkept⟩ := hentry
      · exact ⟨before, hbefore, rfl, rfl, rfl, rfl, rfl⟩
      · exact ⟨entry, hkept, rfl, rfl, rfl, rfl, rfl⟩
    · exact ⟨entry, hentry, rfl, rfl, rfl, rfl, rfl⟩

theorem settle_entry (txn : TxnId) (now : Nat)
    (hentry : (registry.settle txn now).completions[other]? = some entry) :
    ∃ before, registry.completions[other]? = some before ∧ entry.Agrees before := by
  obtain ⟨parked, fired, hfired, rfl⟩ := settleWaiterless_entry _ txn now hentry
  obtain ⟨before, hbefore, hagrees⟩ := fire_entry registry txn hfired
  exact ⟨before, hbefore, hagrees.expected, hagrees.acked, hagrees.abandoned, hagrees.votes,
    hagrees.verdict⟩

end

theorem completions_modifyEntry (registry : CompletionRegistry) (now : Nat) (txn : TxnId)
    (change : PendingCompletion → PendingCompletion) :
    (registry.modifyEntry now txn change).completions =
      registry.completions.insert txn (change ((registry.completions[txn]?).getD (.new now))) := by
  unfold modifyEntry
  cases registry.completions[txn]? <;> rfl

theorem storeVerdict_cases (verdict : VerdictOutcome) (entry : PendingCompletion) :
    storeVerdict verdict entry = { entry with verdict := some verdict } ∨
      storeVerdict verdict entry = entry := by
  unfold storeVerdict
  split
  · exact .inl rfl
  split
  · exact .inl rfl
  · exact .inr rfl

/-! ## What is sent -/

theorem modifyEntry_sent (registry : CompletionRegistry) (now : Nat) (txn : TxnId)
    (change : PendingCompletion → PendingCompletion) :
    (registry.modifyEntry now txn change).sent = registry.sent := by
  unfold modifyEntry
  split
  · rfl
  · rfl

theorem settleWaiterless_sent (registry : CompletionRegistry) (txn : TxnId) (now : Nat) :
    (registry.settleWaiterless txn now).sent = registry.sent := by
  unfold settleWaiterless sweepOrphans sweepWaiterless parkWaiterless
  split
  · rfl
  split
  · rfl
  · rfl

theorem settle_sent (registry : CompletionRegistry) (txn : TxnId) (now : Nat) :
    (registry.settle txn now).sent = registry.sent ∨
      ∃ entry verdict waiter results, registry.completions[txn]? = some entry ∧
        entry.isTerminal = true ∧ entry.verdict = some verdict ∧
        entry.completionTx = some waiter ∧
        (registry.settle txn now).sent =
          registry.sent ++ [.outcome txn waiter.channel (outcomeFor verdict) results] := by
  unfold settle
  rw [settleWaiterless_sent]
  unfold fire
  split
  · exact .inl rfl
  next entry hentry =>
    split
    next verdict waiter hterminal hverdict hwaiter =>
      unfold deliver
      split
      · exact .inr ⟨entry, verdict, waiter, _, hentry, hterminal, hverdict, hwaiter, rfl⟩
      · exact .inl rfl
    · exact .inl rfl

theorem proposal_of_settle {registry : CompletionRegistry} {now : Nat} {verdict : VerdictOutcome}
    (hsent : .proposal other verdict ∈ (registry.settle txn now).sent) :
    .proposal other verdict ∈ registry.sent := by
  obtain heq | ⟨entry, stored, waiter, results, -, -, -, -, heq⟩ := settle_sent registry txn now
  · rwa [heq] at hsent
  · rw [heq, List.mem_append, List.mem_singleton] at hsent
    simpa using hsent

def Everywhere (P : TxnId → PendingCompletion → Prop) (registry : CompletionRegistry) : Prop :=
  ∀ (txn : TxnId) (entry : PendingCompletion), registry.completions[txn]? = some entry →
    P txn entry

namespace Everywhere

variable {P Q : TxnId → PendingCompletion → Prop} {registry : CompletionRegistry}

section

variable (hall : registry.Everywhere P)
include hall

theorem insert {after : CompletionRegistry} {txn : TxnId} {entry : PendingCompletion}
    (hafter : after.completions = registry.completions.insert txn entry) (hentry : Q txn entry)
    (hothers : ∀ other entry, other ≠ txn → P other entry → Q other entry) :
    after.Everywhere Q := by
  intro other found hfound
  rw [hafter, getElem?_insert_eq_some_iff] at hfound
  obtain ⟨rfl, rfl⟩ | ⟨hne, hkept⟩ := hfound
  · exact hentry
  · exact hothers other found hne (hall other found hkept)

theorem getD {now : Nat} {txn : TxnId} (hnew : P txn (.new now)) :
    P txn ((registry.completions[txn]?).getD (.new now)) := by
  cases hentry : registry.completions[txn]? with
  | none => exact hnew
  | some entry => exact hall txn entry hentry

theorem modifyEntry (now : Nat) (txn : TxnId) {change : PendingCompletion → PendingCompletion}
    (hnew : P txn (.new now)) (hchange : ∀ entry, P txn entry → Q txn (change entry))
    (hothers : ∀ other entry, other ≠ txn → P other entry → Q other entry) :
    (registry.modifyEntry now txn change).Everywhere Q :=
  hall.insert (registry.completions_modifyEntry now txn change) (hchange _ (hall.getD hnew)) hothers

theorem settle
    (hagrees : ∀ txn (entry before : PendingCompletion), entry.Agrees before → P txn before →
      P txn entry) (txn : TxnId) (now : Nat) : (registry.settle txn now).Everywhere P := by
  intro other entry hentry
  obtain ⟨before, hbefore, hsame⟩ := settle_entry registry txn now hentry
  exact hagrees other entry before hsame (hall other before hbefore)

theorem seedExpected (now : Nat) (txn : TxnId) (expected : Nat) (hnew : P txn (.new now))
    (hchange : ∀ entry, P txn entry →
      P txn ({ entry with sequenced := true : PendingCompletion }.seed expected)) :
    (registry.seedExpected now txn expected).Everywhere P :=
  hall.insert rfl (hchange _ (hall.getD hnew)) fun _ _ _ hother => hother

theorem noteVote (now : Nat) (txn : TxnId) (vshard : UInt32) (vote : ParticipantVote)
    (hnew : P txn (.new now)) (hchange : ∀ entry, P txn entry →
      Q txn { entry with votes := entry.votes.insert vshard vote })
    (hproposed : ∀ entry, Q txn entry → Q txn { entry with verdictProposed := true })
    (hothers : ∀ other entry, other ≠ txn → P other entry → Q other entry) :
    (registry.noteVote now txn vshard vote).Everywhere Q := by
  have hvoted := hall.modifyEntry now txn hnew hchange hothers
  unfold CompletionRegistry.noteVote
  dsimp only
  split
  · exact hvoted
  next voted hvotedEntry =>
    split
    · exact hvoted.insert rfl (hproposed voted (hvoted txn voted hvotedEntry))
        fun _ _ _ hother => hother
    · exact hvoted

theorem noteAssigned (now inboxSeq : Nat) (txn : TxnId) (expected : Nat) (hnew : P txn (.new now))
    (hseed : ∀ entry, P txn entry → P txn (entry.seed expected)) :
    (registry.noteAssigned now inboxSeq txn expected).Everywhere P := by
  unfold CompletionRegistry.noteAssigned
  split
  · have hassigned : Everywhere P { registry with
        assignments := registry.assignments.erase inboxSeq
        sent := registry.sent ++ [.assigned inboxSeq txn expected] } := hall
    exact hassigned.modifyEntry now txn hnew hseed fun _ _ _ hother => hother
  · exact hall.modifyEntry now txn hnew hseed fun _ _ _ hother => hother

end

section Settling

variable (hall : registry.Everywhere P)
  (hagrees : ∀ txn (entry before : PendingCompletion), entry.Agrees before → P txn before →
    P txn entry) (now : Nat) (txn : TxnId) (hnew : P txn (.new now))

include hall hagrees hnew

theorem registerCompletion (expected : Nat) (report : Bool)
    (hchange : ∀ entry, P txn entry → P txn { entry.seed expected with
      completionTx := some { channel := registry.channels, report := report } }) :
    (registry.registerCompletion now txn expected report).Everywhere P := by
  have hopened : Everywhere P { registry with channels := registry.channels + 1 } := hall
  exact (hopened.modifyEntry now txn hnew hchange fun _ _ _ hother => hother).settle
    hagrees txn now

theorem noteCompletionAck (vshard : UInt32) (result : List UInt8)
    (hchange : ∀ (entry : PendingCompletion) (results : TreeMap UInt32 (List UInt8)),
      P txn entry → P txn { entry with
        ackedVshards := entry.ackedVshards.insert vshard
        ackResults := results }) :
    (registry.noteCompletionAck now txn vshard result).Everywhere P :=
  (hall.modifyEntry now txn hnew (fun entry hentry => hchange entry _ hentry)
    fun _ _ _ hother => hother).settle hagrees txn now

theorem noteVerdict (verdict : VerdictOutcome)
    (hchange : ∀ entry, P txn entry → P txn (storeVerdict verdict entry)) :
    (registry.noteVerdict now txn verdict).Everywhere P := by
  have hstored := hall.modifyEntry now txn hnew hchange fun _ _ _ hother => hother
  have hbroadcast : Everywhere P ((registry.modifyEntry now txn
    (storeVerdict verdict)).broadcast txn verdict.isCommit) := hstored
  exact hbroadcast.settle hagrees txn now

end Settling

end Everywhere

theorem proposal_of_noteVote {registry : CompletionRegistry} {now : Nat}
    {vshard : UInt32} {vote : ParticipantVote} {verdict : VerdictOutcome}
    (hsent : .proposal other verdict ∈ (registry.noteVote now txn vshard vote).sent) :
    .proposal other verdict ∈ registry.sent ∨
      ∃ entry, (registry.noteVote now txn vshard vote).completions[other]? = some entry ∧
        entry.tallyComplete = true ∧ verdict = tallyVerdict entry.votes := by
  unfold noteVote at hsent ⊢
  dsimp only at hsent ⊢
  split at hsent
  · rw [modifyEntry_sent] at hsent
    exact .inl hsent
  next entry hentry =>
    split at hsent
    next hcomplete =>
      rw [modifyEntry_sent, List.mem_append, List.mem_singleton] at hsent
      obtain hsent | hsent := hsent
      · exact .inl hsent
      · obtain ⟨rfl, rfl⟩ := hsent
        refine .inr ⟨{ entry with verdictProposed := true }, ?_, ?_, rfl⟩
        · rw [if_pos hcomplete]
          exact TreeMap.getElem?_insert_self
        · rw [Bool.and_eq_true] at hcomplete
          exact hcomplete.1
    · rw [modifyEntry_sent] at hsent
      exact .inl hsent

end CompletionRegistry

end NodeDB.Calvin
