import NodeDB.CompletionRegistry
import NodeDB.StepRuns

/-!
# The outcome a coordinator is told

A coordinator registers for the outcome of its transaction and is answered
when the verdict is stored and every participant has acknowledged, in whatever
order it hears of them.  Each registration is answered at most once; one that
comes after the others is answered as well, as the entry stays.
-/

namespace NodeDB.Calvin

open Std List Emission

inductive CompletionEvent where
  | assigned (now inboxSeq : Nat) (txn : TxnId) (expected : Nat)
  | seeded (now : Nat) (txn : TxnId) (expected : Nat)
  | registered (now : Nat) (txn : TxnId) (expected : Nat) (report : Bool)
  | voted (now : Nat) (txn : TxnId) (vshard : UInt32) (vote : ParticipantVote)
  | ruled (now : Nat) (txn : TxnId) (verdict : VerdictOutcome)
  | acked (now : Nat) (txn : TxnId) (vshard : UInt32) (result : List UInt8)
  | partsAbandoned (now : Nat) (txn : TxnId)
  | receiverDropped (channel : Nat)
  | ttlSet (ttl : Nat)
  deriving DecidableEq, Repr

namespace CompletionEvent

def perform (registry : CompletionRegistry) : CompletionEvent → CompletionRegistry
  | assigned now inboxSeq txn expected => registry.noteAssigned now inboxSeq txn expected
  | seeded now txn expected => registry.seedExpected now txn expected
  | registered now txn expected report => registry.registerCompletion now txn expected report
  | voted now txn vshard vote => registry.noteVote now txn vshard vote
  | ruled now txn verdict => registry.noteVerdict now txn verdict
  | acked now txn vshard result => registry.noteCompletionAck now txn vshard result
  | partsAbandoned now txn => registry.notePartsAbandoned now txn
  | receiverDropped channel => registry.dropReceiver channel
  | ttlSet ttl => registry.setWaiterlessTtl ttl

/-- What is said of `txn` agrees with its participants.  A count of zero stands
for a number that is not known yet. -/
def Genuine (txn : TxnId) (participants : List UInt32) : CompletionEvent → Prop
  | assigned _ _ other expected =>
    other = txn → expected = 0 ∨ expected = participants.length
  | seeded _ other expected => other = txn → expected = 0 ∨ expected = participants.length
  | registered _ other expected _ =>
    other = txn → expected = 0 ∨ expected = participants.length
  | acked _ other vshard _ => other = txn → vshard ∈ participants
  | partsAbandoned _ other => other ≠ txn
  | voted _ _ _ _ => True
  | ruled _ _ _ => True
  | receiverDropped _ => True
  | ttlSet _ => True

instance (txn : TxnId) (participants : List UInt32) (event : CompletionEvent) :
    Decidable (event.Genuine txn participants) := by
  cases event <;> dsimp only [Genuine] <;> infer_instance

def registers (txn : TxnId) : CompletionEvent → Bool
  | registered _ other _ _ => decide (other = txn)
  | _ => false

end CompletionEvent

open CompletionEvent

def Emission.delivers (txn : TxnId) (accepts : Nat → Bool) : Emission → Bool
  | outcome other channel _ _ => decide (other = txn) && accepts channel
  | assigned _ _ _ => false
  | proposal _ _ => false
  | signal _ _ _ => false

/-! ## Deliveries and waiters -/

namespace CompletionRegistry

section Counting

variable (txn : TxnId) (accepts : Nat → Bool)

/-- Whether a coordinator waits for `txn` on a channel that `accepts` admits. -/
def awaited (registry : CompletionRegistry) : Bool :=
  ((registry.completions[txn]?).bind PendingCompletion.completionTx).any fun waiter =>
    accepts waiter.channel

/-- The outcomes of `txn` sent so far and the one that may still come. -/
def outcomes (registry : CompletionRegistry) : Nat :=
  registry.sent.countP (Emission.delivers txn accepts) +
    (registry.awaited txn accepts).toNat

variable {txn accepts} {registry : CompletionRegistry}

theorem toNat_le_of_imp {a b : Bool} (himp : a = true → b = true) : a.toNat ≤ b.toNat := by
  cases a
  · exact Nat.zero_le _
  · rw [himp rfl]

theorem outcomes_settleWaiterless_le (other : TxnId) (now : Nat) :
    (registry.settleWaiterless other now).outcomes txn accepts ≤
      registry.outcomes txn accepts := by
  unfold outcomes
  rw [settleWaiterless_sent]
  apply Nat.add_le_add_left
  apply toNat_le_of_imp
  intro hawaited
  obtain ⟨waiter, hwaiter, haccepts⟩ := (Option.any_eq_true _ _).mp hawaited
  obtain ⟨entry, hentry, hwaiter⟩ := Option.bind_eq_some_iff.mp hwaiter
  obtain ⟨parked, before, hbefore, rfl⟩ := settleWaiterless_entry registry other now hentry
  exact (Option.any_eq_true _ _).mpr
    ⟨waiter, Option.bind_eq_some_iff.mpr ⟨before, hbefore, hwaiter⟩, haccepts⟩

theorem outcomes_fire_le (other : TxnId) :
    (registry.fire other).outcomes txn accepts ≤ registry.outcomes txn accepts := by
  unfold fire
  split
  · exact Nat.le_refl _
  next entry hentry =>
    split
    next verdict waiter hterminal hverdict hwaiter =>
      by_cases heq : other = txn
      · subst heq
        have hbefore : registry.awaited other accepts = accepts waiter.channel := by
          unfold awaited
          rw [hentry, Option.bind_some, hwaiter]
          rfl
        unfold deliver
        split
        · unfold outcomes
          rw [hbefore, countP_append]
          simp [awaited, delivers, countP_cons, Bool.toNat]
          cases accepts waiter.channel <;> simp
        · unfold outcomes
          simp [awaited]
      · have hsent : (delivers txn accepts
            (.outcome other waiter.channel (outcomeFor verdict)
              (if waiter.report then (entry.ackResults.toList.map Prod.snd) else []))) = false := by
          simp [delivers, heq]
        unfold deliver
        split
        · unfold outcomes awaited
          rw [KeyedFold.getElem?_insert_ne _ (Ne.symm heq), countP_append]
          simp only [countP_cons, countP_nil, hsent]
          simp
        · unfold outcomes awaited
          dsimp only
          rw [KeyedFold.getElem?_insert_ne _ (Ne.symm heq)]
    · exact Nat.le_refl _

theorem outcomes_settle_le (other : TxnId) (now : Nat) :
    (registry.settle other now).outcomes txn accepts ≤ registry.outcomes txn accepts :=
  (outcomes_settleWaiterless_le other now).trans (outcomes_fire_le other)

theorem outcomes_of_insert {after : CompletionRegistry} {other : TxnId}
    {entry : PendingCompletion} (hsent : after.sent = registry.sent)
    (hafter : after.completions = registry.completions.insert other entry)
    (hwaiter : entry.completionTx =
      (registry.completions[other]?).bind PendingCompletion.completionTx) :
    after.outcomes txn accepts = registry.outcomes txn accepts := by
  unfold outcomes awaited
  rw [hsent, hafter]
  by_cases heq : txn = other
  · subst heq
    rw [TreeMap.getElem?_insert_self, Option.bind_some, hwaiter]
  · rw [KeyedFold.getElem?_insert_ne _ heq]

theorem outcomes_modifyEntry (other : TxnId) (now : Nat)
    (change : PendingCompletion → PendingCompletion)
    (hchange : ∀ entry, (change entry).completionTx = entry.completionTx) :
    (registry.modifyEntry now other change).outcomes txn accepts =
      registry.outcomes txn accepts := by
  refine outcomes_of_insert (registry.modifyEntry_sent now other change)
    (registry.completions_modifyEntry now other change) ?_
  rw [hchange]
  cases registry.completions[other]? <;> rfl

theorem outcomes_send (registry : CompletionRegistry) (emissions : List Emission)
    (hother : ∀ emission ∈ emissions, emission.delivers txn accepts = false) :
    outcomes txn accepts { registry with sent := registry.sent ++ emissions } =
      registry.outcomes txn accepts := by
  have hnone : emissions.countP (delivers txn accepts) = 0 := by
    rw [countP_eq_zero]
    intro emission hmem
    rw [hother emission hmem]
    exact Bool.false_ne_true
  unfold outcomes
  rw [countP_append, hnone, Nat.add_zero]
  rfl

theorem outcomes_broadcast (other : TxnId) (commit : Bool) :
    (registry.broadcast other commit).outcomes txn accepts = registry.outcomes txn accepts := by
  apply outcomes_send
  intro emission hmem
  obtain ⟨vshard, -, rfl⟩ := mem_map.mp hmem
  rfl

theorem outcomes_noteAssigned (now inboxSeq : Nat) (other : TxnId) (expected : Nat) :
    (registry.noteAssigned now inboxSeq other expected).outcomes txn accepts =
      registry.outcomes txn accepts := by
  unfold noteAssigned
  rw [outcomes_modifyEntry other now (PendingCompletion.seed expected) fun _ => rfl]
  split
  · refine outcomes_send registry [.assigned inboxSeq other expected] ?_
    intro emission hmem
    rw [mem_singleton.mp hmem]
    rfl
  · rfl

theorem outcomes_insert (registry : CompletionRegistry) {other : TxnId}
    {entry : PendingCompletion} (changed : PendingCompletion)
    (hentry : registry.completions[other]? = some entry)
    (hchanged : changed.completionTx = entry.completionTx) :
    outcomes txn accepts { registry with
      completions := registry.completions.insert other changed } =
      registry.outcomes txn accepts :=
  outcomes_of_insert rfl rfl (by rw [hentry]; exact hchanged)

theorem outcomes_seedExpected (now : Nat) (other : TxnId) (expected : Nat) :
    (registry.seedExpected now other expected).outcomes txn accepts =
      registry.outcomes txn accepts := by
  refine outcomes_of_insert rfl rfl ?_
  cases registry.completions[other]? <;> rfl

theorem outcomes_noteVote (now : Nat) (other : TxnId) (vshard : UInt32)
    (vote : ParticipantVote) :
    (registry.noteVote now other vshard vote).outcomes txn accepts =
      registry.outcomes txn accepts := by
  unfold noteVote
  dsimp only
  have hvoted : (registry.modifyEntry now other fun entry =>
      { entry with votes := entry.votes.insert vshard vote }).outcomes txn accepts =
      registry.outcomes txn accepts :=
    outcomes_modifyEntry other now _ fun _ => rfl
  rw [← hvoted]
  clear hvoted
  generalize (registry.modifyEntry now other fun entry =>
    { entry with votes := entry.votes.insert vshard vote }) = voted
  split
  · rfl
  next entry hentry =>
    split
    · rw [← outcomes_insert voted { entry with verdictProposed := true } hentry rfl]
      refine outcomes_send { voted with
        completions := voted.completions.insert other { entry with verdictProposed := true } }
        [.proposal other (tallyVerdict entry.votes)] ?_
      intro emission hmem
      rw [mem_singleton.mp hmem]
      rfl
    · rfl

theorem outcomes_registerCompletion_le (now : Nat) (other : TxnId) (expected : Nat)
    (report : Bool) :
    (registry.registerCompletion now other expected report).outcomes txn accepts ≤
      registry.outcomes txn accepts +
        (decide (other = txn) && accepts registry.channels).toNat := by
  refine (outcomes_settle_le other now).trans ?_
  unfold outcomes
  rw [modifyEntry_sent, Nat.add_assoc]
  apply Nat.add_le_add_left
  unfold awaited
  rw [completions_modifyEntry]
  by_cases heq : txn = other
  · subst heq
    rw [TreeMap.getElem?_insert_self]
    simp
  · rw [KeyedFold.getElem?_insert_ne _ heq]
    exact Nat.le_add_right _ _

theorem outcomes_perform_le (registry : CompletionRegistry) (txn : TxnId)
    (accepts : Nat → Bool) (event : CompletionEvent) :
    (event.perform registry).outcomes txn accepts ≤
      registry.outcomes txn accepts +
        (event.registers txn && accepts registry.channels).toNat := by
  cases event with
  | assigned now inboxSeq other expected => exact (outcomes_noteAssigned _ _ _ _).le
  | seeded now other expected => exact (outcomes_seedExpected _ _ _).le
  | registered now other expected report => exact outcomes_registerCompletion_le _ _ _ _
  | voted now other vshard vote => exact (outcomes_noteVote _ _ _ _).le
  | ruled now other verdict =>
    refine (outcomes_settle_le other now).trans ?_
    rw [outcomes_broadcast, outcomes_modifyEntry]
    · exact Nat.le_add_right _ _
    · intro entry
      obtain heq | heq := storeVerdict_cases verdict entry <;> rw [heq]
  | acked now other vshard result =>
    refine (outcomes_settle_le other now).trans ?_
    rw [outcomes_modifyEntry]
    · exact Nat.le_add_right _ _
    · exact fun _ => rfl
  | partsAbandoned now other =>
    refine (outcomes_settle_le other now).trans ?_
    rw [outcomes_broadcast, outcomes_modifyEntry]
    · exact Nat.le_add_right _ _
    · exact fun _ => rfl
  | receiverDropped channel | ttlSet ttl => exact Nat.le_refl _

end Counting

theorem outcome_of_noteVote {registry : CompletionRegistry} {txn other : TxnId}
    {now channel : Nat} {vshard : UInt32} {vote : ParticipantVote} {outcome : AttemptOutcome}
    {results : List (List UInt8)}
    (hsent : .outcome txn channel outcome results ∈ (registry.noteVote now other vshard vote).sent) :
    .outcome txn channel outcome results ∈ registry.sent := by
  unfold noteVote at hsent
  dsimp only at hsent
  split at hsent
  · rwa [modifyEntry_sent] at hsent
  split at hsent
  · simpa [modifyEntry_sent] using hsent
  · rwa [modifyEntry_sent] at hsent

end CompletionRegistry

open CompletionRegistry

/-! ## What an entry stands on -/

section History

variable (txn : TxnId) (participants : List UInt32) (past : List CompletionEvent)

def AckedBy (vshard : UInt32) : Prop :=
  ∃ now result, .acked now txn vshard result ∈ past

def Ruled (verdict : VerdictOutcome) : Prop :=
  ∃ now, .ruled now txn verdict ∈ past

/-- Whatever the entry of `txn` holds was told in `past`. -/
structure Evidence (entry : PendingCompletion) : Prop where
  expected : entry.expectedParticipants = 0 ∨
    entry.expectedParticipants = participants.length
  acked : ∀ vshard ∈ entry.ackedVshards, vshard ∈ participants ∧ AckedBy txn past vshard
  abandoned : entry.abandoned = false
  verdict : ∀ verdict, entry.verdict = some verdict → Ruled txn past verdict

/-- The verdict behind `outcome` was stored and every participant
acknowledged. -/
structure Finished (outcome : AttemptOutcome) : Prop where
  ruled : ∃ verdict, Ruled txn past verdict ∧ outcome = outcomeFor verdict
  acked : ∀ vshard ∈ participants, AckedBy txn past vshard

variable {txn participants past} {entry : PendingCompletion} {verdict : VerdictOutcome}

theorem AckedBy.append {vshard : UInt32} (hacked : AckedBy txn past vshard)
    (event : CompletionEvent) : AckedBy txn (past ++ [event]) vshard := by
  obtain ⟨now, result, hmem⟩ := hacked
  exact ⟨now, result, mem_append_left _ hmem⟩

theorem Ruled.append (hruled : Ruled txn past verdict) (event : CompletionEvent) :
    Ruled txn (past ++ [event]) verdict := by
  obtain ⟨now, hmem⟩ := hruled
  exact ⟨now, mem_append_left _ hmem⟩

theorem Evidence.append (hevidence : Evidence txn participants past entry)
    (event : CompletionEvent) : Evidence txn participants (past ++ [event]) entry :=
  ⟨hevidence.expected,
    fun vshard hmem => ⟨(hevidence.acked vshard hmem).1, (hevidence.acked vshard hmem).2.append event⟩,
    hevidence.abandoned,
    fun verdict hverdict => (hevidence.verdict verdict hverdict).append event⟩

theorem Finished.append {outcome : AttemptOutcome}
    (hfinished : Finished txn participants past outcome) (event : CompletionEvent) :
    Finished txn participants (past ++ [event]) outcome := by
  obtain ⟨verdict, hruled, houtcome⟩ := hfinished.ruled
  exact ⟨⟨verdict, hruled.append event, houtcome⟩,
    fun vshard hmem => (hfinished.acked vshard hmem).append event⟩

theorem Evidence.new (now : Nat) : Evidence txn participants past (.new now) := by
  refine ⟨Or.inl rfl, ?_, rfl, ?_⟩ <;> simp [PendingCompletion.new]

theorem Evidence.agrees {before : PendingCompletion} (hagrees : entry.Agrees before)
    (hevidence : Evidence txn participants past before) :
    Evidence txn participants past entry :=
  ⟨hagrees.expected ▸ hevidence.expected, hagrees.acked ▸ hevidence.acked,
    hagrees.abandoned ▸ hevidence.abandoned, hagrees.verdict ▸ hevidence.verdict⟩

section

variable (hevidence : Evidence txn participants past entry)
include hevidence

theorem Evidence.seed {expected : Nat} (hexpected : expected = 0 ∨ expected = participants.length) :
    Evidence txn participants past (entry.seed expected) := by
  refine ⟨?_, hevidence.acked, hevidence.abandoned, hevidence.verdict⟩
  change max entry.expectedParticipants expected = 0 ∨ max entry.expectedParticipants expected = _
  have hbefore := hevidence.expected
  omega

theorem Evidence.storeVerdict (hruled : Ruled txn past verdict) :
    Evidence txn participants past (CompletionRegistry.storeVerdict verdict entry) := by
  obtain heq | heq := storeVerdict_cases verdict entry <;> rw [heq]
  · refine ⟨hevidence.expected, hevidence.acked, hevidence.abandoned, ?_⟩
    rintro _ ⟨⟩
    exact hruled
  · exact hevidence

theorem Evidence.finished
    (hterminal : entry.isTerminal = true) (hverdict : entry.verdict = some verdict) :
    Finished txn participants past (outcomeFor verdict) := by
  refine ⟨⟨verdict, hevidence.verdict verdict hverdict, rfl⟩, ?_⟩
  unfold PendingCompletion.isTerminal PendingCompletion.isComplete at hterminal
  rw [hevidence.abandoned, Bool.false_or, Bool.and_eq_true, Bool.and_eq_true,
    decide_eq_true_eq, decide_eq_true_eq] at hterminal
  obtain ⟨-, hpos, hsize⟩ := hterminal
  have hlength : participants.length ≤ entry.ackedVshards.size := by
    obtain hexpected | hexpected := hevidence.expected
    · omega
    · omega
  intro vshard hmem
  have hall := KeyedFold.mem_of_length_le_size_set
    (fun vshard hacked => (hevidence.acked vshard hacked).1) hlength
  exact (hevidence.acked vshard (hall vshard hmem)).2

end

variable (txn participants past)

def Told (other : TxnId) (entry : PendingCompletion) : Prop :=
  other = txn → Evidence txn participants past entry

/-- Each entry and each outcome sent follows from the events so far. -/
structure Tracks (registry : CompletionRegistry) : Prop where
  entries : registry.Everywhere (Told txn participants past)
  delivered : ∀ channel outcome results, .outcome txn channel outcome results ∈ registry.sent →
    Finished txn participants past outcome

variable {txn participants past} {registry : CompletionRegistry}

namespace Tracks

section

variable (htracks : Tracks txn participants past registry)
include htracks

theorem append (event : CompletionEvent) :
    Tracks txn participants (past ++ [event]) registry :=
  ⟨fun other entry hentry heq => (htracks.entries other entry hentry heq).append event,
    fun channel outcome results hsent =>
      (htracks.delivered channel outcome results hsent).append event⟩

theorem of_sent {after : CompletionRegistry}
    (hentries : after.Everywhere (Told txn participants past))
    (hsent : ∀ channel outcome results, .outcome txn channel outcome results ∈ after.sent →
      .outcome txn channel outcome results ∈ registry.sent) :
    Tracks txn participants past after :=
  ⟨hentries, fun channel outcome results hnew =>
    htracks.delivered channel outcome results (hsent channel outcome results hnew)⟩

theorem settle (other : TxnId) (now : Nat) :
    Tracks txn participants past (registry.settle other now) := by
  constructor
  · exact htracks.entries.settle
      (fun _ _ _ hagrees htold heq => (htold heq).agrees hagrees) other now
  · intro channel outcome results hsent
    obtain hsame | ⟨entry, verdict, waiter, told, hentry, hterminal, hverdict, -, hnew⟩ :=
      registry.settle_sent other now
    · rw [hsame] at hsent
      exact htracks.delivered channel outcome results hsent
    · rw [hnew, mem_append, mem_singleton] at hsent
      obtain hsent | hsent := hsent
      · exact htracks.delivered channel outcome results hsent
      · obtain ⟨rfl, -, rfl, -⟩ := hsent
        exact (htracks.entries txn entry hentry rfl).finished hterminal hverdict

theorem modifyEntry (now : Nat) (other : TxnId) {change : PendingCompletion → PendingCompletion}
    (hchange : other = txn → ∀ entry, Evidence txn participants past entry →
      Evidence txn participants past (change entry)) :
    Tracks txn participants past (registry.modifyEntry now other change) := by
  apply htracks.of_sent
  · exact htracks.entries.modifyEntry (Q := Told txn participants past) now other
      (fun _ => .new now) (fun entry htold heq => hchange heq entry (htold heq))
      fun _ _ _ htold => htold
  · intro channel outcome results hsent
    rwa [modifyEntry_sent] at hsent

theorem broadcast (other : TxnId) (decision : Bool) :
    Tracks txn participants past (registry.broadcast other decision) := by
  apply htracks.of_sent
  · exact htracks.entries
  · intro channel outcome results hsent
    simpa [CompletionRegistry.broadcast] using hsent

theorem noteVote (now : Nat) (other : TxnId) (vshard : UInt32) (vote : ParticipantVote) :
    Tracks txn participants past (registry.noteVote now other vshard vote) := by
  apply htracks.of_sent
  · refine htracks.entries.noteVote (Q := Told txn participants past) now other vshard
      vote (fun _ => .new now) ?_ ?_ fun _ _ _ htold => htold
    · intro entry htold heq
      have hevidence := htold heq
      exact ⟨hevidence.expected, hevidence.acked, hevidence.abandoned, hevidence.verdict⟩
    · intro entry htold heq
      have hevidence := htold heq
      exact ⟨hevidence.expected, hevidence.acked, hevidence.abandoned, hevidence.verdict⟩
  · exact fun _ _ _ hsent => outcome_of_noteVote hsent

variable {expected : Nat}

theorem noteAssigned (now inboxSeq : Nat) (other : TxnId)
    (hexpected : other = txn → expected = 0 ∨ expected = participants.length) :
    Tracks txn participants past
      (registry.noteAssigned now inboxSeq other expected) := by
  apply htracks.of_sent
  · exact htracks.entries.noteAssigned now inboxSeq other expected (fun _ => .new now)
      fun entry htold heq => (htold heq).seed (hexpected heq)
  · intro channel outcome results hsent
    unfold CompletionRegistry.noteAssigned at hsent
    rw [modifyEntry_sent] at hsent
    split at hsent
    · simpa using hsent
    · exact hsent

section

variable (now : Nat) (other : TxnId)
  (hexpected : other = txn → expected = 0 ∨ expected = participants.length)
include now other hexpected

theorem seedExpected :
    Tracks txn participants past (registry.seedExpected now other expected) := by
  apply htracks.of_sent
  · refine htracks.entries.seedExpected now other expected (fun _ => .new now) ?_
    intro entry htold heq
    have hseeded := (htold heq).seed (hexpected heq)
    exact ⟨hseeded.expected, hseeded.acked, hseeded.abandoned, hseeded.verdict⟩
  · exact fun _ _ _ hsent => hsent

theorem registerCompletion (report : Bool) : Tracks txn participants past
      (registry.registerCompletion now other expected report) := by
  have hopened : Tracks txn participants past
      { registry with channels := registry.channels + 1 } :=
    ⟨htracks.entries, htracks.delivered⟩
  refine (hopened.modifyEntry now other ?_).settle other now
  intro heq entry hevidence
  have hseeded := hevidence.seed (hexpected heq)
  exact ⟨hseeded.expected, hseeded.acked, hseeded.abandoned, hseeded.verdict⟩

end

theorem perform {event : CompletionEvent} (hgenuine : event.Genuine txn participants) :
    Tracks txn participants (past ++ [event]) (event.perform registry) := by
  have htold := htracks.append event
  cases event with
  | assigned now inboxSeq other expected => exact htold.noteAssigned now inboxSeq other hgenuine
  | seeded now other expected => exact htold.seedExpected now other hgenuine
  | registered now other expected report =>
    exact htold.registerCompletion now other hgenuine report
  | voted now other vshard vote => exact htold.noteVote now other vshard vote
  | ruled now other verdict =>
    refine ((htold.modifyEntry now other ?_).broadcast other verdict.isCommit).settle other now
    intro heq entry hevidence
    subst heq
    exact hevidence.storeVerdict ⟨now, mem_append_right _ mem_cons_self⟩
  | acked now other vshard result =>
    refine (htold.modifyEntry now other ?_).settle other now
    intro heq entry hevidence
    subst heq
    refine ⟨hevidence.expected, ?_, hevidence.abandoned, hevidence.verdict⟩
    intro acked hmem
    rw [TreeSet.mem_insert, LawfulEqOrd.compare_eq_iff_eq] at hmem
    obtain rfl | hmem := hmem
    · exact ⟨hgenuine rfl, now, result, mem_append_right _ mem_cons_self⟩
    · exact hevidence.acked acked hmem
  | partsAbandoned now other =>
    refine ((htold.modifyEntry now other ?_).broadcast other false).settle other now
    exact fun heq => absurd heq hgenuine
  | receiverDropped channel | ttlSet ttl => exact ⟨htold.entries, htold.delivered⟩

end

end Tracks

theorem tracks_new : Tracks txn participants [] .new := by
  constructor
  · intro other entry hentry
    simp [CompletionRegistry.new] at hentry
  · intro channel outcome results hsent
    cases hsent

end History

/-! ## The status of an outcome -/

namespace CompletionRegistry

variable {registry : CompletionRegistry} {txn : TxnId}

/-- The outcomes of `txn` that `after` adds to those of `registry` are of the
verdict its entry holds. -/
def StatusStored (txn : TxnId) (registry after : CompletionRegistry) : Prop :=
  ∀ channel outcome results, .outcome txn channel outcome results ∈ after.sent →
    .outcome txn channel outcome results ∉ registry.sent →
    ∀ entry, after.completions[txn]? = some entry →
      ∃ verdict, entry.verdict = some verdict ∧ outcome = outcomeFor verdict

theorem statusStored_of_sent {after : CompletionRegistry}
    (hsent : ∀ channel outcome results, .outcome txn channel outcome results ∈ after.sent →
      .outcome txn channel outcome results ∈ registry.sent) :
    StatusStored txn registry after :=
  fun channel outcome results hnew hold => absurd (hsent channel outcome results hnew) hold

theorem statusStored_settle (other : TxnId) (now : Nat) :
    StatusStored txn registry (registry.settle other now) := by
  intro channel outcome results hnew hold entry hentry
  obtain hsame | ⟨fired, verdict, waiter, told, hfired, -, hverdict, -, hsent⟩ :=
    registry.settle_sent other now
  · rw [hsame] at hnew
    exact absurd hnew hold
  · rw [hsent, mem_append, mem_singleton] at hnew
    obtain hnew | hnew := hnew
    · exact absurd hnew hold
    · obtain ⟨rfl, -, rfl, -⟩ := hnew
      -- what settling leaves of the entry holds the verdict it fired with
      obtain ⟨before, hbefore, hagrees⟩ := settle_entry registry txn now hentry
      rw [hfired, Option.some_inj] at hbefore
      subst hbefore
      exact ⟨verdict, hagrees.verdict.trans hverdict, rfl⟩

theorem StatusStored.of_sent_eq {before after : CompletionRegistry}
    (hstatus : StatusStored txn before after)
    (hsent : ∀ channel outcome results, .outcome txn channel outcome results ∈ before.sent →
      .outcome txn channel outcome results ∈ registry.sent) :
    StatusStored txn registry after :=
  fun channel outcome results hnew hold =>
    hstatus channel outcome results hnew fun hmem => hold (hsent channel outcome results hmem)

theorem statusStored_perform (registry : CompletionRegistry) (txn : TxnId)
    (event : CompletionEvent) : StatusStored txn registry (event.perform registry) := by
  cases event with
  | assigned now inboxSeq other expected =>
    apply statusStored_of_sent
    intro channel outcome results hnew
    simp only [perform, noteAssigned, modifyEntry_sent] at hnew
    split at hnew
    · simpa using hnew
    · exact hnew
  | seeded now other expected => exact statusStored_of_sent fun _ _ _ hnew => hnew
  | registered now other expected report =>
    refine (statusStored_settle other now).of_sent_eq ?_
    intro channel outcome results hmem
    rwa [modifyEntry_sent] at hmem
  | voted now other vshard vote =>
    exact statusStored_of_sent fun _ _ _ hnew => outcome_of_noteVote hnew
  | ruled now other verdict =>
    refine (statusStored_settle other now).of_sent_eq ?_
    intro channel outcome results hmem
    simpa [broadcast, modifyEntry_sent] using hmem
  | acked now other vshard result =>
    refine (statusStored_settle other now).of_sent_eq ?_
    intro channel outcome results hmem
    rwa [modifyEntry_sent] at hmem
  | partsAbandoned now other =>
    refine (statusStored_settle other now).of_sent_eq ?_
    intro channel outcome results hmem
    simpa [broadcast, modifyEntry_sent] using hmem
  | receiverDropped channel | ttlSet ttl =>
    exact statusStored_of_sent fun _ _ _ hnew => hnew

end CompletionRegistry

/-! ## Runs -/

open CompletionRegistry in
/-- Every channel the registry opened is answered at most once, and no channel
it has not opened. -/
structure Answered (txn : TxnId) (past : List CompletionEvent) (registry : CompletionRegistry) :
    Prop where
  once : ∀ channel, registry.outcomes txn (fun other => decide (other = channel)) ≤ 1
  fresh : ∀ channel, registry.channels ≤ channel →
    registry.outcomes txn (fun other => decide (other = channel)) = 0
  total : registry.outcomes txn (fun _ => true) ≤ past.countP (CompletionEvent.registers txn)

theorem answered_new (txn : TxnId) : Answered txn [] .new :=
  ⟨fun _ => Nat.zero_le _, fun _ _ => rfl, Nat.le_refl _⟩

namespace CompletionRegistry

theorem modifyEntry_channels (registry : CompletionRegistry) (now : Nat) (txn : TxnId)
    (change : PendingCompletion → PendingCompletion) :
    (registry.modifyEntry now txn change).channels = registry.channels := by
  unfold modifyEntry
  split
  · rfl
  · rfl

theorem settle_channels (registry : CompletionRegistry) (txn : TxnId) (now : Nat) :
    (registry.settle txn now).channels = registry.channels := by
  have hfire : (registry.fire txn).channels = registry.channels := by
    unfold fire deliver
    repeat' split
    all_goals rfl
  rw [← hfire]
  unfold settle settleWaiterless sweepOrphans sweepWaiterless parkWaiterless
  repeat' split
  all_goals rfl

theorem channels_perform (registry : CompletionRegistry) (txn : TxnId)
    (event : CompletionEvent) :
    registry.channels + (event.registers txn).toNat ≤ (event.perform registry).channels := by
  cases event with
  | assigned now inboxSeq other expected =>
    apply Nat.le_of_eq
    simp only [perform, noteAssigned, modifyEntry_channels]
    split <;> rfl
  | seeded now other expected => exact Nat.le_refl _
  | registered now other expected report =>
    simp only [perform, registerCompletion, registerWaiter, settle_channels, modifyEntry_channels]
    exact Nat.add_le_add_left (Bool.toNat_le _) _
  | voted now other vshard vote =>
    apply Nat.le_of_eq
    simp only [perform, noteVote]
    repeat' split
    all_goals exact (modifyEntry_channels _ _ _ _).symm
  | ruled now other verdict =>
    apply Nat.le_of_eq
    simp only [perform, noteVerdict, settle_channels, broadcast, modifyEntry_channels]
    rfl
  | acked now other vshard result =>
    apply Nat.le_of_eq
    simp only [perform, noteCompletionAck, settle_channels, modifyEntry_channels]
    rfl
  | partsAbandoned now other =>
    apply Nat.le_of_eq
    simp only [perform, notePartsAbandoned, settle_channels, broadcast, modifyEntry_channels]
    rfl
  | receiverDropped channel | ttlSet ttl => exact Nat.le_refl _

end CompletionRegistry

theorem Answered.perform {txn : TxnId} {past : List CompletionEvent}
    {registry : CompletionRegistry} (hanswered : Answered txn past registry)
    (event : CompletionEvent) : Answered txn (past ++ [event]) (event.perform registry) := by
  have hchannels := registry.channels_perform txn event
  refine ⟨?_, ?_, ?_⟩
  · intro channel
    have hstep := registry.outcomes_perform_le txn (fun other => decide (other = channel)) event
    by_cases hnew : registry.channels = channel
    · have hbefore := hanswered.fresh channel hnew.le
      have hone := Bool.toNat_le (event.registers txn && decide (registry.channels = channel))
      omega
    · have hbefore := hanswered.once channel
      simp only [hnew, decide_false, Bool.and_false, Bool.toNat_false] at hstep
      omega
  · intro channel hle
    have hstep := registry.outcomes_perform_le txn (fun other => decide (other = channel)) event
    have hbefore := hanswered.fresh channel (by omega)
    by_cases hnew : registry.channels = channel
    · have hquiet : event.registers txn = false := by
        cases hregisters : event.registers txn with
        | false => rfl
        | true =>
          rw [hregisters, Bool.toNat_true] at hchannels
          omega
      simp only [hquiet, Bool.false_and, Bool.toNat_false] at hstep
      omega
    · simp only [hnew, decide_false, Bool.and_false, Bool.toNat_false] at hstep
      omega
  · have hstep := registry.outcomes_perform_le txn (fun _ => true) event
    have hbefore := hanswered.total
    rw [Bool.and_true] at hstep
    rw [countP_append, countP_singleton]
    cases hregisters : event.registers txn with
    | false =>
      rw [hregisters, Bool.toNat_false] at hstep
      omega
    | true =>
      rw [hregisters, Bool.toNat_true] at hstep
      simp only [if_true]
      omega

/-- In every order of the calls about `txn`, repeated at will and whatever is
swept in between, each registration is answered at most once.  A call that
answers comes after the verdict and after the acknowledgement of every
participant, and answers with the status of the verdict that the entry then
holds. -/
theorem outcome_of_run (txn : TxnId) (participants : List UInt32) (events : List CompletionEvent)
    (hgenuine : ∀ event ∈ events, event.Genuine txn participants) :
    let registry := events.foldl CompletionEvent.perform .new
    (∀ channel, registry.sent.countP
      (Emission.delivers txn fun other => decide (other = channel)) ≤ 1) ∧
    registry.sent.countP (Emission.delivers txn fun _ => true) ≤
      events.countP (CompletionEvent.registers txn) ∧
    ∀ before event after, events = before ++ event :: after →
      let earlier := before.foldl CompletionEvent.perform .new
      let later := event.perform earlier
      ∀ channel outcome results, .outcome txn channel outcome results ∈ later.sent →
        .outcome txn channel outcome results ∉ earlier.sent →
        (∃ now verdict, .ruled now txn verdict ∈ before ++ [event] ∧
          outcome = outcomeFor verdict) ∧
        (∀ vshard ∈ participants, ∃ now result,
          .acked now txn vshard result ∈ before ++ [event]) ∧
        ∀ entry, later.completions[txn]? = some entry →
          ∃ verdict, entry.verdict = some verdict ∧ outcome = outcomeFor verdict := by
  intro registry
  have hrule : ∀ calls : List CompletionEvent,
      (∀ event ∈ calls, event.Genuine txn participants) →
      Tracks txn participants calls (calls.foldl CompletionEvent.perform .new) ∧
        Answered txn calls (calls.foldl CompletionEvent.perform .new) := by
    intro calls hcalls
    refine StepRuns.history_foldl
      (fun past registry => Tracks txn participants past registry ∧ Answered txn past registry)
      ?_ ⟨tracks_new, answered_new txn⟩ (StepRuns.along_of_forall perform hcalls .new)
    rintro past state event ⟨htracks, hanswered⟩ hevent
    exact ⟨htracks.perform hevent, hanswered.perform event⟩
  obtain ⟨-, hanswered⟩ := hrule events hgenuine
  refine ⟨?_, ?_, ?_⟩
  · intro channel
    exact (Nat.le_add_right _ _).trans (hanswered.once channel)
  · exact (Nat.le_add_right _ _).trans hanswered.total
  · rintro before event after rfl earlier later channel outcome results hnew hold
    obtain ⟨htracks, -⟩ := hrule (before ++ [event]) fun other hmem =>
      hgenuine other (by simp at hmem ⊢; tauto)
    rw [foldl_append] at htracks
    have hfinished := htracks.delivered channel outcome results hnew
    obtain ⟨verdict, ⟨now, hruled⟩, houtcome⟩ := hfinished.ruled
    refine ⟨⟨now, verdict, hruled, houtcome⟩, hfinished.acked, ?_⟩
    exact statusStored_perform earlier txn event channel outcome results hnew hold

/-- The acknowledgements and two verdicts that differ reach the registry before
the coordinator does.  It is told the second, which the entry holds. -/
theorem outcome_of_run_late : let before : List CompletionEvent :=
      [.acked 1 ⟨9, 3⟩ 10 [], .seeded 2 ⟨9, 3⟩ 2, .ruled 3 ⟨9, 3⟩ .commit,
        .acked 4 ⟨9, 3⟩ 20 [7], .ruled 5 ⟨9, 3⟩ (.abort ⟨.partsLost, none⟩)]
    let registry := perform (before.foldl perform .new) (registered 6 ⟨9, 3⟩ 2 true)
    .outcome ⟨9, 3⟩ 0 (.aborted ⟨.partsLost, none⟩) [[7]] ∈ registry.sent ∧
      ∀ entry, registry.completions[(⟨9, 3⟩ : TxnId)]? = some entry →
        ∃ verdict, entry.verdict = some verdict ∧
          .aborted ⟨.partsLost, none⟩ = outcomeFor verdict := by
  intro before registry
  refine ⟨by decide, ?_⟩
  exact ((outcome_of_run ⟨9, 3⟩ [10, 20] (before ++ [registered 6 ⟨9, 3⟩ 2 true])
    (by decide)).2.2 before _ [] rfl 0 (.aborted ⟨.partsLost, none⟩) [[7]] (by decide)
    (by decide)).2.2

/-- A second registration of one transaction is answered as well. -/
theorem outcome_delivered_twice : let events : List CompletionEvent :=
      [.registered 1 ⟨9, 3⟩ 1 false, .ruled 2 ⟨9, 3⟩ .commit, .acked 3 ⟨9, 3⟩ 10 [],
        .registered 4 ⟨9, 3⟩ 1 false]
    (events.foldl perform .new).sent =
      [.outcome ⟨9, 3⟩ 0 .completed [], .outcome ⟨9, 3⟩ 1 .completed []] := by
  decide

end NodeDB.Calvin
