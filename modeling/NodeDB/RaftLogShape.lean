import NodeDB.RaftLogIndex
import NodeDB.StepRuns

/-!
# The shape of the in-memory log

A log is shaped when its entries are contiguous after the snapshot boundary
and its terms do not decrease, the snapshot term included.  The file proves
which operations keep this shape.  Two of them write across the boundary
without comparing terms: a snapshot keeps every entry above its index, and a
batch whose previous index is zero may skip over the snapshot.
-/

namespace NodeDB.Raft

open ContiguousList StepRuns List MemStorage

variable {S : Type} [LogStorage S]

namespace RaftLog

/-- The indexes are contiguous and the terms never fall. -/
structure Shaped (log : RaftLog S) : Prop where
  contiguous : Contiguous LogEntry.index (log.snapshotIndex + 1) log.entries
  terms : (log.snapshotTerm :: log.entries.map LogEntry.term).Pairwise (· ≤ ·)

instance (log : RaftLog S) : Decidable log.Shaped :=
  decidable_of_iff
    (Contiguous LogEntry.index (log.snapshotIndex + 1) log.entries ∧
      (log.snapshotTerm :: log.entries.map LogEntry.term).Pairwise (· ≤ ·))
    ⟨fun h => ⟨h.1, h.2⟩, fun h => ⟨h.1, h.2⟩⟩

variable {log : RaftLog S}

omit [LogStorage S] in
theorem Shaped.indexed (hshaped : log.Shaped) : log.Indexed :=
  hshaped.contiguous

/-- The term the log holds just before `index`: that of the entry there, or
of the snapshot when `index` is the first after the boundary. -/
def termBefore (log : RaftLog S) (index : Nat) : Nat :=
  ((log.entries.take (index - log.snapshotIndex - 1)).getLast?.map
    LogEntry.term).getD log.snapshotTerm

/-! ## How each operation treats the shape -/

section

omit [LogStorage S]

theorem Shaped.ofFields {term : Nat} {entries : List LogEntry}
    (hindexed : log.Indexed) (hterm : log.snapshotTerm = term)
    (hentries : log.entries = entries)
    (hterms : (term :: entries.map LogEntry.term).Pairwise (· ≤ ·)) : log.Shaped := by
  subst hterm hentries
  exact ⟨hindexed, hterms⟩

theorem Shaped.splice (hshaped : log.Shaped) (index : Nat) (entries : List LogEntry)
    (hterms : (log.termBefore index :: entries.map LogEntry.term).Pairwise
      (· ≤ ·)) :
    (log.snapshotTerm ::
      (log.entries.take (index - log.snapshotIndex - 1) ++ entries).map
        LogEntry.term).Pairwise (· ≤ ·) := by
  have hkept : (log.snapshotTerm ::
      (log.entries.take (index - log.snapshotIndex - 1)).map
        LogEntry.term).Pairwise (· ≤ ·) := by
    apply List.Pairwise.sublist _ hshaped.terms
    exact ((take_sublist _ _).map _).cons_cons _
  rw [map_append, ← cons_append, pairwise_append]
  rw [pairwise_cons] at hterms
  refine ⟨hkept, hterms.2, ?_⟩
  intro a ha b hb
  have hbefore : a ≤ log.termBefore index := by
    unfold termBefore
    generalize log.entries.take (index - log.snapshotIndex - 1) = kept at *
    rcases eq_nil_or_concat kept with rfl | ⟨front, last, rfl⟩
    · simp at ha
      simp [ha]
    · simp only [concat_eq_append, map_append, map_cons, map_nil, ← cons_append, mem_append,
        mem_singleton, pairwise_append] at ha hkept
      simp only [concat_eq_append, getLast?_append, getLast?_singleton,
        Option.some_or, Option.map_some, Option.getD_some]
      rcases ha with ha | rfl
      · exact hkept.2.2 a ha _ rfl
      · exact le_rfl
  exact hbefore.trans (hterms.1 b hb)

end

theorem Shaped.afterAppend (hshaped : log.Shaped) {entry : LogEntry}
    (hindex : entry.index = log.lastIndex + 1) (hterm : log.lastTerm ≤ entry.term) :
    (log.append entry).2.Shaped := by
  have hindexed := hshaped.indexed.afterAppend hindex
  obtain ⟨-, hsnapTerm, hentries | hentries⟩ := append_cases log entry
  · exact .ofFields hindexed hsnapTerm hentries hshaped.terms
  · have hlast := hshaped.indexed.lastIndex_eq
    have hwhole :
        log.entries.take (entry.index - log.snapshotIndex - 1) = log.entries :=
      take_of_length_le (by omega)
    have hbefore : log.termBefore entry.index = log.lastTerm := by
      unfold termBefore lastTerm
      rw [hwhole]
    have hsplice := hshaped.splice entry.index [entry] (by simpa [hbefore] using hterm)
    rw [hwhole] at hsplice
    exact .ofFields hindexed hsnapTerm hentries hsplice

theorem Shaped.afterTruncateFrom (hshaped : log.Shaped) (index : Nat) :
    (log.truncateFrom index).2.Shaped := by
  have hindexed := hshaped.indexed.afterTruncateFrom index
  obtain ⟨-, hsnapTerm, hentries | hentries⟩ := truncateFrom_cases log index
  · exact .ofFields hindexed hsnapTerm hentries hshaped.terms
  · exact .ofFields hindexed hsnapTerm hentries
      (List.Pairwise.sublist (((take_sublist _ _).map _).cons_cons _) hshaped.terms)

theorem Shaped.afterAppendEntries (hshaped : log.Shaped) {prevIndex prevTerm : Nat}
    {entries : List LogEntry} (hprev : log.termAt prevIndex = some prevTerm)
    (hbatch : Contiguous LogEntry.index (prevIndex + 1) entries)
    (hterms : (entries.map LogEntry.term).Pairwise (· ≤ ·))
    (horder : ∀ first ∈ (log.newSuffix entries).head?,
      log.termBefore first.index ≤ first.term) : (log.appendEntries entries).2.Shaped := by
  have hindexed := hshaped.indexed.afterAppendEntries hprev hbatch
  obtain ⟨-, hsnapTerm, hentries | ⟨first, rest, hnew, hentries⟩⟩ :=
    hshaped.indexed.appendEntries_cases entries
  · exact .ofFields hindexed hsnapTerm hentries hshaped.terms
  · have hsuffixTerms : ((first :: rest).map LogEntry.term).Pairwise (· ≤ ·) := by
      obtain ⟨-, held, rfl, -⟩ := newSuffix_split hnew
      rw [map_append, pairwise_append] at hterms
      exact hterms.2.1
    have hbefore : log.termBefore first.index ≤ first.term :=
      horder first (by simp [hnew])
    obtain hentries | hentries := hentries
    · have hsplice := hshaped.splice first.index [] (by simp)
      rw [append_nil] at hsplice
      exact .ofFields hindexed hsnapTerm hentries hsplice
    · refine .ofFields hindexed hsnapTerm hentries (hshaped.splice first.index _ ?_)
      refine pairwise_cons.mpr ⟨?_, hsuffixTerms⟩
      intro term hmem
      rw [map_cons, mem_cons] at hmem
      rw [map_cons, pairwise_cons] at hsuffixTerms
      rcases hmem with rfl | hmem
      · exact hbefore
      · exact hbefore.trans (hsuffixTerms.1 term hmem)

theorem Shaped.afterApplySnapshot (hshaped : log.Shaped) {index term : Nat}
    (horder : log.snapshotIndex < index →
      ∀ entry ∈ log.entryAt (index + 1), term ≤ entry.term) :
    (log.applySnapshot index term).2.Shaped := by
  have hindexed := hshaped.indexed.afterApplySnapshot index term
  obtain ⟨hentries, -, hsnapTerm⟩ | ⟨hpast, hentries, -, hsnapTerm⟩ :=
    applySnapshot_cases log index term
  · exact .ofFields hindexed hsnapTerm hentries hshaped.terms
  · rw [hshaped.contiguous.filter_le] at hentries
    have hretained := horder hpast
    rw [hshaped.indexed.entryAt_eq (by omega)] at hretained
    refine .ofFields hindexed hsnapTerm hentries ?_
    have hsuffix :
        ((log.entries.drop (index + 1 - (log.snapshotIndex + 1))).map
          LogEntry.term).Pairwise (· ≤ ·) :=
      List.Pairwise.sublist ((drop_sublist _ _).map _)
        (pairwise_cons.mp hshaped.terms).2
    have hhead : (log.entries.drop (index + 1 - (log.snapshotIndex + 1))).head? =
        log.entries[index + 1 - log.snapshotIndex - 1]? := by
      rw [head?_drop]
      congr 1
    rw [← hhead] at hretained
    generalize log.entries.drop (index + 1 - (log.snapshotIndex + 1)) = kept at *
    cases kept with
    | nil => simp
    | cons entry rest =>
      have hfirst : term ≤ entry.term := hretained entry (by simp)
      refine pairwise_cons.mpr ⟨?_, hsuffix⟩
      intro later hmem
      rw [map_cons, mem_cons] at hmem
      rw [map_cons, pairwise_cons] at hsuffix
      rcases hmem with rfl | hmem
      · exact hfirst
      · exact hfirst.trans (hsuffix.1 later hmem)

end RaftLog

/-! ## Runs of log operations -/

namespace LogOp

/-- The calls a node makes: it appends after its last entry, takes a batch
that follows an entry it holds, truncates above the snapshot and never
installs a snapshot of a lower term. -/
def Admissible (log : RaftLog S) : LogOp → Prop
  | append entry =>
    entry.index = log.lastIndex + 1 ∧ log.lastTerm ≤ entry.term
  | appendEntries prevIndex prevTerm entries =>
    log.termAt prevIndex = some prevTerm ∧
      Contiguous LogEntry.index (prevIndex + 1) entries ∧
      (entries.map LogEntry.term).Pairwise (· ≤ ·)
  | truncateFrom index => log.snapshotIndex < index
  | applySnapshot _ term => log.snapshotTerm ≤ term

/-- The comparisons the code leaves out.  The first entry a batch adds is not
below the term the log holds just before it, and a snapshot that moves the
boundary is not above the term of the first entry it keeps. -/
def KeepsTermOrder (log : RaftLog S) : LogOp → Prop
  | append _ => True
  | appendEntries _ _ entries =>
    ∀ first ∈ (log.newSuffix entries).head?,
      log.termBefore first.index ≤ first.term
  | truncateFrom _ => True
  | applySnapshot index term =>
    log.snapshotIndex < index →
      ∀ entry ∈ log.entryAt (index + 1), term ≤ entry.term

instance (log : RaftLog S) : (op : LogOp) → Decidable (op.Admissible log)
  | append _ => inferInstanceAs (Decidable (_ ∧ _))
  | appendEntries _ _ _ => inferInstanceAs (Decidable (_ ∧ _ ∧ _))
  | truncateFrom _ => inferInstanceAs (Decidable (_ < _))
  | applySnapshot _ _ => inferInstanceAs (Decidable (_ ≤ _))

instance (log : RaftLog S) : (op : LogOp) → Decidable (op.KeepsTermOrder log)
  | append _ => isTrue trivial
  | appendEntries _ _ _ => inferInstanceAs (Decidable (∀ _ ∈ List.head? _, _))
  | truncateFrom _ => isTrue trivial
  | applySnapshot _ _ => inferInstanceAs (Decidable (_ < _ → ∀ _ ∈ RaftLog.entryAt _ _, _))

theorem shaped_perform {log : RaftLog S} (hshaped : log.Shaped) {op : LogOp}
    (hadmissible : op.Admissible log) (horder : op.KeepsTermOrder log) :
    (op.perform log).Shaped := by
  cases op with
  | append entry => exact hshaped.afterAppend hadmissible.1 hadmissible.2
  | appendEntries prevIndex prevTerm entries =>
    rcases hadmissible with ⟨hprev, hbatch, hterms⟩
    exact hshaped.afterAppendEntries hprev hbatch hterms horder
  | truncateFrom index => exact hshaped.afterTruncateFrom index
  | applySnapshot index term => exact hshaped.afterApplySnapshot horder

end LogOp

def WellFormedStore (storage : S) : Prop :=
  let boundary := LogStorage.snapshotMetadata storage
  ∀ entries, (LogStorage.loadEntriesAfter storage boundary.1).1 = .ok entries →
    Contiguous LogEntry.index (boundary.1 + 1) entries ∧
      (boundary.2 :: entries.map LogEntry.term).Pairwise (· ≤ ·)

theorem MemStorage.new_wellFormed : WellFormedStore MemStorage.new := by
  intro entries hload
  simp only [LogStorage.loadEntriesAfter, new, filter_nil, Except.ok.injEq] at hload
  subst hload
  simp

theorem shaped_restore {storage : S} (hstore : WellFormedStore storage)
    {log : RaftLog S}
    (hrestore : (RaftLog.new storage).restore = (.ok (), log)) : log.Shaped := by
  unfold RaftLog.restore at hrestore
  dsimp only [RaftLog.new] at hrestore
  split at hrestore
  next => simp at hrestore
  next entries loaded hload =>
    simp only [Prod.mk.injEq, true_and] at hrestore
    subst hrestore
    have hwell := hstore entries (by rw [hload])
    exact ⟨hwell.1, hwell.2⟩

/-- Every state a restored log reaches is shaped, as long as no batch and no
snapshot breaks the order of terms where it meets the entries before or after
it. -/
theorem shaped_of_run
    (storage : S) (log : RaftLog S) (hstore : WellFormedStore storage)
    (hrestore : (RaftLog.new storage).restore = (.ok (), log))
    (ops : List LogOp)
    (hrun : Along LogOp.perform
      (fun log op => op.Admissible log ∧ op.KeepsTermOrder log) log ops) :
    (ops.foldl LogOp.perform log).Shaped :=
  invariant_foldl RaftLog.Shaped
    (fun _ _ hshaped hop => LogOp.shaped_perform hshaped hop.1 hop.2)
    (shaped_restore hstore hrestore) hrun

/-- A log that takes a batch, replaces its tail by a later leader's entry and
is compacted at an applied index. -/
theorem shaped_of_run_compacted :
    let log := RaftLog.new MemStorage.new
    let ops : List LogOp :=
      [.appendEntries 0 0 [⟨1, 1, []⟩, ⟨1, 2, []⟩, ⟨1, 3, []⟩],
        .appendEntries 1 1 [⟨2, 2, []⟩],
        .applySnapshot 1 1]
    ops.foldl LogOp.perform log ≠ log ∧
      (ops.foldl LogOp.perform log).Shaped := by
  exact ⟨by decide,
    shaped_of_run new _ new_wellFormed rfl _ (by decide)⟩

/-- Two entries of term 1 are held when a snapshot of index 1 at term 3
arrives.  The log keeps the second entry behind a snapshot of a higher
term. -/
theorem snapshot_breaks_shape :
    let log := RaftLog.new MemStorage.new
    let ops : List LogOp :=
      [.append ⟨1, 1, []⟩, .append ⟨1, 2, []⟩, .applySnapshot 1 3]
    WellFormedStore new ∧
      (RaftLog.new new).restore = (.ok (), log) ∧
      Along LogOp.perform (fun log op => op.Admissible log) log ops ∧
      ¬ (ops.foldl LogOp.perform log).Shaped :=
  ⟨new_wellFormed, rfl, by decide, by decide⟩

end NodeDB.Raft
