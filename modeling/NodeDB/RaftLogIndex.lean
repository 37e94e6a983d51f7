import NodeDB.ContiguousList
import NodeDB.RaftLog
import Mathlib.Data.List.TakeWhile
import Mathlib.Tactic

/-!
# What each log operation can do

One lemma per operation says everything the operation can leave behind,
failed storage writes included.  A log is indexed when its entries are
contiguous after the snapshot boundary, so that an entry stands at the offset
its index names.
-/

namespace NodeDB.Raft

open ContiguousList List Contiguous

variable {S : Type} [LogStorage S]

namespace RaftLog

/-- The entries are contiguous from the first index after the snapshot. -/
def Indexed (log : RaftLog S) : Prop :=
  Contiguous LogEntry.index (log.snapshotIndex + 1) log.entries

variable {log : RaftLog S} {index : Nat} {entries : List LogEntry}

section

omit [LogStorage S]

theorem Indexed.lastIndex_eq (hindexed : log.Indexed) :
    log.lastIndex = log.snapshotIndex + log.entries.length :=
  hindexed.getLast?_getD

theorem Indexed.entryAt_eq (hindexed : log.Indexed) (hindex : log.snapshotIndex < index) :
    log.entryAt index = log.entries[index - log.snapshotIndex - 1]? := by
  unfold entryAt
  rw [hindexed.lastIndex_eq]
  split
  next hout =>
    rw [getElem?_eq_none (by omega)]
  next => rfl

theorem le_lastIndex_of_entryAt (hentry : (log.entryAt index).isSome) :
    log.snapshotIndex < index ∧ index ≤ log.lastIndex := by
  unfold entryAt at hentry
  split at hentry
  next => simp at hentry
  next hin => omega

theorem Indexed.entriesRange_eq (hindexed : log.Indexed)
    {lo hi : Nat} (hlo : log.snapshotIndex ≤ lo) (hle : lo < hi)
    (hhi : hi ≤ log.lastIndex) :
    ∃ entries, log.entriesRange (lo + 1) hi = .ok entries ∧
      Spans LogEntry.index lo hi entries := by
  have hlast := hindexed.lastIndex_eq
  have hread : log.entriesRange (lo + 1) hi =
      .ok ((log.entries.take (min hi log.lastIndex - log.snapshotIndex - 1 + 1)).drop
        (lo + 1 - log.snapshotIndex - 1)) := by
    unfold entriesRange
    rw [if_neg (by omega), if_neg (by omega)]
  rw [show min hi log.lastIndex = hi by omega] at hread
  refine ⟨_, hread, ?_⟩
  have hwhole : Spans LogEntry.index log.snapshotIndex hi
      (log.entries.take (hi - log.snapshotIndex - 1 + 1)) := by
    refine ⟨by omega, take hindexed _, ?_⟩
    rw [length_take]
    omega
  have hdrop := hwhole.drop (lo + 1 - log.snapshotIndex - 1)
  rw [show min (log.snapshotIndex + (lo + 1 - log.snapshotIndex - 1)) hi = lo by
    omega] at hdrop
  exact hdrop

end

/-! ## What each operation can do -/

theorem append_cases (log : RaftLog S) (entry : LogEntry) :
    (log.append entry).2.snapshotIndex = log.snapshotIndex ∧
      (log.append entry).2.snapshotTerm = log.snapshotTerm ∧
      ((log.append entry).2.entries = log.entries ∨
        (log.append entry).2.entries = log.entries ++ [entry]) := by
  unfold append
  split <;> simp

theorem truncateFrom_cases (log : RaftLog S) (index : Nat) :
    (log.truncateFrom index).2.snapshotIndex = log.snapshotIndex ∧
      (log.truncateFrom index).2.snapshotTerm = log.snapshotTerm ∧
      ((log.truncateFrom index).2.entries = log.entries ∨
        (log.truncateFrom index).2.entries =
          log.entries.take (index - log.snapshotIndex - 1)) := by
  unfold truncateFrom
  split
  · simp
  · split <;> simp

theorem truncateFrom_ok {log' : RaftLog S} (hindex : log.snapshotIndex < index)
    (hok : log.truncateFrom index = (.ok (), log')) :
    log'.snapshotIndex = log.snapshotIndex ∧
      log'.snapshotTerm = log.snapshotTerm ∧
      log'.entries = log.entries.take (index - log.snapshotIndex - 1) := by
  unfold truncateFrom at hok
  rw [if_neg (by omega)] at hok
  split at hok
  next => simp at hok
  next =>
    simp only [Prod.mk.injEq, true_and] at hok
    subst hok
    exact ⟨rfl, rfl, rfl⟩

theorem applySnapshot_cases (log : RaftLog S) (index term : Nat) :
    ((log.applySnapshot index term).2.entries = log.entries ∧
      (log.applySnapshot index term).2.snapshotIndex = log.snapshotIndex ∧
      (log.applySnapshot index term).2.snapshotTerm = log.snapshotTerm) ∨
    (log.snapshotIndex < index ∧
      (log.applySnapshot index term).2.entries =
        log.entries.filter (fun entry => decide (index + 1 ≤ entry.index)) ∧
      (log.applySnapshot index term).2.snapshotIndex = index ∧
      (log.applySnapshot index term).2.snapshotTerm = term) := by
  unfold applySnapshot
  split
  · simp
  next hindex =>
    split
    · simp
    · exact .inr ⟨by omega, rfl, rfl, rfl⟩

omit [LogStorage S] in
theorem newSuffix_split {first : LogEntry} {rest : List LogEntry}
    (hnew : log.newSuffix entries = first :: rest) :
    log.isNew first = true ∧
      ∃ held, entries = held ++ first :: rest ∧
        ∀ entry ∈ held, log.isNew entry = false := by
  unfold newSuffix at hnew
  refine ⟨?_, entries.takeWhile fun entry => !log.isNew entry, ?_, ?_⟩
  · have hne : (entries.dropWhile fun entry => !log.isNew entry) ≠ [] := by
      simp [hnew]
    have hhead := head_dropWhile_not (fun entry => !log.isNew entry) hne
    simpa [hnew] using hhead
  · rw [← hnew, takeWhile_append_dropWhile]
  · intro entry hmem
    simpa using mem_takeWhile_imp hmem

theorem Indexed.appendEntries_cases (hindexed : log.Indexed) (entries : List LogEntry) :
    (log.appendEntries entries).2.snapshotIndex = log.snapshotIndex ∧
      (log.appendEntries entries).2.snapshotTerm = log.snapshotTerm ∧
      ((log.appendEntries entries).2.entries = log.entries ∨
        ∃ first rest, log.newSuffix entries = first :: rest ∧
          let kept := log.entries.take (first.index - log.snapshotIndex - 1)
          (log.appendEntries entries).2.entries = kept ∨
            (log.appendEntries entries).2.entries = kept ++ first :: rest) := by
  unfold appendEntries
  cases hnew : log.newSuffix entries with
  | nil => simp
  | cons first rest =>
    have hfirst := (newSuffix_split hnew).1
    have hpast : log.snapshotIndex < first.index := by
      unfold isNew at hfirst
      simp only [Bool.and_eq_true, decide_eq_true_eq] at hfirst
      exact hfirst.1
    by_cases hheld : (log.entryAt first.index).isSome
    · simp only [hheld, if_true]
      rcases htruncate : log.truncateFrom first.index with ⟨result, log'⟩
      have hcases := truncateFrom_cases log first.index
      rw [htruncate] at hcases
      cases result with
      | error e =>
        rcases hcases with ⟨hindex, hterm, hentries | hentries⟩
        · exact ⟨hindex, hterm, .inl hentries⟩
        · exact ⟨hindex, hterm, .inr ⟨first, rest, rfl, .inl hentries⟩⟩
      | ok _ =>
        rcases truncateFrom_ok hpast htruncate with ⟨hindex, hterm, hentries⟩
        dsimp only
        split
        · exact ⟨hindex, hterm, .inr ⟨first, rest, rfl, .inl hentries⟩⟩
        · exact ⟨hindex, hterm,
            .inr ⟨first, rest, rfl, .inr (by simp [hentries])⟩⟩
    · have hkept :
          log.entries.take (first.index - log.snapshotIndex - 1) =
            log.entries := by
        apply take_of_length_le
        rw [hindexed.entryAt_eq hpast] at hheld
        simpa using hheld
      simp only [hheld, Bool.false_eq_true, if_false]
      split <;> simp [hkept]

section

omit [LogStorage S]

theorem termAt_le_lastIndex {term : Nat} (hterm : log.termAt index = some term) (hzero : index ≠ 0) :
    log.snapshotIndex ≤ index ∧ index ≤ max log.lastIndex log.snapshotIndex := by
  unfold termAt at hterm
  rw [if_neg hzero] at hterm
  split at hterm
  next heq => omega
  next hne =>
    split at hterm
    next => simp at hterm
    next hge =>
      have hsome : (log.entryAt index).isSome := by
        cases hentry : log.entryAt index with
        | none => simp [hentry] at hterm
        | some entry => rfl
      have := le_lastIndex_of_entryAt hsome
      omega

/-- The first new entry of a batch that starts right after a matched entry
lies at most one past the end of the log, and the new suffix is contiguous
from it on. -/
theorem Indexed.newSuffix_reach (hindexed : log.Indexed) {prevIndex prevTerm : Nat}
    (hprev : log.termAt prevIndex = some prevTerm)
    (hbatch : Contiguous LogEntry.index (prevIndex + 1) entries)
    {first : LogEntry} {rest : List LogEntry}
    (hnew : log.newSuffix entries = first :: rest) :
    log.snapshotIndex < first.index ∧ first.index ≤ log.lastIndex + 1 ∧
      Contiguous LogEntry.index first.index (first :: rest) := by
  rcases newSuffix_split hnew with ⟨hfirst, held, rfl, hheld⟩
  rw [contiguous_append] at hbatch
  rcases hbatch with ⟨hheldBatch, hsuffix⟩
  have hindex : first.index = prevIndex + 1 + held.length := hsuffix.1
  rw [← hindex] at hsuffix
  have hpast : log.snapshotIndex < first.index := by
    unfold isNew at hfirst
    simp only [Bool.and_eq_true, decide_eq_true_eq] at hfirst
    exact hfirst.1
  refine ⟨hpast, ?_, hsuffix⟩
  have hlast := hindexed.lastIndex_eq
  rcases eq_nil_or_concat held with rfl | ⟨front, last, rfl⟩
  · -- The batch starts with its new entry, right after the matched one.
    by_cases hzero : prevIndex = 0
    · simp only [length_nil, hzero] at hindex
      omega
    · have := termAt_le_lastIndex hprev hzero
      simp only [length_nil] at hindex
      omega
  · -- The entry before the new one is held, or lies under the snapshot.
    have hlastIndex : last.index + 1 = first.index := by
      have := hheldBatch.key_getLast? (by simp : _ = some last)
      omega
    have hlastHeld := hheld last (by simp)
    unfold isNew at hlastHeld
    cases hentry : log.entryAt last.index with
    | some entry =>
      have := le_lastIndex_of_entryAt (by rw [hentry]; rfl)
      omega
    | none =>
      simp only [hentry, Bool.and_true, decide_eq_false_iff_not] at hlastHeld
      omega

end

/-! ## How each operation treats the indices -/

omit [LogStorage S] in
theorem Indexed.ofFields (hindex : log.snapshotIndex = index) (hentries : log.entries = entries)
    (hcontiguous : Contiguous LogEntry.index (index + 1) entries) : log.Indexed := by
  subst hindex hentries
  exact hcontiguous

section

variable (hindexed : log.Indexed)
include hindexed

omit [LogStorage S] in
theorem Indexed.splice (hpast : log.snapshotIndex < index) (hreach : index ≤ log.lastIndex + 1)
    (hcontiguous : Contiguous LogEntry.index index entries) :
    Contiguous LogEntry.index (log.snapshotIndex + 1)
      (log.entries.take (index - log.snapshotIndex - 1) ++ entries) := by
  rw [hindexed.lastIndex_eq] at hreach
  have hlength :
      (log.entries.take (index - log.snapshotIndex - 1)).length =
        index - log.snapshotIndex - 1 := by
    rw [length_take]
    omega
  rw [contiguous_append, hlength]
  refine ⟨take hindexed _, ?_⟩
  rw [show log.snapshotIndex + 1 + (index - log.snapshotIndex - 1) = index by omega]
  exact hcontiguous

theorem Indexed.afterAppend {entry : LogEntry} (hindex : entry.index = log.lastIndex + 1) :
    (log.append entry).2.Indexed := by
  obtain ⟨hsnapIndex, -, hentries | hentries⟩ := append_cases log entry
  · exact .ofFields hsnapIndex hentries hindexed
  · have hlast := hindexed.lastIndex_eq
    have hsplice := hindexed.splice (by omega) (by omega)
      (show Contiguous LogEntry.index entry.index [entry] by simp)
    rw [take_of_length_le (by omega)] at hsplice
    exact .ofFields hsnapIndex hentries hsplice

theorem Indexed.afterTruncateFrom (index : Nat) : (log.truncateFrom index).2.Indexed := by
  obtain ⟨hsnapIndex, -, hentries | hentries⟩ := truncateFrom_cases log index
  · exact .ofFields hsnapIndex hentries hindexed
  · exact .ofFields hsnapIndex hentries (take hindexed _)

theorem Indexed.afterAppendEntries {prevIndex prevTerm : Nat}
    (hprev : log.termAt prevIndex = some prevTerm)
    (hbatch : Contiguous LogEntry.index (prevIndex + 1) entries) :
    (log.appendEntries entries).2.Indexed := by
  obtain ⟨hsnapIndex, -, hentries | ⟨first, rest, hnew, hentries⟩⟩ :=
    hindexed.appendEntries_cases entries
  · exact .ofFields hsnapIndex hentries hindexed
  · obtain ⟨hpast, hreach, hcontiguous⟩ := hindexed.newSuffix_reach hprev hbatch hnew
    obtain hentries | hentries := hentries
    · exact .ofFields hsnapIndex hentries (take hindexed _)
    · exact .ofFields hsnapIndex hentries (hindexed.splice hpast hreach hcontiguous)

theorem Indexed.afterApplySnapshot
    (index term : Nat) : (log.applySnapshot index term).2.Indexed := by
  obtain ⟨hentries, hsnapIndex, -⟩ | ⟨hpast, hentries, hsnapIndex, -⟩ :=
    applySnapshot_cases log index term
  · exact .ofFields hsnapIndex hentries hindexed
  · rw [filter_le hindexed] at hentries
    refine .ofFields hsnapIndex hentries ?_
    rcases Nat.lt_or_ge log.entries.length (index + 1 - (log.snapshotIndex + 1)) with
      hshort | hlong
    · rw [drop_eq_nil_of_le (by omega)]
      exact contiguous_nil _
    · have hdrop := drop hindexed hlong
      rw [show log.snapshotIndex + 1 + (index + 1 - (log.snapshotIndex + 1)) = index + 1 by
        omega] at hdrop
      exact hdrop

end

end RaftLog

/-- A call on the log.  An `appendEntries` request also names the entry it
follows. -/
inductive LogOp where
  | append (entry : LogEntry)
  | appendEntries (prevIndex prevTerm : Nat) (entries : List LogEntry)
  | truncateFrom (index : Nat)
  | applySnapshot (index term : Nat)
  deriving DecidableEq

namespace LogOp

/-- The log a call leaves behind, whether or not its storage accepted it. -/
def perform (log : RaftLog S) : LogOp → RaftLog S
  | append entry => (log.append entry).2
  | appendEntries _ _ entries => (log.appendEntries entries).2
  | truncateFrom index => (log.truncateFrom index).2
  | applySnapshot index term => (log.applySnapshot index term).2

end LogOp

end NodeDB.Raft
