import NodeDB.LogImage

/-!
# The log in memory and the log in storage

Every operation of the log writes to storage first.  Over a storage whose
writes may each fail, memory then holds after every call what a restart would
load.
-/

namespace NodeDB.Raft

open ContiguousList GroupDisk StepRuns

/-- The storage held in memory, where the next writes fail as `faults` says. -/
structure FaultyStorage where
  inner : MemStorage
  faults : List Bool
  deriving DecidableEq

namespace FaultyStorage

def write (storage : FaultyStorage) (op : MemStorage → Except RaftError Unit × MemStorage) :
    Except RaftError Unit × FaultyStorage :=
  if storage.faults.headD false then
    (.error (.storage "write failed"), { storage with faults := storage.faults.tail })
  else
    let written := op storage.inner
    (written.1, ⟨written.2, storage.faults.tail⟩)

instance instLogStorage : LogStorage FaultyStorage where
  append storage entries := storage.write (LogStorage.append · entries)
  truncate storage index := storage.write (LogStorage.truncate · index)
  loadEntriesAfter storage index :=
    ((LogStorage.loadEntriesAfter storage.inner index).1, storage)
  compact storage index term := storage.write (LogStorage.compact · index term)
  snapshotMetadata storage := LogStorage.snapshotMetadata storage.inner
  saveHardState storage state := storage.write (LogStorage.saveHardState · state)
  loadHardState storage := LogStorage.loadHardState storage.inner
  saveAppliedIndex storage index := storage.write (LogStorage.saveAppliedIndex · index)
  loadAppliedIndex storage := LogStorage.loadAppliedIndex storage.inner
  stableThrough _ := none

variable {storage storage' : FaultyStorage} {op : MemStorage → Except RaftError Unit × MemStorage}

/-- A failed write leaves the storage under it alone. -/
theorem write_error (hok : ∀ inner, (op inner).1 = .ok ()) {e : RaftError}
    (hwrite : storage.write op = (.error e, storage')) : storage'.inner = storage.inner := by
  unfold write at hwrite
  split at hwrite
  next =>
    rw [← (Prod.mk.inj hwrite).2]
  next => simp [hok] at hwrite

theorem write_ok (hwrite : storage.write op = (.ok (), storage')) :
    storage'.inner = (op storage.inner).2 := by
  unfold write at hwrite
  split at hwrite
  next => simp at hwrite
  next => rw [← (Prod.mk.inj hwrite).2]

end FaultyStorage

namespace MemStorage

theorem insertEntry_of_lt (entries : List LogEntry) (entry : LogEntry)
    (hlt : ∀ held ∈ entries, held.index < entry.index) :
    insertEntry entries entry = entries ++ [entry] := by
  induction entries with
  | nil => rfl
  | cons head tail ih =>
    have hhead := hlt head List.mem_cons_self
    rw [insertEntry, if_neg (by omega), ih fun held hmem => hlt held (by simp [hmem])]
    rfl

def image (storage : MemStorage) : LogImage :=
  ⟨storage.entries, storage.snapshotIndex, storage.snapshotTerm⟩

end MemStorage

namespace RaftLog

/-- A restart would load the entries and the boundary that memory holds. -/
def LoadsBack (log : RaftLog FaultyStorage) : Prop :=
  LogStorage.snapshotMetadata log.storage = (log.snapshotIndex, log.snapshotTerm) ∧
    (LogStorage.loadEntriesAfter log.storage log.snapshotIndex).1 = .ok log.entries

/-- Memory and storage hold the same contiguous entries after the same
boundary. -/
structure Mirrored (log : RaftLog FaultyStorage) : Prop where
  indexed : log.Indexed
  image : log.storage.inner.image = log.image

variable {log : RaftLog FaultyStorage}

theorem Mirrored.loadsBack (hmirrored : log.Mirrored) : log.LoadsBack := by
  obtain ⟨hentries, hindex, hterm⟩ := LogImage.mk.inj hmirrored.image
  refine ⟨Prod.ext hindex hterm, congrArg Except.ok ?_⟩
  rw [hentries, List.filter_eq_self]
  intro entry hmem
  have := hmirrored.indexed.key_mem hmem
  exact decide_eq_true (by omega)

variable {storage : FaultyStorage} {entries : List LogEntry}

section

variable (hmirrored : log.Mirrored)
include hmirrored

theorem Mirrored.failed (hinner : storage.inner = log.storage.inner) :
    ({ log with storage := storage } : RaftLog FaultyStorage).Mirrored :=
  ⟨hmirrored.indexed, (congrArg _ hinner).trans hmirrored.image⟩

theorem Mirrored.extended (hbatch : Contiguous LogEntry.index (log.lastIndex + 1) entries)
    (hwrite : LogStorage.append log.storage entries = (.ok (), storage)) :
    ({ log with storage := storage, entries := log.entries ++ entries } :
      RaftLog FaultyStorage).Mirrored := by
  have hwhole : Contiguous LogEntry.index (log.snapshotIndex + 1) (log.entries ++ entries) := by
    rw [hmirrored.indexed.lastIndex_eq, Nat.add_right_comm] at hbatch
    rw [contiguous_append]
    exact ⟨hmirrored.indexed, hbatch⟩
  obtain ⟨hentries, hindex, hterm⟩ := LogImage.mk.inj hmirrored.image
  have hfold := hwhole.foldl_insert MemStorage.insertEntry_of_lt
  rw [← hentries] at hfold
  refine ⟨hwhole, ?_⟩
  rw [FaultyStorage.write_ok hwrite]
  exact LogImage.ext (hfold.trans (congrArg (· ++ entries) hentries)) hindex hterm

theorem Mirrored.append {entry : LogEntry}
    (hindex : entry.index = log.lastIndex + 1) : (log.append entry).2.Mirrored := by
  unfold RaftLog.append
  split
  next hwrite => exact hmirrored.failed (FaultyStorage.write_error (fun _ => rfl) hwrite)
  next hwrite => exact hmirrored.extended (by simpa using hindex) hwrite

theorem Mirrored.truncateFrom (index : Nat) : (log.truncateFrom index).2.Mirrored := by
  have hindexed := hmirrored.indexed.afterTruncateFrom index
  obtain ⟨hentries, hboundary, hterm⟩ := LogImage.mk.inj hmirrored.image
  unfold RaftLog.truncateFrom at hindexed ⊢
  split
  next => exact hmirrored
  next hpast =>
    rw [if_neg hpast] at hindexed
    split at hindexed
    next hwrite => exact hmirrored.failed (FaultyStorage.write_error (fun _ => rfl) hwrite)
    next hwrite =>
      refine ⟨hindexed, ?_⟩
      rw [FaultyStorage.write_ok hwrite]
      have hkept := hmirrored.indexed.filter_lt index
      rw [← hentries] at hkept
      exact LogImage.ext (hkept.trans (by rw [hentries]; rfl)) hboundary hterm

theorem Mirrored.applySnapshot (index term : Nat) : (log.applySnapshot index term).2.Mirrored := by
  have hindexed := hmirrored.indexed.afterApplySnapshot index term
  unfold RaftLog.applySnapshot at hindexed ⊢
  split
  next => exact hmirrored
  next hpast =>
    rw [if_neg hpast] at hindexed
    split at hindexed
    next hwrite => exact hmirrored.failed (FaultyStorage.write_error (fun _ => rfl) hwrite)
    next hwrite =>
      refine ⟨hindexed, ?_⟩
      rw [FaultyStorage.write_ok hwrite]
      exact LogImage.ext (congrArg (List.filter _) (LogImage.mk.inj hmirrored.image).1) rfl rfl

theorem Mirrored.appendEntries {prevIndex prevTerm : Nat}
    (hprev : log.termAt prevIndex = some prevTerm)
    (hbatch : Contiguous LogEntry.index (prevIndex + 1) entries) :
    (log.appendEntries entries).2.Mirrored := by
  unfold RaftLog.appendEntries
  split
  next => exact hmirrored
  next first rest hnew =>
    obtain ⟨hpast, hreach, hsuffix⟩ := hmirrored.indexed.newSuffix_reach hprev hbatch hnew
    -- Whether or not a conflict is cut first, the new suffix continues the log.
    have hcut : let cut := if (log.entryAt first.index).isSome then
          log.truncateFrom first.index else (.ok (), log)
        cut.2.Mirrored ∧ (cut.1 = .ok () → cut.2.lastIndex + 1 = first.index) := by
      have hlast := hmirrored.indexed.lastIndex_eq
      intro cut
      by_cases hheld : (log.entryAt first.index).isSome
      · simp only [cut, if_pos hheld]
        have hmirror := hmirrored.truncateFrom first.index
        refine ⟨hmirror, fun hok => ?_⟩
        have hbound := le_lastIndex_of_entryAt hheld
        obtain ⟨hindex, -, hentries⟩ := truncateFrom_ok hpast (Prod.ext hok rfl)
        rw [hmirror.indexed.lastIndex_eq, hindex, hentries, List.length_take]
        omega
      · simp only [cut, if_neg hheld]
        refine ⟨hmirrored, fun _ => ?_⟩
        rw [hmirrored.indexed.entryAt_eq hpast, Option.isSome_iff_ne_none, not_not,
          List.getElem?_eq_none_iff] at hheld
        omega
    dsimp only at hcut ⊢
    split
    next hfail => exact (hfail ▸ hcut).1
    next cut hdone =>
      rw [hdone] at hcut
      rw [← hcut.2 rfl] at hsuffix
      split
      next hwrite => exact hcut.1.failed (FaultyStorage.write_error (fun _ => rfl) hwrite)
      next hwrite => exact hcut.1.extended hsuffix hwrite

end

end RaftLog

/-- The entries a call hands to the log continue it. -/
def LogOp.Continues (log : RaftLog FaultyStorage) : LogOp → Prop
  | truncateFrom _ => True
  | op => op.Placed log

instance LogOp.decidableContinues (log : RaftLog FaultyStorage) :
    (op : LogOp) → Decidable (op.Continues log)
  | truncateFrom _ => isTrue trivial
  | append entry => inferInstanceAs (Decidable ((append entry).Placed log))
  | appendEntries index term entries =>
    inferInstanceAs (Decidable ((appendEntries index term entries).Placed log))
  | applySnapshot _ _ => isTrue trivial

theorem LogOp.mirrored_perform {log : RaftLog FaultyStorage} (hmirrored : log.Mirrored)
    {op : LogOp} (hcontinues : op.Continues log) : (op.perform log).Mirrored := by
  cases op with
  | append entry => exact hmirrored.append hcontinues
  | appendEntries prevIndex prevTerm entries =>
    exact hmirrored.appendEntries hcontinues.1 hcontinues.2
  | truncateFrom index => exact hmirrored.truncateFrom index
  | applySnapshot index term => exact hmirrored.applySnapshot index term

/-- Whichever writes fail, memory holds after every call what a restart would
load, as long as the entries handed to the log continue it. -/
theorem loads_back_of_run (faults : List Bool) (ops : List LogOp)
    (hrun : Along LogOp.perform LogOp.Continues
      (RaftLog.new (⟨MemStorage.new, faults⟩ : FaultyStorage)) ops) :
    (ops.foldl LogOp.perform
      (RaftLog.new (⟨MemStorage.new, faults⟩ : FaultyStorage))).LoadsBack := by
  refine (invariant_foldl RaftLog.Mirrored
    (fun _ _ hmirrored hop => LogOp.mirrored_perform hmirrored hop) ?_ hrun).loadsBack
  exact ⟨contiguous_nil _, rfl⟩

/-- A later leader's entry cuts two entries, and the write of the entry itself
fails. -/
theorem loads_back_of_run_failed_append :
    let ops : List LogOp := [.appendEntries 0 0 [⟨1, 1, []⟩, ⟨1, 2, []⟩, ⟨1, 3, []⟩],
      .appendEntries 1 1 [⟨2, 2, []⟩], .applySnapshot 1 1]
    let log := ops.foldl LogOp.perform
      (RaftLog.new (⟨MemStorage.new, [false, false, true]⟩ : FaultyStorage))
    log.LoadsBack ∧ log.lastIndex = 1 :=
  ⟨loads_back_of_run _ _ (by decide), by decide⟩

/-- An entry handed to the log twice is held twice in memory and once in
storage. -/
theorem repeated_append_not_loaded :
    let ops : List LogOp := [.append ⟨1, 1, []⟩, .append ⟨1, 1, []⟩]
    ¬ (ops.foldl LogOp.perform
      (RaftLog.new (⟨MemStorage.new, []⟩ : FaultyStorage))).LoadsBack := by
  unfold RaftLog.LoadsBack
  decide

end NodeDB.Raft
