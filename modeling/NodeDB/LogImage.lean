import NodeDB.GroupDisk
import NodeDB.RaftLogIndex
import NodeDB.StepRuns

/-!
# Log contents and the writes that change them

The in-memory log and the store on disk hold the same kind of contents: a
snapshot boundary and the entries after it.  A log operation over the staged
storage stages a list of writes, and changes memory exactly as these writes
change the contents they are replayed on.
-/

namespace NodeDB
namespace GroupDisk

open Raft ContiguousList StepRuns List

/-- A snapshot boundary and the entries held after it. -/
@[ext]
structure LogImage where
  entries : List LogEntry
  snapshotIndex : Nat
  snapshotTerm : Nat
  deriving DecidableEq

def RedbLogStorage.image (storage : RedbLogStorage) : LogImage :=
  ⟨storage.entries, storage.snapshotIndex, storage.snapshotTerm⟩

namespace LogImage

def apply (image : LogImage) : StorageOp → LogImage
  | .append entries => { image with entries := image.entries ++ entries }
  | .truncate index =>
    { image with
      entries := image.entries.filter fun e => decide (e.index < index) }
  | .compact index term =>
    { entries := image.entries.filter fun e => decide (index + 1 ≤ e.index)
      snapshotIndex := index
      snapshotTerm := term }
  | .hardState _ => image
  | .appliedIndex _ => image

def Indexed (image : LogImage) : Prop :=
  Contiguous LogEntry.index (image.snapshotIndex + 1) image.entries
  deriving Decidable

def lastIndex (image : LogImage) : Nat :=
  (image.entries.getLast?.map LogEntry.index).getD image.snapshotIndex

/-- A write that continues the contents: an append follows the last entry,
and a cut or a boundary lies above the current boundary. -/
def InOrder (image : LogImage) : StorageOp → Prop
  | .append entries => Contiguous LogEntry.index (image.lastIndex + 1) entries
  | .truncate index => image.snapshotIndex < index
  | .compact index _ => image.snapshotIndex < index
  | .hardState _ => True
  | .appliedIndex _ => True

variable {image : LogImage}

theorem Indexed.lastIndex_eq (hindexed : image.Indexed) :
    image.lastIndex = image.snapshotIndex + image.entries.length :=
  hindexed.getLast?_getD

theorem Indexed.le_lastIndex (hindexed : image.Indexed)
    {entry : LogEntry} (hmem : entry ∈ image.entries) :
    image.snapshotIndex < entry.index ∧ entry.index ≤ image.lastIndex := by
  have := hindexed.key_mem hmem
  rw [hindexed.lastIndex_eq]
  omega

variable {op : StorageOp}

theorem snapshotIndex_apply_le (horder : InOrder image op) :
    image.snapshotIndex ≤ (image.apply op).snapshotIndex := by
  cases op with
  | compact index term => exact Nat.le_of_lt horder
  | _ => exact le_rfl

theorem Indexed.afterApply (hindexed : image.Indexed)
    (horder : InOrder image op) : (image.apply op).Indexed := by
  cases op with
  | append entries =>
    refine (contiguous_append _ _ _).mpr ⟨hindexed, ?_⟩
    have horder : Contiguous LogEntry.index (image.lastIndex + 1) entries :=
      horder
    rw [hindexed.lastIndex_eq] at horder
    rw [Nat.add_right_comm] at horder
    exact horder
  | truncate index =>
    unfold Indexed apply
    dsimp only
    rw [hindexed.filter_lt]
    exact hindexed.take _
  | compact index term =>
    have horder : image.snapshotIndex < index := horder
    unfold Indexed apply
    dsimp only
    rw [hindexed.filter_le]
    rcases Nat.lt_or_ge image.entries.length
        (index + 1 - (image.snapshotIndex + 1)) with hshort | hlong
    · rw [drop_eq_nil_of_le (by omega)]
      exact contiguous_nil _
    · have hdrop := hindexed.drop hlong
      rw [show image.snapshotIndex + 1 + (index + 1 - (image.snapshotIndex + 1)) =
        index + 1 by omega] at hdrop
      exact hdrop
  | hardState state | appliedIndex index => exact hindexed

theorem Indexed.lastIndex_apply (hindexed : image.Indexed)
    (horder : InOrder image op) (term : Nat) :
    (image.apply op).lastIndex = (nextStable (image.lastIndex, term) op).1 := by
  have hafter := (hindexed.afterApply horder).lastIndex_eq
  have hlast := hindexed.lastIndex_eq
  cases op with
  | append entries =>
    have horder : Contiguous LogEntry.index (image.lastIndex + 1) entries :=
      horder
    rcases eq_nil_or_concat entries with rfl | ⟨front, last, rfl⟩
    · simp [apply, nextStable]
    · have hkey := horder.key_getLast? (by simp : _ = some last)
      rw [hafter]
      simp only [apply, nextStable, concat_eq_append, getLast?_append,
        getLast?_singleton, Option.some_or, length_append,
        length_singleton] at hkey ⊢
      omega
  | truncate index =>
    have horder : image.snapshotIndex < index := horder
    rw [hafter]
    simp only [apply, nextStable, hindexed.filter_lt, length_take]
    split <;> dsimp only <;> omega
  | compact index term =>
    have horder : image.snapshotIndex < index := horder
    rw [hafter]
    simp only [apply, nextStable, hindexed.filter_le, length_drop]
    split <;> dsimp only <;> omega
  | hardState state | appliedIndex index => rfl

end LogImage

def StorageOp.cuts (index : Nat) : StorageOp → Bool
  | .truncate cut => decide (cut ≤ index)
  | _ => false

namespace LogImage

variable {image : LogImage} {bound : Nat} {ops : List StorageOp}

theorem Indexed.mem_apply_iff (hindexed : image.Indexed) {op : StorageOp}
    (horder : InOrder image op) (hbound : bound ≤ image.lastIndex) (hcuts : op.cuts bound = false) :
    bound ≤ (image.apply op).lastIndex ∧
      ∀ entry, entry.index ≤ bound →
        (entry ∈ (image.apply op).entries ↔
          entry ∈ image.entries ∧ (image.apply op).snapshotIndex < entry.index) := by
  have hlast := hindexed.lastIndex_apply horder 0
  cases op with
  | append entries =>
    have horder : Contiguous LogEntry.index (image.lastIndex + 1) entries :=
      horder
    refine ⟨?_, ?_⟩
    · rw [hlast]
      simp only [nextStable]
      split
      next => exact hbound
      next last hgetLast =>
        have := horder.key_mem (mem_of_getLast? hgetLast)
        dsimp only
        omega
    · intro entry hentry
      simp only [apply, mem_append]
      constructor
      · rintro (hmem | hmem)
        · exact ⟨hmem, (hindexed.le_lastIndex hmem).1⟩
        · have := horder.key_mem hmem
          omega
      · rintro ⟨hmem, -⟩
        exact .inl hmem
  | truncate index =>
    simp only [StorageOp.cuts, decide_eq_false_iff_not] at hcuts
    refine ⟨?_, ?_⟩
    · rw [hlast]
      simp only [nextStable]
      split <;> dsimp only <;> omega
    · intro entry hentry
      simp only [apply, mem_filter, decide_eq_true_eq]
      constructor
      · rintro ⟨hmem, -⟩
        exact ⟨hmem, (hindexed.le_lastIndex hmem).1⟩
      · rintro ⟨hmem, -⟩
        exact ⟨hmem, by omega⟩
  | compact index term =>
    have horder : image.snapshotIndex < index := horder
    refine ⟨?_, ?_⟩
    · rw [hlast]
      simp only [nextStable]
      split <;> dsimp only <;> omega
    · intro entry hentry
      simp [apply]
  | hardState state | appliedIndex index =>
    refine ⟨hbound, ?_⟩
    intro entry _
    exact ⟨fun hmem => ⟨hmem, (hindexed.le_lastIndex hmem).1⟩, fun h => h.1⟩

/-! ## Replaying several writes -/

theorem Indexed.afterReplay (hindexed : image.Indexed)
    (horder : Along apply InOrder image ops) : (ops.foldl apply image).Indexed :=
  invariant_foldl Indexed (fun _ _ hindexed horder => hindexed.afterApply horder)
    hindexed horder

theorem Indexed.lastIndex_replay (hindexed : image.Indexed)
    (horder : Along apply InOrder image ops) {stable : Nat × Nat}
    (hstable : stable.1 = image.lastIndex) :
    (ops.foldl nextStable stable).1 = (ops.foldl apply image).lastIndex := by
  induction ops generalizing image stable with
  | nil => exact hstable
  | cons op ops ih =>
    rcases horder with ⟨hop, hops⟩
    apply ih (hindexed.afterApply hop) hops
    rw [hindexed.lastIndex_apply hop stable.2, ← hstable]

theorem snapshotIndex_replay_le (horder : Along apply InOrder image ops) :
    image.snapshotIndex ≤ (ops.foldl apply image).snapshotIndex := by
  induction ops generalizing image with
  | nil => exact le_rfl
  | cons op ops ih => exact (snapshotIndex_apply_le horder.1).trans (ih horder.2)

theorem Indexed.mem_replay_iff (hindexed : image.Indexed)
    (horder : Along apply InOrder image ops) (hbound : bound ≤ image.lastIndex)
    (hcuts : ∀ op ∈ ops, op.cuts bound = false) {entry : LogEntry} (hentry : entry.index ≤ bound) :
    entry ∈ (ops.foldl apply image).entries ↔
      entry ∈ image.entries ∧
        (ops.foldl apply image).snapshotIndex < entry.index := by
  induction ops generalizing image with
  | nil =>
    exact ⟨fun hmem => ⟨hmem, (hindexed.le_lastIndex hmem).1⟩, fun h => h.1⟩
  | cons op ops ih =>
    rcases horder with ⟨hop, hops⟩
    rcases hindexed.mem_apply_iff hop hbound (hcuts op (by simp)) with
      ⟨hbound', hmem⟩
    have hsnap := snapshotIndex_replay_le hops
    rw [List.foldl_cons, ih (hindexed.afterApply hop) hops hbound'
      (fun later hlater => hcuts later (by simp [hlater])), hmem entry hentry]
    constructor
    · rintro ⟨⟨h, -⟩, hlt⟩
      exact ⟨h, hlt⟩
    · rintro ⟨h, hlt⟩
      exact ⟨⟨h, by omega⟩, hlt⟩

end LogImage

/-! ## The store replays the same writes -/

theorem RedbLogStorage.insert_of_lt (entries : List LogEntry) (entry : LogEntry)
    (hlt : ∀ held ∈ entries, held.index < entry.index) :
    insert entries entry = entries ++ [entry] := by
  induction entries with
  | nil => rfl
  | cons head tail ih =>
    have hhead := hlt head (by simp)
    rw [insert, if_neg (by omega), if_neg (by omega), ih fun held hmem => hlt held (by simp [hmem])]
    rfl

variable {storage : RedbLogStorage}

theorem RedbLogStorage.image_apply (hindexed : storage.image.Indexed) {op : StorageOp}
    (horder : LogImage.InOrder storage.image op) :
    (storage.apply op).image = storage.image.apply op := by
  cases op with
  | append entries =>
    have hafter := hindexed.afterApply horder
    have hfold := Contiguous.foldl_insert insert_of_lt hafter
    simp only [image] at hfold
    simp only [image, RedbLogStorage.apply, RedbLogStorage.append, hfold, LogImage.apply]
  | truncate index | compact index term | hardState state | appliedIndex index => rfl

theorem RedbLogStorage.image_replay (hindexed : storage.image.Indexed) {ops : List StorageOp}
    (horder : Along LogImage.apply LogImage.InOrder storage.image ops) :
    (ops.foldl RedbLogStorage.apply storage).image =
      ops.foldl LogImage.apply storage.image := by
  induction ops generalizing storage with
  | nil => rfl
  | cons op ops ih =>
    rcases horder with ⟨hop, hops⟩
    have himage := image_apply hindexed hop
    rw [List.foldl_cons, List.foldl_cons, ← himage]
    rw [← himage] at hops
    apply ih _ hops
    rw [himage]
    exact hindexed.afterApply hop

end GroupDisk

namespace Raft

open GroupDisk ContiguousList StepRuns

def RaftLog.image {S : Type} (log : RaftLog S) : LogImage :=
  ⟨log.entries, log.snapshotIndex, log.snapshotTerm⟩

namespace LogOp

/-- The indices of a call fit the log: it appends after the last entry, takes
a batch that follows an entry it holds and truncates above the snapshot. -/
def Placed {S : Type} (log : RaftLog S) : LogOp → Prop
  | append entry => entry.index = log.lastIndex + 1
  | appendEntries prevIndex prevTerm entries =>
    log.termAt prevIndex = some prevTerm ∧
      Contiguous LogEntry.index (prevIndex + 1) entries
  | truncateFrom index => log.snapshotIndex < index
  | applySnapshot _ _ => True

instance {S : Type} (log : RaftLog S) (op : LogOp) : Decidable (op.Placed log) := by
  cases op <;> dsimp only [Placed] <;> infer_instance

def writes {S : Type} (log : RaftLog S) : LogOp → List StorageOp
  | append entry => [.append [entry]]
  | appendEntries _ _ entries =>
    match log.newSuffix entries with
    | [] => []
    | first :: rest =>
      (if (log.entryAt first.index).isSome then [.truncate first.index] else []) ++
        [.append (first :: rest)]
  | truncateFrom index =>
    if index ≤ log.snapshotIndex then [] else [.truncate index]
  | applySnapshot index term =>
    if index ≤ log.snapshotIndex then [] else [.compact index term]

theorem perform_staged {log : RaftLog StagedLogStorage}
    (hindexed : log.Indexed) {op : LogOp} (hplaced : op.Placed log) :
    (op.perform log).storage.disk =
        (op.writes log).foldl Disk.stage log.storage.disk ∧
      (op.perform log).image = (op.writes log).foldl LogImage.apply log.image ∧
      Along LogImage.apply LogImage.InOrder log.image (op.writes log) := by
  cases op with
  | append entry =>
    refine ⟨rfl, rfl, ?_, trivial⟩
    have hindex : entry.index = log.image.lastIndex + 1 := hplaced
    simpa [LogImage.InOrder] using hindex
  | truncateFrom index =>
    have hpast : log.snapshotIndex < index := hplaced
    have hnot : ¬ index ≤ log.snapshotIndex := by omega
    simp only [perform, RaftLog.truncateFrom, writes, if_neg hnot, StagedLogStorage.truncate_eq]
    refine ⟨rfl, ?_, hpast, trivial⟩
    simp only [RaftLog.image, List.foldl_cons, List.foldl_nil, LogImage.apply, hindexed.filter_lt]
    rw [show index - (log.snapshotIndex + 1) = index - log.snapshotIndex - 1 by
      omega]
  | applySnapshot index term =>
    by_cases hle : index ≤ log.snapshotIndex
    · simp only [perform, RaftLog.applySnapshot, writes, if_pos hle]
      exact ⟨rfl, rfl, trivial⟩
    · simp only [perform, RaftLog.applySnapshot, writes, if_neg hle]
      exact ⟨rfl, rfl, by simp only [LogImage.InOrder, RaftLog.image]; omega, trivial⟩
  | appendEntries prevIndex prevTerm entries =>
    rcases hplaced with ⟨hprev, hbatch⟩
    simp only [perform, RaftLog.appendEntries, writes]
    cases hnew : log.newSuffix entries with
    | nil => exact ⟨rfl, rfl, trivial⟩
    | cons first rest =>
      rcases hindexed.newSuffix_reach hprev hbatch hnew with
        ⟨hpast, hreach, hcontiguous⟩
      have hcontents : log.image.Indexed := hindexed
      have hlast := hindexed.lastIndex_eq
      have hnot : ¬ first.index ≤ log.snapshotIndex := by omega
      by_cases hheld : (log.entryAt first.index).isSome
      · have hbound := RaftLog.le_lastIndex_of_entryAt hheld
        simp only [hheld, if_true, RaftLog.truncateFrom, if_neg hnot,
          StagedLogStorage.truncate_eq, StagedLogStorage.append_cons]
        refine ⟨rfl, ?_, hpast, ?_, trivial⟩
        · simp only [RaftLog.image, List.cons_append, List.nil_append,
            List.foldl_cons, List.foldl_nil, LogImage.apply, hindexed.filter_lt]
          rw [show first.index - (log.snapshotIndex + 1) =
            first.index - log.snapshotIndex - 1 by omega]
        · have hcut : (log.image.apply (.truncate first.index)).lastIndex + 1 =
              first.index := by
            have hcutOrder :
                LogImage.InOrder log.image (.truncate first.index) := hpast
            rw [hcontents.lastIndex_apply hcutOrder 0]
            have : first.index ≤ log.image.lastIndex := hbound.2
            simp only [nextStable, if_pos this]
            omega
          rw [← hcut] at hcontiguous
          exact hcontiguous
      · have hend : first.index = log.lastIndex + 1 := by
          rw [hindexed.entryAt_eq hpast] at hheld
          have hshort : log.entries.length ≤ first.index - log.snapshotIndex - 1 := by
            simpa using hheld
          omega
        simp only [hheld, Bool.false_eq_true, if_false, StagedLogStorage.append_cons]
        refine ⟨rfl, rfl, ?_, trivial⟩
        rw [hend] at hcontiguous
        exact hcontiguous

end LogOp

end Raft
end NodeDB
