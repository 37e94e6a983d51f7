import NodeDB.GroupDiskStable

/-!
# What a node may count as durable

Log operations over the staged storage run interleaved with the writer.  A
leader counts itself for an entry when the stable index covers it.  A
follower claims the entries of a request that wrote, once its ticket
completed, and the durable prefix otherwise.  Both only concern entries that
the disk holds, unless a later request cut what the reply claims.
-/

namespace NodeDB.GroupDisk

open Raft ContiguousList StepRuns List LogImage RaftLog

/-- A step of the node's log or of the writer behind it. -/
inductive StagedAction where
  | log (op : LogOp)
  | saveHardState (state : HardState)
  | saveAppliedIndex (index : Nat)
  | close
  | drain
  | attempt (succeeds : Bool)
  | publish
  deriving DecidableEq

def onDisk (log : RaftLog StagedLogStorage) (f : Disk → Disk) :
    RaftLog StagedLogStorage :=
  { log with storage := { log.storage with disk := f log.storage.disk } }

namespace StagedAction

def perform (log : RaftLog StagedLogStorage) :
    StagedAction → RaftLog StagedLogStorage
  | .log op => op.perform log
  | saveHardState state =>
    { log with storage := (LogStorage.saveHardState log.storage state).2 }
  | saveAppliedIndex index =>
    { log with storage := (LogStorage.saveAppliedIndex log.storage index).2 }
  | close => onDisk log Disk.close
  | drain => onDisk log Disk.drain
  | attempt succeeds => onDisk log fun disk => disk.attempt succeeds
  | publish => onDisk log Disk.publish

def Placed (log : RaftLog StagedLogStorage) : StagedAction → Prop
  | .log op => op.Placed log
  | _ => True

/-- No append puts back a stable entry whose truncation is unpublished, and no
write fails in a batch drained from a closed queue. -/
def Sound (log : RaftLog StagedLogStorage) : StagedAction → Prop
  | .log op =>
    Along Disk.stage Disk.FreshWrite log.storage.disk (op.writes log)
  | attempt false => log.storage.disk.closing = false
  | _ => True

instance (log : RaftLog StagedLogStorage) (action : StagedAction) :
    Decidable (action.Placed log) := by
  cases action <;> dsimp only [Placed] <;> infer_instance

instance (log : RaftLog StagedLogStorage) (action : StagedAction) :
    Decidable (action.Sound log) := by
  unfold Sound
  split <;> infer_instance

def writes (log : RaftLog StagedLogStorage) : StagedAction → List StorageOp
  | .log op => op.writes log
  | saveHardState state => [.hardState state]
  | saveAppliedIndex index => [.appliedIndex index]
  | _ => []

/-- The action stages no truncation at or below `claimed`. -/
def Spares (claimed : Nat) (log : RaftLog StagedLogStorage) (action : StagedAction) : Prop :=
  ∀ op ∈ action.writes log, op.cuts claimed = false
  deriving Decidable

end StagedAction

open StagedAction

variable {log : RaftLog StagedLogStorage} {staged : Staged} {applied : Nat} {op : StorageOp}
  {ops : List StorageOp} {image : LogImage} {entry : LogEntry} {storage : RedbLogStorage}
  {entries : List LogEntry}

theorem tracks_perform (h : Tracks log.image log.storage.disk staged applied)
    {action : StagedAction} (hplaced : action.Placed log) (hsound : action.Sound log) :
    ∃ reached, applied ≤ reached ∧
      Tracks (action.perform log).image (action.perform log).storage.disk
        ((action.writes log).foldl Staged.stage staged) reached := by
  cases action with
  | log op =>
    rcases op.perform_staged h.indexed hplaced with ⟨hdisk, himage, horder⟩
    refine ⟨applied, le_rfl, ?_⟩
    simp only [perform, hdisk, himage]
    exact h.afterWrites horder hsound
  | saveHardState state =>
    have horder : LogImage.InOrder log.image (.hardState state) := trivial
    exact ⟨applied, le_rfl, h.afterStage horder trivial⟩
  | saveAppliedIndex index =>
    have horder : LogImage.InOrder log.image (.appliedIndex index) := trivial
    exact ⟨applied, le_rfl, h.afterStage horder trivial⟩
  | close => exact ⟨applied, le_rfl, h.afterClose⟩
  | drain => exact ⟨applied, le_rfl, h.afterDrain⟩
  | attempt succeeds => exact h.afterAttempt succeeds (by rintro rfl; exact hsound)
  | publish => exact ⟨applied, le_rfl, h.afterPublish⟩

theorem foldl_stage_eq (staged : Staged) (writes : List StorageOp) :
    writes.foldl Staged.stage staged =
      ⟨staged.base, staged.restored, staged.ops ++ writes⟩ := by
  induction writes generalizing staged with
  | nil => simp
  | cons op writes ih =>
    rw [foldl_cons, ih]
    simp [Staged.stage]

/-- A run that spares `claimed` stages no write that cuts there. -/
theorem tracks_of_run (claimed : Nat) (actions : List StagedAction) :
    ∀ {log : RaftLog StagedLogStorage} {staged : Staged} {applied : Nat},
      Tracks log.image log.storage.disk staged applied →
      Along perform (fun log action => action.Placed log ∧ action.Sound log) log actions →
      Along perform (Spares claimed) log actions →
      ∃ more reached, (∀ op ∈ more, op.cuts claimed = false) ∧ applied ≤ reached ∧
        Tracks (actions.foldl perform log).image (actions.foldl perform log).storage.disk
          ⟨staged.base, staged.restored, staged.ops ++ more⟩ reached := by
  induction actions with
  | nil =>
    intro log staged applied h _ _
    refine ⟨[], applied, by simp, le_rfl, ?_⟩
    rwa [append_nil]
  | cons action actions ih =>
    rintro log staged applied h ⟨⟨hplaced, hsound⟩, hrest⟩ ⟨hspares, hspared⟩
    obtain ⟨reached, hreached, h'⟩ := tracks_perform h hplaced hsound
    rw [foldl_stage_eq] at h'
    obtain ⟨more, last, hmore, hlast, hend⟩ := ih h' hrest hspared
    refine ⟨action.writes log ++ more, last, ?_, hreached.trans hlast, ?_⟩
    · exact forall_mem_append.mpr ⟨hspares, hmore⟩
    · rwa [append_assoc] at hend

/-! ## The result -/

def restoredLog (storage : RedbLogStorage) : RaftLog StagedLogStorage :=
  (RaftLog.new (StagedLogStorage.openAt storage)).restore.2

theorem tracks_restoredLog (hstore : storage.image.Indexed) :
    ∃ stable, Tracks (restoredLog storage).image (restoredLog storage).storage.disk
      ⟨storage, stable, []⟩ 0 := by
  have hentries : storage.loadEntriesAfter storage.snapshotIndex = storage.entries := by
    unfold RedbLogStorage.loadEntriesAfter
    rw [filter_eq_self]
    intro entry hmem
    exact decide_eq_true (hstore.le_lastIndex hmem).1
  have hlast := hstore.lastIndex_eq
  have hnothing : ∀ stable : Nat × Nat, ∀ entries,
      ¬ Revives stable ([] : List StorageOp) entries := by
    rintro stable entries ⟨⟨_, hmem, -⟩, -⟩
    simp at hmem
  unfold restoredLog restore
  simp only [new, LogStorage.loadEntriesAfter, LogStorage.snapshotMetadata,
    StagedLogStorage.openAt, Disk.setRestoredStable, Disk.openAt, hentries]
  cases hgetLast : storage.entries.getLast? with
  | none =>
    refine ⟨(storage.snapshotIndex, storage.snapshotTerm),
      Disk.follows_openAt storage _, hstore, ?_, trivial, rfl, ?_, ?_⟩
    · rw [getLast?_eq_none_iff] at hgetLast
      simpa [RedbLogStorage.image, hgetLast] using hlast.symm
    · exact hnothing _ _
    · rintro flight ⟨⟩
  | some last =>
    refine ⟨(last.index, last.term),
      Disk.follows_openAt storage _, hstore, ?_, trivial, rfl, ?_, ?_⟩
    · simp [LogImage.lastIndex, RedbLogStorage.image, hgetLast]
    · exact hnothing _ _
    · rintro flight ⟨⟩

theorem exists_tracks_of_run (hstore : storage.image.Indexed) {actions : List StagedAction}
    (hrun : Along StagedAction.perform
      (fun log action => action.Placed log ∧ action.Sound log)
      (restoredLog storage) actions) :
    ∃ staged applied,
      Tracks (actions.foldl StagedAction.perform (restoredLog storage)).image
        (actions.foldl StagedAction.perform (restoredLog storage)).storage.disk
        staged applied := by
  refine invariant_foldl
    (fun log => ∃ staged applied, Tracks log.image log.storage.disk staged applied)
    ?_ ?_ hrun
  · rintro log action ⟨staged, applied, h⟩ ⟨hplaced, hsound⟩
    rcases tracks_perform h hplaced hsound with ⟨reached, -, h'⟩
    exact ⟨_, _, h'⟩
  · rcases tracks_restoredLog hstore with ⟨stable, h⟩
    exact ⟨_, _, h⟩

theorem appendEntries_writes_ne_nil {prevIndex prevTerm : Nat}
    (hwrote : (log.appendEntries entries).1 = .ok true) :
    (LogOp.appendEntries prevIndex prevTerm entries).writes log ≠ [] := by
  cases hnew : log.newSuffix entries with
  | nil => simp [appendEntries, hnew] at hwrote
  | cons first rest => simp [LogOp.writes, hnew]

theorem appendEntries_eq_self (hwrote : (log.appendEntries entries).1 = .ok false) :
    (log.appendEntries entries).2 = log := by
  unfold appendEntries at hwrote ⊢
  cases hnew : log.newSuffix entries with
  | nil => rfl
  | cons first rest =>
    simp only [hnew, StagedLogStorage.append_cons] at hwrote
    split at hwrote <;> simp at hwrote

theorem foldl_stage_disk (disk : Disk) (ops : List StorageOp) :
    (ops.foldl Disk.stage disk).storage = disk.storage ∧
      (ops.foldl Disk.stage disk).progress = disk.progress ∧
      (ops.foldl Disk.stage disk).queue.stagedThrough =
        disk.queue.stagedThrough + ops.length := by
  induction ops generalizing disk with
  | nil => simp
  | cons op ops ih =>
    rcases ih (disk.stage op) with ⟨hstorage, hprogress, hthrough⟩
    refine ⟨hstorage, hprogress, ?_⟩
    rw [foldl_cons, hthrough, length_cons]
    dsimp only [Disk.stage]
    omega

theorem foldl_saveHardState (saved : List HardState) (log : RaftLog StagedLogStorage) :
    ((saved.map saveHardState).foldl perform log).storage.disk =
        (saved.map StorageOp.hardState).foldl Disk.stage log.storage.disk ∧
      ∀ claimed, Along perform (Spares claimed) log (saved.map saveHardState) := by
  induction saved generalizing log with
  | nil => exact ⟨rfl, fun _ => trivial⟩
  | cons state saved ih =>
    have hrest := ih (perform log (saveHardState state))
    refine ⟨hrest.1, fun claimed => ⟨?_, hrest.2 claimed⟩⟩
    intro op hop
    rw [mem_singleton.mp hop]
    rfl

/-- What the first `target` writes leave and nothing cuts is still on disk
after a run that spares it, if these writes are. -/
theorem Tracks.mem_storage_of_run (h : Tracks log.image log.storage.disk staged applied)
    {target claimed : Nat} (htarget : target ≤ staged.ops.length)
    (hmem : entry ∈ ((staged.ops.take target).foldl apply staged.base.image).entries)
    (huncut : ∀ op ∈ staged.ops.drop target, op.cuts entry.index = false)
    {actions : List StagedAction}
    (hrun : Along perform (fun log action => action.Placed log ∧ action.Sound log) log actions)
    (hspares : Along perform (Spares claimed) log actions) (hle : entry.index ≤ claimed)
    (hreached : target ≤ applied ∨
      target ≤ (actions.foldl perform log).storage.disk.progress.durableSeq)
    (hpast : (actions.foldl perform log).storage.disk.storage.snapshotIndex < entry.index) :
    entry ∈ (actions.foldl perform log).storage.disk.storage.entries := by
  obtain ⟨more, reached, hmore, happlied, hend⟩ := tracks_of_run claimed actions h hrun hspares
  have hdurable := hend.follows.durableSeq_le
  have hwritten : target ≤ reached := by omega
  refine hend.mem_storage_of_uncut hwritten ?_ ?_ hpast
  · dsimp only
    rwa [take_append_of_le_length htarget]
  · dsimp only
    rw [drop_append_of_le_length htarget]
    exact forall_mem_append.mpr ⟨huncut, fun op hop => StorageOp.uncut_of_le hle (hmore op hop)⟩

/-- The ticket of a request that wrote waits for the last staged write. -/
theorem Tracks.ticketForReply_eq (h : Tracks log.image log.storage.disk staged applied)
    (op : LogOp) (hplaced : op.Placed log) (hwrites : op.writes log ≠ [])
    (saved : List HardState) :
    ((saved.map saveHardState).foldl perform (op.perform log)).storage.disk.ticketForReply
        log.storage.disk.queue.stagedThrough =
      some (staged.ops.length + (op.writes log).length + saved.length) := by
  have hpositive := length_pos_iff.mpr hwrites
  have hmark := h.follows.stagedThrough
  have hdurable := h.follows.durableSeq_le
  have hbound := h.follows.bound
  rw [(foldl_saveHardState saved (op.perform log)).1, (op.perform_staged h.indexed hplaced).1]
  obtain ⟨-, hprogress, hstaged⟩ := foldl_stage_disk log.storage.disk (op.writes log)
  obtain ⟨-, hkept, hthrough⟩ := foldl_stage_disk
    ((op.writes log).foldl Disk.stage log.storage.disk) (saved.map StorageOp.hardState)
  rw [length_map] at hthrough
  have hpast : staged.ops.length <
      staged.ops.length + (op.writes log).length + saved.length := by omega
  have hwaits : log.storage.disk.progress.durableSeq <
      staged.ops.length + (op.writes log).length + saved.length := by omega
  simp only [Disk.ticketForReply, hkept, hprogress, hthrough, hstaged, hmark, if_pos hpast,
    if_pos hwaits]

/-- In every state of a run, each held entry up to the stable index is on
disk.  When the ticket of a reply has completed, and nothing at or below what
the reply claims was truncated since the request, each entry it claims is on
disk. -/
theorem stableIndex_sound_of_run
    (storage : RedbLogStorage) (hstore : storage.image.Indexed)
    (actions : List StagedAction)
    (hrun : Along StagedAction.perform
      (fun log action => action.Placed log ∧ action.Sound log)
      (restoredLog storage) actions) :
    let log := actions.foldl StagedAction.perform (restoredLog storage)
    (∀ entry ∈ log.entries, entry.index ≤ log.stableIndex →
      entry ∈ log.storage.disk.storage.entries) ∧
    ∀ (prevIndex prevTerm : Nat) (entries : List LogEntry) (wrote : Bool)
      (saved : List HardState) (later : List StagedAction),
      let handled := StagedAction.log (.appendEntries prevIndex prevTerm entries)
      let replied := handled.perform log
      let claimed := replied.claimableMatch (matchedIndex prevIndex entries) wrote
      let persisted :=
        (saved.map saveHardState).foldl perform replied
      let disk := (later.foldl perform persisted).storage.disk
      Along perform
        (fun log action => action.Placed log ∧ action.Sound log) log
        (handled :: (saved.map saveHardState ++ later)) →
      Along perform (Spares claimed) persisted later →
      (log.appendEntries entries).1 = .ok wrote →
      (∀ seq ∈ persisted.storage.disk.ticketForReply
          log.storage.disk.queue.stagedThrough,
        seq ≤ disk.progress.durableSeq) →
      ∀ entry ∈ replied.entries, entry.index ≤ claimed →
        disk.storage.snapshotIndex < entry.index → entry ∈ disk.storage.entries := by
  intro log
  rcases exists_tracks_of_run hstore hrun with ⟨staged, applied, h⟩
  refine ⟨fun entry hmem hle => h.mem_storage hmem hle, ?_⟩
  intro prevIndex prevTerm entries wrote saved later handled replied claimed persisted disk
    hafter hlater hwrote hticket entry hmem hle hpast
  rcases hafter with ⟨⟨hplaced, hsound⟩, hafter⟩
  have hspares : Along perform (Spares claimed) replied (saved.map saveHardState ++ later) :=
    (along_append _ _ _ _ _).mpr ⟨(foldl_saveHardState saved replied).2 claimed, hlater⟩
  have hdisk : disk =
      ((saved.map saveHardState ++ later).foldl perform replied).storage.disk := by
    rw [foldl_append]
  cases wrote with
  | true =>
    obtain ⟨reached, -, hhandled⟩ := tracks_perform h hplaced hsound
    rw [foldl_stage_eq] at hhandled
    have hwrites : (LogOp.appendEntries prevIndex prevTerm entries).writes log ≠ [] :=
      appendEntries_writes_ne_nil hwrote
    have hseq := hticket _ (h.ticketForReply_eq (.appendEntries prevIndex prevTerm entries)
      hplaced hwrites saved)
    have hlength : (staged.ops ++ handled.writes log).length ≤ disk.progress.durableSeq := by
      rw [length_append]
      exact (Nat.le_add_right _ _).trans hseq
    have himage := hhandled.image_eq
    dsimp only at himage
    rw [hdisk] at hpast hlength ⊢
    refine hhandled.mem_storage_of_run le_rfl ?_ ?_ hafter hspares hle (.inr hlength) hpast
    · dsimp only
      rw [take_length, ← himage]
      exact hmem
    · dsimp only
      rw [drop_length]
      exact fun op hop => absurd hop not_mem_nil
  | false =>
    have hsame : replied = log := appendEntries_eq_self hwrote
    have hstable : entry.index ≤ log.stableIndex := by
      simp only [claimed, claimableMatch, Bool.false_eq_true, if_false, hsame] at hle
      exact hle.trans (Nat.min_le_right _ _)
    rw [hsame] at hmem
    obtain ⟨hpublished, huncut⟩ := h.published_of_stable hmem hstable
    have hdurable := h.follows.durableSeq_le
    rw [hsame] at hdisk hspares
    have hrest : Along perform (fun log action => action.Placed log ∧ action.Sound log) log
        (saved.map saveHardState ++ later) := hsame ▸ hafter
    rw [hdisk] at hpast ⊢
    exact h.mem_storage_of_run (hdurable.trans h.follows.bound) hpublished huncut hrest hspares
      hle (.inl hdurable) hpast

/-- A request replaces an entry of a batch.  Its reply leaves when the batch of
the writer that takes its writes is published, after the next request. -/
theorem stableIndex_sound_of_replaced_batch : let actions : List StagedAction :=
      [.log (.appendEntries 0 0 [⟨1, 1, [5]⟩, ⟨1, 2, [6]⟩]), .drain, .attempt true, .publish]
    let request := StagedAction.log (.appendEntries 1 1 [⟨2, 2, [7]⟩])
    let later : List StagedAction :=
      [.drain, .attempt true, .log (.appendEntries 2 2 [⟨2, 3, [8]⟩]), .attempt false,
        .attempt true, .attempt true, .publish]
    let log := actions.foldl perform (restoredLog .empty)
    let final := (request :: .saveHardState ⟨2, 0⟩ :: later).foldl perform log
    log.stableIndex = 2 ∧ final.stableIndex = 2 ∧
      ⟨2, 2, [7]⟩ ∈ final.storage.disk.storage.entries := by
  refine ⟨by decide, by decide, ?_⟩
  exact (stableIndex_sound_of_run .empty (by decide) _ (by decide)).2 1 1 [⟨2, 2, [7]⟩] true
    [⟨2, 0⟩] _ (by decide) (by decide) (by decide) (by decide) ⟨2, 2, [7]⟩ (by decide) (by decide)
    (by decide)

/-- An entry of term 3 is durable when a leader replaces it by an entry of
term 2 and a later one puts it back.  With only the first truncation on disk,
the published entry matches the log again and the disk holds nothing. -/
theorem revived_entry_not_on_disk : let actions : List StagedAction :=
      [.log (.appendEntries 0 0 [⟨3, 1, [5]⟩]), .drain, .attempt true, .publish,
        .log (.appendEntries 0 0 [⟨2, 1, [6]⟩]),
        .log (.appendEntries 0 0 [⟨3, 1, [5]⟩]), .drain, .attempt true]
    let log := actions.foldl perform (restoredLog .empty)
    Along perform (fun log action => action.Placed log)
        (restoredLog .empty) actions ∧
      ∃ entry ∈ log.entries, entry.index ≤ log.stableIndex ∧
        entry ∉ log.storage.disk.storage.entries := by
  decide

end NodeDB.GroupDisk
