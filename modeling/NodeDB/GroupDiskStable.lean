import NodeDB.GroupDiskDurability
import NodeDB.LogImage

/-!
# The stable index of a staged log

The node computes its durable prefix from an index and a term that the
writer published, while the log may be truncated and extended again.  The
published entry is compared by index and term only.  The prefix is sound as
long as no append puts the published entry back while the truncation that
removed it is still on its way.
-/

namespace NodeDB.GroupDisk

open Raft ContiguousList StepRuns WriteBatch List Disk LogImage StorageOp

def Writer.batch : Writer → List StorageOp
  | .applying flight => flight.passed ++ flight.ahead
  | _ => []

def Disk.unpublished (disk : Disk) : List StorageOp :=
  disk.writer.batch ++ disk.queue.ops.map Prod.snd

def Flight.finalStable (flight : Flight) : Nat × Nat :=
  flight.ahead.foldl nextStable flight.stable

/-- The writes cut the stable entry, and the entries hold its index and term
again. -/
def Revives (stable : Nat × Nat) (ops : List StorageOp)
    (entries : List LogEntry) : Prop :=
  (∃ op ∈ ops, op.cuts stable.1 = true) ∧
    ∃ entry ∈ entries, (entry.index, entry.term) = stable
  deriving Decidable

/-- An append does not put back the published stable entry, nor the one that
the batch in flight will publish, while a truncation that removed it is still
unpublished. -/
def Disk.FreshWrite (disk : Disk) : StorageOp → Prop
  | .append entries =>
    ¬ Revives disk.progress.stable disk.unpublished entries ∧
      match disk.writer with
      | .applying flight =>
        ¬ Revives flight.finalStable (disk.queue.ops.map Prod.snd) entries
      | _ => True
  | _ => True

instance (disk : Disk) (op : StorageOp) : Decidable (disk.FreshWrite op) := by
  unfold Disk.FreshWrite
  repeat' split
  all_goals infer_instance

/-! ## The published entry and the staged history -/

variable {op : StorageOp} {ops : List StorageOp} {disk : Disk} {staged : Staged} {applied : Nat}
  {image : LogImage}

theorem Joins.truncate_iff (h : Joins op ops) (index : Nat) :
    StorageOp.truncate index = op ↔ .truncate index ∈ ops := by
  induction h with
  | single op => simp
  | extend _ ih => simpa using ih

theorem StorageOp.cuts_iff {bound : Nat} :
    op.cuts bound = true ↔ ∃ index, op = .truncate index ∧ index ≤ bound := by
  cases op <;> simp [cuts]

theorem StorageOp.uncut_of_le {bound claimed : Nat} (hle : bound ≤ claimed)
    (huncut : op.cuts claimed = false) : op.cuts bound = false := by
  by_contra hcut
  rw [Bool.not_eq_false, cuts_iff] at hcut
  obtain ⟨index, rfl, hindex⟩ := hcut
  rw [cuts_iff.mpr ⟨index, rfl, hindex.trans hle⟩] at huncut
  cases huncut

theorem cuts_iff_of_truncate_iff {ops' : List StorageOp}
    (hops : ∀ index, StorageOp.truncate index ∈ ops ↔ .truncate index ∈ ops')
    (bound : Nat) : (∃ op ∈ ops, op.cuts bound = true) ↔ ∃ op ∈ ops', op.cuts bound = true := by
  simp only [cuts_iff]
  constructor
  · rintro ⟨_, hmem, index, rfl, hle⟩
    exact ⟨_, (hops index).mp hmem, index, rfl, hle⟩
  · rintro ⟨_, hmem, index, rfl, hle⟩
    exact ⟨_, (hops index).mpr hmem, index, rfl, hle⟩

private theorem drop_eq_append {α : Type} (xs : List α) {m n : Nat}
    (hmn : m ≤ n) (hn : n ≤ xs.length) : xs.drop m = (xs.take n).drop m ++ xs.drop n := by
  conv_lhs => rw [← take_append_drop n xs]
  rw [drop_append_of_le_length (by rw [length_take]; omega)]

theorem Disk.Follows.truncate_mem_unpublished (h : disk.Follows staged applied) (index : Nat) :
    .truncate index ∈ disk.unpublished ↔
      .truncate index ∈ staged.ops.drop disk.progress.durableSeq := by
  unfold unpublished
  rcases disk.writer.idle_or_applying with hidle | ⟨flight, hwriter⟩
  · rcases h.idle hidle with ⟨hreached, hqueue⟩
    have hbatch : disk.writer.batch = [] := by
      cases hwriter : disk.writer <;> simp_all [Writer.inBatch, Writer.batch]
    rw [hbatch, hqueue, hreached, nil_append]
  · have hposition := h.position
    rw [hwriter] at hposition
    rcases hposition with
      ⟨hdurable, hthrough, hstaged, -, hpassed, hahead, hqueue⟩
    have hflight := drop_eq_append (staged.ops.take flight.through) hdurable
      (by rw [length_take]; omega)
    rw [take_take, Nat.min_eq_left hthrough] at hflight
    have hsplit := drop_eq_append staged.ops (hdurable.trans hthrough) hstaged
    rw [hsplit, hflight, hqueue, hwriter]
    simp only [Writer.batch, mem_append,
      hpassed.mem_iff fun _ _ hjoins => hjoins.truncate_iff index,
      hahead.mem_iff fun _ _ hjoins => hjoins.truncate_iff index]

theorem Disk.Follows.finalStable_eq (h : disk.Follows staged applied) {flight : Flight}
    (hwriter : disk.writer = .applying flight) :
    flight.finalStable = staged.stableAt flight.through := by
  have hposition := h.position
  rw [hwriter] at hposition
  rcases hposition with ⟨-, hthrough, -, hstable, -, hahead, -⟩
  unfold Flight.finalStable
  rw [hahead.foldl_eq (fun _ _ hjoins => hjoins.nextStable_eq), hstable]
  unfold Staged.stableAt
  rw [← foldl_append]
  conv_rhs => rw [← take_append_drop applied (staged.ops.take flight.through)]
  rw [take_take, Nat.min_eq_left hthrough]

/-! ## The invariant -/

/-- The in-memory contents are the result of all staged writes, each in
order, and no held entry has the index and term of a published stable entry
that a later write cuts. -/
structure Tracks (image : LogImage) (disk : Disk) (staged : Staged)
    (applied : Nat) : Prop where
  follows : disk.Follows staged applied
  baseIndexed : staged.base.image.Indexed
  restored : staged.restored.1 = staged.base.image.lastIndex
  inOrder : Along LogImage.apply LogImage.InOrder staged.base.image staged.ops
  image_eq : image = staged.ops.foldl LogImage.apply staged.base.image
  fresh : ¬ Revives disk.progress.stable
    (staged.ops.drop disk.progress.durableSeq) image.entries
  flightFresh : ∀ flight, disk.writer = .applying flight →
    ¬ Revives (staged.stableAt flight.through)
      (staged.ops.drop flight.through) image.entries

section

variable (h : Tracks image disk staged applied)
include h

theorem Tracks.indexed : image.Indexed := by
  rw [h.image_eq]
  exact h.baseIndexed.afterReplay h.inOrder

theorem Tracks.inOrder_split (n : Nat) :
    Along LogImage.apply LogImage.InOrder staged.base.image (staged.ops.take n) ∧
      Along LogImage.apply LogImage.InOrder
        ((staged.ops.take n).foldl LogImage.apply staged.base.image)
        (staged.ops.drop n) := by
  rw [← along_append, take_append_drop]
  exact h.inOrder

theorem Tracks.storage_image :
    disk.storage.image =
      (staged.ops.take applied).foldl LogImage.apply staged.base.image := by
  rw [h.follows.storage]
  exact RedbLogStorage.image_replay h.baseIndexed (h.inOrder_split applied).1

theorem Tracks.stableAt_fst (n : Nat) :
    (staged.stableAt n).1 =
      ((staged.ops.take n).foldl LogImage.apply staged.base.image).lastIndex :=
  h.baseIndexed.lastIndex_replay (h.inOrder_split n).1 h.restored

/-- An entry that the first `target` writes leave, and that no later write
cuts, is on disk once these writes are, up to a boundary that passed it. -/
theorem Tracks.mem_storage_of_uncut {target : Nat} (hreached : target ≤ applied)
    {entry : LogEntry}
    (hmem : entry ∈ ((staged.ops.take target).foldl apply staged.base.image).entries)
    (huncut : ∀ op ∈ staged.ops.drop target, op.cuts entry.index = false)
    (hpast : disk.storage.snapshotIndex < entry.index) : entry ∈ disk.storage.entries := by
  have hbase := h.baseIndexed.afterReplay (h.inOrder_split target).1
  have hlater := (h.inOrder_split target).2
  have hsplit := drop_eq_append staged.ops hreached h.follows.bound
  have hstore : disk.storage.image = ((staged.ops.take applied).drop target).foldl apply
      ((staged.ops.take target).foldl apply staged.base.image) := by
    rw [h.storage_image, ← foldl_append]
    congr 1
    conv_lhs => rw [← take_append_drop target (staged.ops.take applied)]
    rw [take_take, Nat.min_eq_left hreached]
  rw [hsplit, along_append] at hlater
  have hwritten := hbase.mem_replay_iff hlater.1 (hbase.le_lastIndex hmem).2
    (fun op hop => huncut op (hsplit ▸ mem_append_left _ hop)) le_rfl
  rw [← hstore] at hwritten
  exact hwritten.mpr ⟨hmem, hpast⟩

/-- Memory is what the unpublished writes leave of the published contents, so
an entry that none of them cuts was published. -/
theorem Tracks.published_of_uncut {entry : LogEntry} (hmem : entry ∈ image.entries)
    (huncut : ¬ ∃ op ∈ staged.ops.drop disk.progress.durableSeq,
      op.cuts disk.progress.stable.1 = true)
    (hle : entry.index ≤ disk.progress.stable.1) :
    entry ∈ ((staged.ops.take disk.progress.durableSeq).foldl apply
        staged.base.image).entries ∧
      ∀ op ∈ staged.ops.drop disk.progress.durableSeq, op.cuts entry.index = false := by
  have hbase := h.baseIndexed.afterReplay
    (h.inOrder_split disk.progress.durableSeq).1
  have hlast := h.stableAt_fst disk.progress.durableSeq
  rw [← h.follows.published] at hlast
  have hcuts : ∀ op ∈ staged.ops.drop disk.progress.durableSeq,
      op.cuts entry.index = false := by
    intro op hop
    refine uncut_of_le hle ?_
    rw [← Bool.not_eq_true]
    exact fun hcut => huncut ⟨op, hop, hcut⟩
  have himage : image = (staged.ops.drop disk.progress.durableSeq).foldl apply
      ((staged.ops.take disk.progress.durableSeq).foldl apply
        staged.base.image) := by
    rw [← foldl_append, take_append_drop]
    exact h.image_eq
  have hmemory := hbase.mem_replay_iff (h.inOrder_split disk.progress.durableSeq).2
    (hle.trans hlast.le) hcuts le_rfl
  rw [← himage] at hmemory
  exact ⟨(hmemory.mp hmem).1, hcuts⟩

theorem Tracks.snapshotIndex_storage_le : disk.storage.snapshotIndex ≤ image.snapshotIndex := by
  have hboundary := snapshotIndex_replay_le (h.inOrder_split applied).2
  rwa [← foldl_append, take_append_drop, ← h.image_eq, ← h.storage_image] at hboundary

end

/-! ## How the node and the writer keep the invariant -/

theorem not_revives_apply {stable : Nat × Nat} (h : ¬ Revives stable ops image.entries)
    (hfresh : ∀ entries, op = .append entries → ¬ Revives stable ops entries) :
    ¬ Revives stable (ops ++ [op]) (image.apply op).entries := by
  rintro ⟨⟨cut, hcut, hcuts⟩, entry, hentry, hpair⟩
  cases op with
  | append entries =>
    have hcut : cut ∈ ops := by
      rcases mem_append.mp hcut with hmem | hmem
      · exact hmem
      · rw [mem_singleton.mp hmem] at hcuts
        simp [cuts] at hcuts
    rcases mem_append.mp hentry with hheld | hnew
    · exact h ⟨⟨cut, hcut, hcuts⟩, entry, hheld, hpair⟩
    · exact hfresh entries rfl ⟨⟨cut, hcut, hcuts⟩, entry, hnew, hpair⟩
  | truncate index =>
    simp only [apply, mem_filter, decide_eq_true_eq] at hentry
    rcases mem_append.mp hcut with hmem | hmem
    · exact h ⟨⟨cut, hmem, hcuts⟩, entry, hentry.1, hpair⟩
    · rw [mem_singleton.mp hmem] at hcuts
      simp only [cuts, ← hpair, decide_eq_true_eq] at hcuts
      omega
  | compact index term =>
    simp only [apply, mem_filter] at hentry
    rcases mem_append.mp hcut with hmem | hmem
    · exact h ⟨⟨cut, hmem, hcuts⟩, entry, hentry.1, hpair⟩
    · rw [mem_singleton.mp hmem] at hcuts
      simp [cuts] at hcuts
  | hardState state | appliedIndex index =>
    rcases mem_append.mp hcut with hmem | hmem
    · exact h ⟨⟨cut, hmem, hcuts⟩, entry, hentry, hpair⟩
    · rw [mem_singleton.mp hmem] at hcuts
      simp [cuts] at hcuts

section

variable (h : Tracks image disk staged applied)
include h

theorem Tracks.afterStage (horder : LogImage.InOrder image op) (hfresh : disk.FreshWrite op) :
    Tracks (image.apply op) (disk.stage op) (staged.stage op) applied := by
  have hdurable := h.follows.durableSeq_le.trans h.follows.bound
  refine ⟨h.follows.afterStage op, h.baseIndexed, h.restored, ?_, ?_, ?_, ?_⟩
  · refine (along_append _ _ _ _ _).mpr ⟨h.inOrder, ?_, trivial⟩
    rw [h.image_eq] at horder
    exact horder
  · simp [Staged.stage, foldl_append, ← h.image_eq]
  · dsimp only [stage, Staged.stage]
    rw [drop_append_of_le_length hdurable]
    apply not_revives_apply h.fresh
    rintro entries rfl ⟨hcut, hentry⟩
    refine hfresh.1 ⟨?_, hentry⟩
    exact (cuts_iff_of_truncate_iff
      (fun index => h.follows.truncate_mem_unpublished index) _).mpr hcut
  · intro flight hstaged
    have hwriter : disk.writer = .applying flight := hstaged
    clear hstaged
    have hposition := h.follows.position
    rw [hwriter] at hposition
    rcases hposition with ⟨-, -, hthrough, -, -, -, hqueue⟩
    rw [Staged.stableAt_stage staged op hthrough]
    dsimp only [Staged.stage]
    rw [drop_append_of_le_length hthrough]
    apply not_revives_apply (h.flightFresh flight hwriter)
    rintro entries rfl
    have hflight := hfresh.2
    rw [hwriter] at hflight
    dsimp only at hflight
    rwa [h.follows.finalStable_eq hwriter, hqueue] at hflight

theorem Tracks.afterWrites {writes : List StorageOp}
    (horder : Along LogImage.apply LogImage.InOrder image writes)
    (hfresh : Along Disk.stage Disk.FreshWrite disk writes) :
    Tracks (writes.foldl LogImage.apply image) (writes.foldl Disk.stage disk)
      (writes.foldl Staged.stage staged) applied := by
  induction writes generalizing image disk staged with
  | nil => exact h
  | cons op writes ih =>
    exact ih (h.afterStage horder.1 hfresh.1) horder.2 hfresh.2

theorem Tracks.afterDrain : Tracks image disk.drain staged applied := by
  have hprogress : disk.drain.progress.stable = disk.progress.stable ∧
      disk.drain.progress.durableSeq = disk.progress.durableSeq := by
    unfold drain
    split
    · split
      · split <;> exact ⟨rfl, rfl⟩
      · exact ⟨rfl, rfl⟩
    · exact ⟨rfl, rfl⟩
  refine ⟨h.follows.afterDrain, h.baseIndexed, h.restored, h.inOrder, h.image_eq,
    ?_, ?_⟩
  · rw [hprogress.1, hprogress.2]
    exact h.fresh
  · intro flight hwriter
    unfold drain at hwriter
    split at hwriter
    next hwaiting =>
      split at hwriter
      next =>
        split at hwriter
        · simp at hwriter
        · rw [hwaiting] at hwriter
          simp at hwriter
      next through op hlast =>
        simp only [Writer.applying.injEq] at hwriter
        have hthrough : through = staged.ops.length :=
          h.follows.lastSeq (through, op) hlast
        rw [← hwriter]
        dsimp only
        rw [hthrough, drop_length]
        rintro ⟨⟨_, hmem, -⟩, -⟩
        simp at hmem
    next => exact h.flightFresh flight hwriter

theorem Tracks.afterAttempt (succeeds : Bool) (hkept : succeeds = false → disk.closing = false) :
    ∃ reached, applied ≤ reached ∧ Tracks image (disk.attempt succeeds) staged reached := by
  rcases h.follows.afterAttempt succeeds hkept with ⟨run, op, -, -, hfollows⟩
  refine ⟨applied + run.length, Nat.le_add_right _ _, hfollows, h.baseIndexed, h.restored,
    h.inOrder, h.image_eq, ?_, ?_⟩
  · have hprogress : (disk.attempt succeeds).progress = disk.progress := by
      unfold attempt
      repeat' split
      all_goals rfl
    rw [hprogress]
    exact h.fresh
  · intro flight hwriter
    -- An attempt moves inside the batch; the batch's end stays where it is.
    have hthrough : ∃ before, disk.writer = .applying before ∧
        before.through = flight.through := by
      unfold attempt at hwriter
      split at hwriter
      next before hbefore =>
        refine ⟨before, hbefore, ?_⟩
        split at hwriter
        next => rw [hbefore] at hwriter; cases hwriter; rfl
        next =>
          split at hwriter
          · cases hwriter; rfl
          · split at hwriter
            · cases hwriter; rfl
            · rw [hbefore] at hwriter; cases hwriter; rfl
      next hidle => exact absurd hwriter (hidle flight)
    rcases hthrough with ⟨before, hbefore, hthrough⟩
    rw [← hthrough]
    exact h.flightFresh before hbefore

theorem Tracks.afterPublish : Tracks image disk.publish staged applied := by
  have hfollows := h.follows.afterPublish
  refine ⟨hfollows, h.baseIndexed, h.restored, h.inOrder, h.image_eq, ?_, ?_⟩
  · rw [hfollows.published]
    rcases disk.writer.idle_or_applying with hidle | ⟨flight, hwriter⟩
    · have hsame : disk.publish = disk := by
        unfold publish
        cases hwriter : disk.writer <;> simp_all [Writer.inBatch]
      rw [hsame, ← h.follows.published]
      exact h.fresh
    · cases hahead : flight.ahead with
      | cons op ahead =>
        have hsame : disk.publish = disk := by
          simp [publish, hwriter, hahead]
        rw [hsame, ← h.follows.published]
        exact h.fresh
      | nil =>
        have hposition := h.follows.position
        rw [hwriter] at hposition
        have hmax : disk.publish.progress.durableSeq = flight.through := by
          simp only [publish, hwriter, hahead]
          omega
        rw [hmax]
        exact h.flightFresh flight hwriter
  · intro flight hwriter
    unfold publish at hwriter
    split at hwriter
    next before hbefore =>
      split at hwriter
      · simp at hwriter
      · exact h.flightFresh flight hwriter
    next => exact h.flightFresh flight hwriter

theorem Tracks.afterClose : Tracks image disk.close staged applied :=
  ⟨h.follows.afterClose, h.baseIndexed, h.restored, h.inOrder, h.image_eq,
    h.fresh, h.flightFresh⟩

end

theorem Tracks.published_of_stable {log : RaftLog StagedLogStorage}
    (h : Tracks log.image log.storage.disk staged applied)
    {entry : LogEntry} (hmem : entry ∈ log.entries)
    (hle : entry.index ≤ log.stableIndex) :
    entry ∈ ((staged.ops.take log.storage.disk.progress.durableSeq).foldl apply
        staged.base.image).entries ∧
      ∀ op ∈ staged.ops.drop log.storage.disk.progress.durableSeq,
        op.cuts entry.index = false := by
  have hindexed : log.Indexed := h.indexed
  have hpast : log.snapshotIndex < entry.index := (h.indexed.le_lastIndex hmem).1
  have hstable : log.stableIndex =
      if log.storage.disk.progress.stable.1 ≤ log.lastIndex ∧
          log.termAt log.storage.disk.progress.stable.1 =
            some log.storage.disk.progress.stable.2 then
        log.storage.disk.progress.stable.1
      else
        min log.storage.disk.progress.stable.1 log.snapshotIndex := rfl
  rw [hstable] at hle
  split at hle
  next hmatch =>
    refine h.published_of_uncut hmem ?_ hle
    intro hcut
    -- The log holds an entry with the published index and term.
    have hterm := hmatch.2
    unfold RaftLog.termAt at hterm
    rw [if_neg (by omega), if_neg (by omega), if_neg (by omega)] at hterm
    rw [hindexed.entryAt_eq (by omega)] at hterm
    rcases Option.map_eq_some_iff.mp hterm with ⟨held, hget, hheldTerm⟩
    refine h.fresh ⟨hcut, held, mem_of_getElem? hget, ?_⟩
    have hkey := hindexed.key_getElem? hget
    exact Prod.ext (by dsimp only; omega) hheldTerm
  next => omega

theorem Tracks.mem_storage {log : RaftLog StagedLogStorage}
    (h : Tracks log.image log.storage.disk staged applied)
    {entry : LogEntry} (hmem : entry ∈ log.entries)
    (hle : entry.index ≤ log.stableIndex) : entry ∈ log.storage.disk.storage.entries := by
  obtain ⟨hpublished, huncut⟩ := h.published_of_stable hmem hle
  have hpast : log.image.snapshotIndex < entry.index := (h.indexed.le_lastIndex hmem).1
  exact h.mem_storage_of_uncut h.follows.durableSeq_le hpublished huncut
    (h.snapshotIndex_storage_le.trans_lt hpast)

end NodeDB.GroupDisk
