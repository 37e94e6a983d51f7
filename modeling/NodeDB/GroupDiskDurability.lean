import NodeDB.GroupDisk
import NodeDB.StepRuns
import NodeDB.WriteBatch
import Mathlib.Tactic

/-!
# The durable sequence number

The writer batches, joins and retries writes while it advances one cursor.
As long as no write fails in a batch drained from a closed queue, the store
is at every moment the result of a prefix of the staged writes, applied one
by one in staging order, and that prefix covers the durable sequence number.
-/

namespace NodeDB.GroupDisk

open Raft StepRuns WriteBatch List Disk RedbLogStorage

/-! ## Joining appends -/

/-- A joined write and the staged writes it stands for: a write stands for
itself, and an append takes in the appends staged right after it. -/
inductive Joins : StorageOp → List StorageOp → Prop
  | single (op : StorageOp) : Joins op [op]
  | extend {run more : List LogEntry} {ops : List StorageOp} :
      Joins (.append run) ops →
        Joins (.append (run ++ more)) (ops ++ [.append more])

variable {op : StorageOp} {ops : List StorageOp} {disk : Disk} {staged : Staged} {applied : Nat}

theorem Joins.apply_eq (h : Joins op ops) (storage : RedbLogStorage) :
    storage.apply op = ops.foldl RedbLogStorage.apply storage := by
  induction h with
  | single op => rfl
  | extend _ ih =>
    rw [foldl_append, ← ih]
    simp [apply, append, foldl_append]

theorem Joins.nextStable_eq (h : Joins op ops) (stable : Nat × Nat) :
    nextStable stable op = ops.foldl nextStable stable := by
  induction h with
  | single op => rfl
  | @extend run more ops _ ih =>
    rw [foldl_append, ← ih]
    rcases eq_nil_or_concat more with rfl | ⟨front, last, rfl⟩
    · simp [nextStable]
    · simp [nextStable, getLast?_append]

theorem coalesces_mergeStep {joined original : List StorageOp}
    (h : Coalesces Joins joined original) (op : StorageOp) :
    Coalesces Joins (mergeStep joined op) (original ++ [op]) := by
  unfold mergeStep
  split
  next run more hlast =>
    rcases getLast?_eq_some_iff.mp hlast with ⟨front, rfl⟩
    rcases h.snoc_inv with ⟨before, ops, rfl, hfront, hrun⟩
    rw [dropLast_concat, append_assoc]
    exact hfront.snoc (.extend hrun)
  next => exact h.snoc (.single _)

theorem coalesces_mergeAppends (batch : List (Nat × StorageOp)) :
    Coalesces Joins (mergeAppends batch) (batch.map Prod.snd) := by
  unfold mergeAppends
  induction batch.map Prod.snd using List.reverseRecOn with
  | nil => exact coalesces_nil
  | append_singleton ops op ih =>
    rw [foldl_append]
    exact coalesces_mergeStep ih op

/-! ## Runs of the disk -/

inductive DiskAction where
  | stage (op : StorageOp)
  | close
  | drain
  | attempt (succeeds : Bool)
  | publish
  deriving DecidableEq

def DiskAction.perform (disk : Disk) : DiskAction → Disk
  | stage op => disk.stage op
  | close => disk.close
  | drain => disk.drain
  | attempt succeeds => disk.attempt succeeds
  | publish => disk.publish

/-- The operations a run stages, in staging order.  The operation with
sequence number `s` is the `s`-th of them. -/
def stagedOps (actions : List DiskAction) : List StorageOp :=
  actions.filterMap fun
    | .stage op => some op
    | _ => none

@[simp]
theorem stagedOps_snoc (actions : List DiskAction) (action : DiskAction) :
    stagedOps (actions ++ [action]) =
      stagedOps actions ++ (match action with
        | .stage op => [op]
        | _ => []) := by
  cases action <;> simp [stagedOps]

def Writer.inBatch : Writer → Bool
  | .applying _ => true
  | _ => false

def Disk.closing (disk : Disk) : Bool :=
  match disk.writer with
  | .applying flight => flight.closed
  | _ => false

def DiskAction.NotAbandoned (disk : Disk) : DiskAction → Prop
  | attempt false => disk.closing = false
  | _ => True

instance (disk : Disk) (action : DiskAction) : Decidable (action.NotAbandoned disk) := by
  unfold DiskAction.NotAbandoned
  split <;> infer_instance

/-- What a disk was opened on, the stable entry read at restore and the
operations staged since. -/
structure Staged where
  base : RedbLogStorage
  restored : Nat × Nat
  ops : List StorageOp

namespace Staged

def storageAt (staged : Staged) (n : Nat) : RedbLogStorage :=
  (staged.ops.take n).foldl RedbLogStorage.apply staged.base

def stableAt (staged : Staged) (n : Nat) : Nat × Nat :=
  (staged.ops.take n).foldl nextStable staged.restored

def stage (staged : Staged) (op : StorageOp) : Staged :=
  { staged with ops := staged.ops ++ [op] }

theorem storageAt_stage (staged : Staged) (op : StorageOp) {n : Nat} (hn : n ≤ staged.ops.length) :
    (staged.stage op).storageAt n = staged.storageAt n := by
  simp [storageAt, stage, take_append_of_le_length hn]

theorem stableAt_stage (staged : Staged) (op : StorageOp) {n : Nat} (hn : n ≤ staged.ops.length) :
    (staged.stage op).stableAt n = staged.stableAt n := by
  simp [stableAt, stage, take_append_of_le_length hn]

end Staged

open Staged

/-- Where the writer stands in the staged operations: `applied` of them have
reached the store, and the rest lie ahead of the writer or in the queue. -/
structure Disk.Follows (disk : Disk) (staged : Staged) (applied : Nat) :
    Prop where
  storage : disk.storage = staged.storageAt applied
  published : disk.progress.stable = staged.stableAt disk.progress.durableSeq
  stagedThrough : disk.queue.stagedThrough = staged.ops.length
  lastSeq : ∀ last ∈ disk.queue.ops.getLast?, last.1 = staged.ops.length
  bound : applied ≤ staged.ops.length
  position :
    match disk.writer with
    | .applying flight =>
      disk.progress.durableSeq ≤ applied ∧ applied ≤ flight.through ∧
        flight.through ≤ staged.ops.length ∧
        flight.stable = staged.stableAt applied ∧
        Coalesces Joins flight.passed
          ((staged.ops.take applied).drop disk.progress.durableSeq) ∧
        Coalesces Joins flight.ahead
          ((staged.ops.take flight.through).drop applied) ∧
        disk.queue.ops.map Prod.snd = staged.ops.drop flight.through
    | _ =>
      disk.progress.durableSeq = applied ∧
        disk.queue.ops.map Prod.snd = staged.ops.drop applied

theorem Writer.idle_or_applying (writer : Writer) :
    writer.inBatch = false ∨ ∃ flight, writer = .applying flight := by
  cases writer with
  | waiting => exact .inl rfl
  | applying flight => exact .inr ⟨flight, rfl⟩
  | ended => exact .inl rfl

theorem Disk.Follows.idle (h : disk.Follows staged applied) (hidle : disk.writer.inBatch = false) :
    disk.progress.durableSeq = applied ∧
      disk.queue.ops.map Prod.snd = staged.ops.drop applied := by
  have hposition := h.position
  cases hwriter : disk.writer with
  | waiting => simpa [hwriter] using hposition
  | applying flight => simp [hwriter, Writer.inBatch] at hidle
  | ended => simpa [hwriter] using hposition

theorem Disk.Follows.durableSeq_le (h : disk.Follows staged applied) :
    disk.progress.durableSeq ≤ applied := by
  have hposition := h.position
  split at hposition
  · exact hposition.1
  · exact hposition.1.le

theorem Disk.follows_openAt (base : RedbLogStorage) (restored : Nat × Nat) :
    ((Disk.openAt base).setRestoredStable restored).Follows
      ⟨base, restored, []⟩ 0 := by
  constructor <;>
    simp [openAt, setRestoredStable, storageAt, stableAt]

theorem Disk.Follows.afterStage (h : disk.Follows staged applied) (op : StorageOp) :
    (disk.stage op).Follows (staged.stage op) applied := by
  have hbound := h.bound
  have hdurable := h.durableSeq_le
  constructor
  · rw [storageAt_stage staged op hbound]
    exact h.storage
  · rw [stableAt_stage staged op (by exact hdurable.trans hbound)]
    exact h.published
  · simp [Disk.stage, Staged.stage, h.stagedThrough]
  · simp [Disk.stage, Staged.stage, h.stagedThrough]
  · simp only [Staged.stage, length_append]
    omega
  · have hposition := h.position
    unfold Disk.stage
    dsimp only
    split at hposition
    next flight hwriter =>
      rcases hposition with
        ⟨_, hthrough, hstaged, hstable, hpassed, hahead, hqueue⟩
      rw [stableAt_stage staged op hbound]
      dsimp only [Staged.stage]
      rw [take_append_of_le_length hbound, take_append_of_le_length hstaged,
        drop_append_of_le_length hstaged, length_append]
      exact ⟨hdurable, hthrough, by omega, hstable, hpassed, hahead,
        by simp [hqueue]⟩
    next hwriter =>
      rcases hposition with ⟨hreached, hqueue⟩
      dsimp only [Staged.stage]
      rw [drop_append_of_le_length hbound]
      exact ⟨hreached, by simp [hqueue]⟩

theorem Disk.Follows.afterDrain (h : disk.Follows staged applied) :
    disk.drain.Follows staged applied := by
  unfold drain
  split
  next hwriter =>
    have hposition := h.position
    rw [hwriter] at hposition
    rcases hposition with ⟨hdurable, hqueue⟩
    split
    next hempty =>
      split
      · exact { h with position := ⟨hdurable, hqueue⟩ }
      · exact h
    next through op hlast =>
      have hthrough : through = staged.ops.length :=
        h.lastSeq (through, op) hlast
      refine { h with lastSeq := by simp, position := ?_ }
      dsimp only
      rw [hthrough, take_length, drop_length, ← hqueue, h.published, hdurable]
      refine ⟨le_rfl, h.bound, le_rfl, rfl, ?_, coalesces_mergeAppends _, rfl⟩
      rw [drop_eq_nil_of_le (by simp)]
      exact coalesces_nil
  next => exact h

theorem Staged.take_add_run {through : Nat} {run rest : List StorageOp}
    (hsplit : (staged.ops.take through).drop applied = run ++ rest) :
    staged.ops.take (applied + run.length) = staged.ops.take applied ++ run ∧
      (staged.ops.take through).drop (applied + run.length) = rest ∧
      (run ≠ [] → applied + run.length ≤ through) := by
  have hlength := congrArg List.length hsplit
  simp only [length_drop, length_take, length_append] at hlength
  refine ⟨?_, ?_, ?_⟩
  · have hstretch : (staged.ops.drop applied).take (through - applied) =
        run ++ rest := by
      rw [← hsplit, drop_take]
    have hrun : (staged.ops.drop applied).take run.length = run := by
      have := congrArg (List.take run.length) hstretch
      rwa [take_take, Nat.min_eq_left (by omega), take_left] at this
    rw [take_add, hrun]
  · rw [← drop_drop, hsplit, drop_left]
  · intro hne
    have := length_pos_iff.mpr hne
    omega

theorem Joins.ne_nil (h : Joins op ops) : ops ≠ [] := by
  cases h <;> simp

section

variable (h : disk.Follows staged applied)
include h

theorem Disk.Follows.afterWrite {flight : Flight} {ahead : List StorageOp}
    (hwriter : disk.writer = .applying flight) (hop : flight.ahead = op :: ahead) :
    ∃ run, Joins op run ∧
      staged.ops.take (applied + run.length) = staged.ops.take applied ++ run ∧
      (disk.attempt true).Follows staged (applied + run.length) := by
  have hposition := h.position
  rw [hwriter] at hposition
  rcases hposition with
    ⟨hdurable, hthrough, hstaged, hstable, hpassed, hahead, hqueue⟩
  rw [hop] at hahead
  rcases hahead.cons_inv with ⟨run, rest, hsplit, hrun, hrest⟩
  rcases take_add_run hsplit with ⟨htake, hdrop, hbound⟩
  have hreach := hbound hrun.ne_nil
  refine ⟨run, hrun, htake, ?_⟩
  unfold attempt
  simp only [hwriter, hop, if_true]
  refine ⟨?_, h.published, h.stagedThrough, h.lastSeq, by omega, ?_⟩
  · unfold storageAt
    rw [htake, foldl_append]
    rw [h.storage, hrun.apply_eq]
    rfl
  · dsimp only [Flight.advance]
    refine ⟨by omega, hreach, hstaged, ?_, ?_, ?_, hqueue⟩
    · unfold stableAt
      rw [htake, foldl_append, hstable, hrun.nextStable_eq]
      rfl
    · rw [htake, drop_append_of_le_length]
      · exact hpassed.snoc hrun
      · rw [length_take]
        omega
    · rw [hdrop]
      exact hrest

theorem Disk.Follows.afterAttempt (succeeds : Bool)
    (hkept : succeeds = false → disk.closing = false) :
    ∃ run op, (run = [] ∨ Joins op run) ∧
      staged.ops.take (applied + run.length) = staged.ops.take applied ++ run ∧
      (disk.attempt succeeds).Follows staged (applied + run.length) := by
  have hsame : ∀ disk', disk' = disk →
      ∃ run op, (run = [] ∨ Joins op run) ∧
        staged.ops.take (applied + run.length) = staged.ops.take applied ++ run ∧
        disk'.Follows staged (applied + run.length) := by
    rintro _ rfl
    exact ⟨[], .appliedIndex 0, .inl rfl, by simp, by simpa using h⟩
  cases hwriter : disk.writer with
  | waiting | ended => exact hsame _ (by simp [attempt, hwriter])
  | applying flight =>
    cases hahead : flight.ahead with
    | nil => exact hsame _ (by simp [attempt, hwriter, hahead])
    | cons op ahead =>
      cases succeeds with
      | true =>
        rcases h.afterWrite hwriter hahead with ⟨run, hrun, htake, h'⟩
        exact ⟨run, op, .inr hrun, htake, h'⟩
      | false =>
        have hclosing := hkept rfl
        unfold closing at hclosing
        rw [hwriter] at hclosing
        exact hsame _ (by simp_all [attempt])

theorem Disk.Follows.afterPublish : disk.publish.Follows staged applied := by
  unfold publish
  split
  next flight hwriter =>
    have hposition := h.position
    rw [hwriter] at hposition
    rcases hposition with
      ⟨hdurable, hthrough, hstaged, hstable, hpassed, hahead, hqueue⟩
    split
    next hnil =>
      rw [hnil] at hahead
      have hreached : flight.through = applied := by
        have := congrArg List.length hahead.nil_inv
        simp only [length_drop, length_take, length_nil] at this
        omega
      have hmax : max disk.progress.durableSeq flight.through = applied := by
        omega
      refine ⟨h.storage, ?_, h.stagedThrough, h.lastSeq, h.bound, ?_⟩
      · dsimp only
        rw [hmax]
        exact hstable
      · dsimp only
        rw [← hreached]
        exact ⟨by omega, hqueue⟩
    next => exact h
  next => exact h

theorem Disk.Follows.afterClose : disk.close.Follows staged applied :=
  ⟨h.storage, h.published, h.stagedThrough, h.lastSeq, h.bound, h.position⟩

end

theorem follows_perform {base : RedbLogStorage} {past : List DiskAction}
    (h : ∃ applied, disk.Follows ⟨base, (0, 0), stagedOps past⟩ applied)
    {action : DiskAction} (hkept : action.NotAbandoned disk) :
    ∃ applied, (action.perform disk).Follows
      ⟨base, (0, 0), stagedOps (past ++ [action])⟩ applied := by
  rcases h with ⟨applied, h⟩
  rw [stagedOps_snoc]
  cases action with
  | stage op => exact ⟨applied, h.afterStage op⟩
  | close => exact ⟨applied, by rw [append_nil]; exact h.afterClose⟩
  | drain => exact ⟨applied, by rw [append_nil]; exact h.afterDrain⟩
  | attempt succeeds =>
    rcases h.afterAttempt succeeds (by rintro rfl; exact hkept) with
      ⟨run, op, -, -, h'⟩
    exact ⟨applied + run.length, by rw [append_nil]; exact h'⟩
  | publish => exact ⟨applied, by rw [append_nil]; exact h.afterPublish⟩

/-- The store is always a prefix of the staged operations, applied one by one
in staging order, and the prefix covers every operation up to the durable
sequence number.  Outside a batch it is exactly that long. -/
theorem durable_prefix_of_run (base : RedbLogStorage) (actions : List DiskAction)
    (hrun : Along DiskAction.perform (fun disk action => action.NotAbandoned disk)
      (Disk.openAt base) actions) :
    let disk := actions.foldl DiskAction.perform (Disk.openAt base)
    let ops := stagedOps actions
    (∃ applied, disk.progress.durableSeq ≤ applied ∧ applied ≤ ops.length ∧
      disk.storage = (ops.take applied).foldl RedbLogStorage.apply base) ∧
    (disk.writer.inBatch = false →
      disk.storage =
        (ops.take disk.progress.durableSeq).foldl RedbLogStorage.apply base) := by
  have hinv : ∃ applied,
      (actions.foldl DiskAction.perform (openAt base)).Follows
        ⟨base, (0, 0), stagedOps actions⟩ applied := history_foldl
    (fun past disk => ∃ applied,
      Disk.Follows disk ⟨base, (0, 0), stagedOps past⟩ applied)
    (fun past disk action h hkept => follows_perform h hkept)
    ⟨0, follows_openAt base (0, 0)⟩ hrun
  rcases hinv with ⟨applied, h⟩
  refine ⟨⟨applied, h.durableSeq_le, h.bound, h.storage⟩, ?_⟩
  intro hidle
  have hposition := h.position
  split at hposition
  next flight hwriter =>
    rw [hwriter] at hidle
    simp [Writer.inBatch] at hidle
  next =>
    rw [hposition.1]
    exact h.storage

/-- Two appends are joined, the first attempt at them fails and is retried,
and a hard state follows in the same batch. -/
theorem durable_prefix_of_retried_run : let actions : List DiskAction :=
      [.stage (.append [⟨1, 1, [7]⟩]), .stage (.append [⟨1, 2, []⟩]),
        .stage (.hardState ⟨1, 2⟩), .drain, .attempt false, .attempt true,
        .attempt true, .publish]
    let disk := actions.foldl DiskAction.perform (openAt .empty)
    disk.progress.durableSeq = 3 ∧
      disk.storage = (stagedOps actions).foldl apply .empty := by
  refine ⟨by decide, ?_⟩
  exact (durable_prefix_of_run .empty _ (by decide)).2 (by decide)

/-- A hard state is staged, the disk is closed and the write fails.  The
writer abandons it and publishes its sequence number as durable. -/
theorem abandoned_write_counted_durable : let actions : List DiskAction :=
      [.stage (.hardState ⟨1, 2⟩), .close, .drain, .attempt false, .publish]
    let disk := actions.foldl DiskAction.perform (openAt .empty)
    disk.progress.durableSeq = 1 ∧
      ∀ applied, 1 ≤ applied →
        disk.storage ≠
          ((stagedOps actions).take applied).foldl apply .empty := by
  refine ⟨by decide, ?_⟩
  intro applied hle
  rw [take_of_length_le (by exact hle)]
  decide

end NodeDB.GroupDisk
