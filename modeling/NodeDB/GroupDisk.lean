import NodeDB.RaftLog

/-!
# One group's disk and its background writer

A group's node stages every storage write on a queue and returns at once.  A
writer drains the queue, joins consecutive appends, applies the writes to the
redb store one after another and then publishes how far it has come.  The
writer's position inside a batch is part of the state, so that a run can
interleave the node with the writer between any two writes.
-/

namespace NodeDB.GroupDisk

open Raft

/-! ## The redb store -/

/-- Persistent log storage: the entries table in key order and the metadata
keys. -/
structure RedbLogStorage where
  entries : List LogEntry
  hardState : HardState
  snapshotIndex : Nat
  snapshotTerm : Nat
  appliedIndex : Nat
  deriving DecidableEq

inductive StorageOp where
  | append (entries : List LogEntry)
  | truncate (index : Nat)
  | compact (index term : Nat)
  | hardState (state : HardState)
  | appliedIndex (index : Nat)
  deriving DecidableEq

namespace RedbLogStorage

def empty : RedbLogStorage :=
  { entries := []
    hardState := HardState.new
    snapshotIndex := 0
    snapshotTerm := 0
    appliedIndex := 0 }

/-- Insert under the entry's index; an entry with the same key is replaced. -/
def insert : List LogEntry → LogEntry → List LogEntry
  | [], entry => [entry]
  | head :: tail, entry =>
    if entry.index < head.index then
      entry :: head :: tail
    else if entry.index = head.index then
      entry :: tail
    else
      head :: insert tail entry

def append (storage : RedbLogStorage) (entries : List LogEntry) :
    RedbLogStorage :=
  { storage with entries := entries.foldl insert storage.entries }

def truncate (storage : RedbLogStorage) (index : Nat) : RedbLogStorage :=
  { storage with
    entries := storage.entries.filter fun e => decide (e.index < index) }

def compact (storage : RedbLogStorage) (index term : Nat) : RedbLogStorage :=
  { storage with
    entries := storage.entries.filter fun e => decide (index + 1 ≤ e.index)
    snapshotIndex := index
    snapshotTerm := term }

def loadEntriesAfter (storage : RedbLogStorage) (snapshotIndex : Nat) :
    List LogEntry :=
  storage.entries.filter fun e => decide (snapshotIndex + 1 ≤ e.index)

def apply (storage : RedbLogStorage) : StorageOp → RedbLogStorage
  | .append entries => storage.append entries
  | .truncate index => storage.truncate index
  | .compact index term => storage.compact index term
  | .hardState state => { storage with hardState := state }
  | .appliedIndex index => { storage with appliedIndex := index }

end RedbLogStorage

/-! ## The queue, the progress and the writer -/

structure DiskProgress where
  durableSeq : Nat
  /-- The last log entry held durably.  A term of 0 above index 0 means the
  term is not known. -/
  stable : Nat × Nat
  closed : Bool
  deriving DecidableEq

structure Queue where
  ops : List (Nat × StorageOp)
  stagedThrough : Nat
  hardStateSeq : Nat
  closed : Bool
  deriving DecidableEq

/-- The writer inside `apply_batch`: the joined writes it has passed and those
still ahead, the last sequence number of the batch, the stable entry computed
so far and whether the disk was closed when the batch was drained. -/
structure Flight where
  passed : List StorageOp
  ahead : List StorageOp
  through : Nat
  stable : Nat × Nat
  closed : Bool
  deriving DecidableEq

inductive Writer where
  | waiting
  | applying (flight : Flight)
  | ended
  deriving DecidableEq

structure Disk where
  storage : RedbLogStorage
  queue : Queue
  progress : DiskProgress
  writer : Writer
  deriving DecidableEq

/-- One step of joining a batch: an append extends an append before it. -/
def mergeStep (merged : List StorageOp) (op : StorageOp) : List StorageOp :=
  match merged.getLast?, op with
  | some (.append run), .append more => merged.dropLast ++ [.append (run ++ more)]
  | _, op => merged ++ [op]

/-- The batch's writes in order, with each run of appends joined into one. -/
def mergeAppends (batch : List (Nat × StorageOp)) : List StorageOp :=
  (batch.map Prod.snd).foldl mergeStep []

/-- The last durable entry once `op` is durable, from `stable` before it. -/
def nextStable (stable : Nat × Nat) : StorageOp → Nat × Nat
  | .append entries =>
    match entries.getLast? with
    | none => stable
    | some entry => (entry.index, entry.term)
  | .truncate index => if index ≤ stable.1 then (index - 1, 0) else stable
  | .compact index term => if stable.1 < index then (index, term) else stable
  | .hardState _ => stable
  | .appliedIndex _ => stable

/-- The flight after its next write, whether or not the write went through. -/
def Flight.advance (flight : Flight) (op : StorageOp)
    (ahead : List StorageOp) : Flight :=
  { flight with
    passed := flight.passed ++ [op]
    ahead := ahead
    stable := nextStable flight.stable op }

namespace Disk

def openAt (storage : RedbLogStorage) : Disk :=
  { storage := storage
    queue := { ops := [], stagedThrough := 0, hardStateSeq := 0, closed := false }
    progress := { durableSeq := 0, stable := (0, 0), closed := false }
    writer := .waiting }

def setRestoredStable (disk : Disk) (stable : Nat × Nat) : Disk :=
  { disk with progress := { disk.progress with stable := stable } }

def stage (disk : Disk) (op : StorageOp) : Disk :=
  let seq := disk.queue.stagedThrough + 1
  { disk with queue := {
      disk.queue with
      ops := disk.queue.ops ++ [(seq, op)]
      stagedThrough := seq
      hardStateSeq := match op with
        | .hardState _ => seq
        | _ => disk.queue.hardStateSeq } }

def close (disk : Disk) : Disk :=
  { disk with queue := { disk.queue with closed := true } }

/-- The writer takes the whole queue as one batch.  It waits while the queue
is empty and ends once the queue is empty and closed. -/
def drain (disk : Disk) : Disk :=
  match disk.writer with
  | .waiting =>
    match disk.queue.ops.getLast? with
    | none =>
      if disk.queue.closed then
        { disk with
          writer := .ended
          progress := { disk.progress with closed := true } }
      else
        disk
    | some (through, _) =>
      { disk with
        queue := { disk.queue with ops := [] }
        writer := .applying {
          passed := []
          ahead := mergeAppends disk.queue.ops
          through := through
          stable := disk.progress.stable
          closed := disk.queue.closed } }
  | _ => disk

/-- One attempt at the writer's next write.  A failed attempt is retried,
unless the batch was drained from a closed queue: then it is abandoned. -/
def attempt (disk : Disk) (succeeds : Bool) : Disk :=
  match disk.writer with
  | .applying flight =>
    match flight.ahead with
    | [] => disk
    | op :: ahead =>
      if succeeds then
        { disk with
          storage := disk.storage.apply op
          writer := .applying (flight.advance op ahead) }
      else if flight.closed then
        { disk with writer := .applying (flight.advance op ahead) }
      else
        disk
  | _ => disk

/-- The writer publishes the progress of a batch it has gone through. -/
def publish (disk : Disk) : Disk :=
  match disk.writer with
  | .applying flight =>
    match flight.ahead with
    | [] =>
      { disk with
        progress := {
          disk.progress with
          durableSeq := max disk.progress.durableSeq flight.through
          stable := flight.stable }
        writer := .waiting }
    | _ :: _ => disk
  | _ => disk

def ticketForReply (disk : Disk) (mark : Nat) : Option Nat :=
  let seq :=
    if mark < disk.queue.stagedThrough then
      disk.queue.stagedThrough
    else
      disk.queue.hardStateSeq
  if disk.progress.durableSeq < seq then some seq else none

end Disk

/-! ## The staged log storage -/

/-- The storage a mounted group runs on, with the snapshot boundary as the
node's log holds it. -/
structure StagedLogStorage where
  disk : Disk
  snapshot : Nat × Nat
  deriving DecidableEq

namespace StagedLogStorage

def openAt (storage : RedbLogStorage) : StagedLogStorage :=
  let snapshot := (storage.snapshotIndex, storage.snapshotTerm)
  { disk := (Disk.openAt storage).setRestoredStable snapshot
    snapshot := snapshot }

def stage (storage : StagedLogStorage) (op : StorageOp) : StagedLogStorage :=
  { storage with disk := storage.disk.stage op }

instance : LogStorage StagedLogStorage where
  append storage entries :=
    (.ok (), if entries.isEmpty then storage else storage.stage (.append entries))
  truncate storage index := (.ok (), storage.stage (.truncate index))
  loadEntriesAfter storage snapshotIndex :=
    let entries := storage.disk.storage.loadEntriesAfter snapshotIndex
    (.ok entries,
      match entries.getLast? with
      | none => storage
      | some last =>
        { storage with
          disk := storage.disk.setRestoredStable (last.index, last.term) })
  compact storage index term :=
    let snapshot :=
      if storage.snapshot.1 < index then (index, term) else storage.snapshot
    (.ok (), { storage.stage (.compact index term) with snapshot := snapshot })
  snapshotMetadata storage := storage.snapshot
  saveHardState storage state := (.ok (), storage.stage (.hardState state))
  loadHardState storage := .ok storage.disk.storage.hardState
  saveAppliedIndex storage index := (.ok (), storage.stage (.appliedIndex index))
  loadAppliedIndex storage := .ok storage.disk.storage.appliedIndex
  stableThrough storage := some storage.disk.progress.stable

section

variable (storage : StagedLogStorage)

@[simp]
theorem append_cons (entry : LogEntry) (entries : List LogEntry) :
    LogStorage.append storage (entry :: entries) =
      (.ok (), storage.stage (.append (entry :: entries))) :=
  rfl

@[simp]
theorem truncate_eq (index : Nat) :
    LogStorage.truncate storage index =
      (.ok (), storage.stage (.truncate index)) :=
  rfl

@[simp]
theorem stage_disk (op : StorageOp) : (storage.stage op).disk = storage.disk.stage op :=
  rfl

end

end StagedLogStorage

end NodeDB.GroupDisk
