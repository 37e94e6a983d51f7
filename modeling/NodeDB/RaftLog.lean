import NodeDB.RaftMessage
import Mathlib.Tactic.Common

/-!
# The in-memory Raft log over its storage

The log keeps the entries after a snapshot boundary in memory and mirrors
every change to its storage first.  A failed storage write therefore leaves
memory covering exactly what storage took.
-/

namespace NodeDB.Raft

/-- In-memory Raft log backed by a storage `S`.  The log is 1-indexed and
keeps only the entries after `snapshotIndex`. -/
structure RaftLog (S : Type) where
  entries : List LogEntry
  snapshotIndex : Nat
  snapshotTerm : Nat
  storage : S
  deriving DecidableEq

namespace RaftLog

variable {S : Type} [LogStorage S]

def new (storage : S) : RaftLog S :=
  { entries := [], snapshotIndex := 0, snapshotTerm := 0, storage := storage }

def restore (log : RaftLog S) : Except RaftError Unit × RaftLog S :=
  let boundary := LogStorage.snapshotMetadata log.storage
  let log := { log with
    snapshotIndex := boundary.1
    snapshotTerm := boundary.2 }
  match LogStorage.loadEntriesAfter log.storage boundary.1 with
  | (.error e, storage) => (.error e, { log with storage := storage })
  | (.ok entries, storage) =>
    (.ok (), { log with
      storage := storage
      entries := entries })

/-- The index of the last entry, or of the snapshot when the log is empty. -/
def lastIndex (log : RaftLog S) : Nat :=
  (log.entries.getLast?.map LogEntry.index).getD log.snapshotIndex

def lastTerm (log : RaftLog S) : Nat :=
  (log.entries.getLast?.map LogEntry.term).getD log.snapshotTerm

def entryAt (log : RaftLog S) (index : Nat) : Option LogEntry :=
  if index ≤ log.snapshotIndex ∨ log.lastIndex < index then
    none
  else
    log.entries[index - log.snapshotIndex - 1]?

def termAt (log : RaftLog S) (index : Nat) : Option Nat :=
  if index = 0 then
    some 0
  else if index = log.snapshotIndex then
    some log.snapshotTerm
  else if index < log.snapshotIndex then
    none
  else
    (log.entryAt index).map LogEntry.term

def entriesRange (log : RaftLog S) (lo hi : Nat) :
    Except RaftError (List LogEntry) :=
  if lo ≤ log.snapshotIndex then
    .error (.logCompacted lo (log.snapshotIndex + 1))
  else if hi < lo ∨ log.lastIndex < lo then
    .ok []
  else
    let start := lo - log.snapshotIndex - 1
    let stop := (min hi log.lastIndex - log.snapshotIndex - 1) + 1
    .ok ((log.entries.take stop).drop start)

/-- The loop of `entriesWithin`: `total` bytes and `count` entries are
already taken.  The first entry is taken whatever its size. -/
def takeWithin (maxBytes : Nat) :
    (total count : Nat) → List LogEntry → List LogEntry
  | _, _, [] => []
  | total, count, entry :: rest =>
    let total := total + entry.data.length
    if 0 < count ∧ maxBytes < total then
      []
    else
      entry :: takeWithin maxBytes total (count + 1) rest

/-- The entries from `lo` to `hi` whose data sums to at most `maxBytes`. -/
def entriesWithin (log : RaftLog S) (lo hi maxBytes : Nat) :
    Except RaftError (List LogEntry) :=
  (log.entriesRange lo hi).map (takeWithin maxBytes 0 0)

def truncateFrom (log : RaftLog S) (index : Nat) :
    Except RaftError Unit × RaftLog S :=
  if index ≤ log.snapshotIndex then
    (.ok (), log)
  else
    match LogStorage.truncate log.storage index with
    | (.error e, storage) => (.error e, { log with storage := storage })
    | (.ok (), storage) =>
      (.ok (), { log with
        storage := storage
        entries := log.entries.take (index - log.snapshotIndex - 1) })

/-- The test that picks the first entry of a batch to be written: it lies
past the snapshot and the log does not hold it at the same term. -/
def isNew (log : RaftLog S) (entry : LogEntry) : Bool :=
  decide (log.snapshotIndex < entry.index) &&
    match log.entryAt entry.index with
    | none => true
    | some existing => existing.term != entry.term

def newSuffix (log : RaftLog S) (entries : List LogEntry) : List LogEntry :=
  entries.dropWhile fun entry => !log.isNew entry

/-- Append entries of a leader's request.  Returns whether storage took a
write. -/
def appendEntries (log : RaftLog S) (entries : List LogEntry) :
    Except RaftError Bool × RaftLog S :=
  match log.newSuffix entries with
  | [] => (.ok false, log)
  | first :: rest =>
    -- A conflicting entry and all that follow it are deleted first.
    let truncated :=
      if (log.entryAt first.index).isSome then
        log.truncateFrom first.index
      else
        (.ok (), log)
    match truncated with
    | (.error e, log) => (.error e, log)
    | (.ok (), log) =>
      match LogStorage.append log.storage (first :: rest) with
      | (.error e, storage) => (.error e, { log with storage := storage })
      | (.ok (), storage) =>
        (.ok true, { log with
          storage := storage
          entries := log.entries ++ (first :: rest) })

def append (log : RaftLog S) (entry : LogEntry) :
    Except RaftError Unit × RaftLog S :=
  match LogStorage.append log.storage [entry] with
  | (.error e, storage) => (.error e, { log with storage := storage })
  | (.ok (), storage) =>
    (.ok (), { log with
      storage := storage
      entries := log.entries ++ [entry] })

def applySnapshot (log : RaftLog S)
    (lastIncludedIndex lastIncludedTerm : Nat) :
    Except RaftError Unit × RaftLog S :=
  if lastIncludedIndex ≤ log.snapshotIndex then
    (.ok (), log)
  else
    match LogStorage.compact log.storage lastIncludedIndex lastIncludedTerm with
    | (.error e, storage) => (.error e, { log with storage := storage })
    | (.ok (), storage) =>
      (.ok (), {
        storage := storage
        entries := log.entries.filter fun entry =>
          decide (lastIncludedIndex + 1 ≤ entry.index)
        snapshotIndex := lastIncludedIndex
        snapshotTerm := lastIncludedTerm })

/-- The last index of this log that storage holds durably.  The durable
entry that storage reports counts only when this log holds the same entry. -/
def stableIndex (log : RaftLog S) : Nat :=
  match LogStorage.stableThrough log.storage with
  | none => log.lastIndex
  | some (index, term) =>
    if index ≤ log.lastIndex ∧ log.termAt index = some term then
      index
    else
      min index log.snapshotIndex

/-- The last entry a log shares with a leader after it took a request. -/
def matchedIndex (prevIndex : Nat) (entries : List LogEntry) : Nat :=
  (entries.getLast?.map LogEntry.index).getD prevIndex

/-- The match index a success reply claims.  A request that took a write is
answered once every staged write is durable; otherwise the claim stops at the
durable prefix. -/
def claimableMatch (log : RaftLog S) (matched : Nat) (wrote : Bool) : Nat :=
  if wrote then matched else min matched log.stableIndex

end RaftLog

end NodeDB.Raft
