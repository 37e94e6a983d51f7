import Mathlib.Data.List.Basic

/-!
# Log entries, messages and the storage interface

The data that the Raft crate passes between nodes and to its storage.
Indices, terms, node identifiers and rounds are natural numbers; entry data
is the byte list the state machine interprets.

The storage in memory is the one that the crate's own tests run the node over.
Every write is durable when it returns, so it reports no staged prefix.
-/

namespace NodeDB.Raft

structure LogEntry where
  term : Nat
  index : Nat
  data : List UInt8
  deriving DecidableEq, Repr

/-- What a replica's data permits.  A replica whose data diverged takes no
entries until a snapshot replaces it. -/
inductive ReplicaState where
  | whole
  | wantsSnapshot
  | awaitingSnapshot
  deriving DecidableEq, Repr

/-- The persistent vote and term; `votedFor = 0` means no vote. -/
structure HardState where
  currentTerm : Nat
  votedFor : Nat
  deriving DecidableEq, Repr

def HardState.new : HardState := ⟨0, 0⟩

inductive RaftError where
  | notLeader (leaderHint : Option Nat) (term : Nat)
  | logCompacted (requested firstAvailable : Nat)
  | compactionAheadOfApplied (requested lastApplied : Nat)
  | invalidTransferTarget (target : Nat)
  | leadershipTransferInProgress
  | proposalRejected (reason : String)
  | storage (detail : String)
  deriving DecidableEq, Repr

/-- Persistent Raft log storage.  An operation returns its outcome together
with the storage it leaves behind, also when it fails. -/
class LogStorage (S : Type) where
  append : S → List LogEntry → Except RaftError Unit × S
  truncate : S → Nat → Except RaftError Unit × S
  loadEntriesAfter : S → Nat → Except RaftError (List LogEntry) × S
  compact : S → Nat → Nat → Except RaftError Unit × S
  snapshotMetadata : S → Nat × Nat
  saveHardState : S → HardState → Except RaftError Unit × S
  loadHardState : S → Except RaftError HardState
  saveAppliedIndex : S → Nat → Except RaftError Unit × S
  loadAppliedIndex : S → Except RaftError Nat
  /-- The last entry held durably; `none` when every write is durable before
  it returns. -/
  stableThrough : S → Option (Nat × Nat)

/-! ## Storage in memory -/

structure MemStorage where
  entries : List LogEntry
  hardState : HardState
  snapshotIndex : Nat
  snapshotTerm : Nat
  appliedIndex : Nat
  deriving DecidableEq

namespace MemStorage

def new : MemStorage :=
  { entries := []
    hardState := HardState.new
    snapshotIndex := 0
    snapshotTerm := 0
    appliedIndex := 0 }

def insertEntry (entries : List LogEntry) (entry : LogEntry) :
    List LogEntry :=
  match entries with
  | [] => [entry]
  | head :: tail =>
    if head.index = entry.index then
      entry :: tail
    else
      head :: insertEntry tail entry

instance : LogStorage MemStorage where
  append storage entries :=
    (.ok (), { storage with
      entries := entries.foldl insertEntry storage.entries })
  truncate storage index :=
    (.ok (), { storage with
      entries := storage.entries.filter fun e => decide (e.index < index) })
  loadEntriesAfter storage snapshotIndex :=
    (.ok (storage.entries.filter fun e => decide (snapshotIndex < e.index)),
      storage)
  compact storage index term :=
    (.ok (), { storage with
      entries := storage.entries.filter fun e => decide (index < e.index)
      snapshotIndex := index
      snapshotTerm := term })
  snapshotMetadata storage := (storage.snapshotIndex, storage.snapshotTerm)
  saveHardState storage state := (.ok (), { storage with hardState := state })
  loadHardState storage := .ok storage.hardState
  saveAppliedIndex storage index :=
    (.ok (), { storage with appliedIndex := index })
  loadAppliedIndex storage := .ok storage.appliedIndex
  stableThrough _ := none

end MemStorage

/-! ## Requests and responses of one group -/

structure AppendEntriesRequest where
  term : Nat
  leaderId : Nat
  prevLogIndex : Nat
  prevLogTerm : Nat
  entries : List LogEntry
  leaderCommit : Nat
  round : Nat
  replicatedFloor : Nat
  deriving DecidableEq, Repr

structure AppendEntriesResponse where
  term : Nat
  success : Bool
  /-- The claimed match index on success, a hint for the next index
  otherwise. -/
  lastLogIndex : Nat
  round : Nat
  replica : ReplicaState
  deriving DecidableEq, Repr

structure RequestVoteRequest where
  term : Nat
  candidateId : Nat
  lastLogIndex : Nat
  lastLogTerm : Nat
  transfer : Bool
  deriving DecidableEq, Repr

structure RequestVoteResponse where
  term : Nat
  voteGranted : Bool
  deriving DecidableEq, Repr

structure PreVoteRequest where
  term : Nat
  candidateId : Nat
  lastLogIndex : Nat
  lastLogTerm : Nat
  deriving DecidableEq, Repr

structure PreVoteResponse where
  term : Nat
  voteGranted : Bool
  deriving DecidableEq, Repr

structure TimeoutNowRequest where
  term : Nat
  leaderId : Nat
  deriving DecidableEq, Repr

structure InstallSnapshotRequest where
  term : Nat
  leaderId : Nat
  lastIncludedIndex : Nat
  lastIncludedTerm : Nat
  done : Bool
  deriving DecidableEq, Repr

structure InstallSnapshotResponse where
  term : Nat
  deriving DecidableEq, Repr

structure Ready where
  hardState : Option HardState
  messages : List (Nat × AppendEntriesRequest)
  voteRequests : List (Nat × RequestVoteRequest)
  preVoteRequests : List (Nat × PreVoteRequest)
  timeoutNow : List (Nat × TimeoutNowRequest)
  committedEntries : List LogEntry
  snapshotsNeeded : List Nat
  committedReadError : Option RaftError
  deriving DecidableEq, Repr

def Ready.empty : Ready :=
  { hardState := none
    messages := []
    voteRequests := []
    preVoteRequests := []
    timeoutNow := []
    committedEntries := []
    snapshotsNeeded := []
    committedReadError := none }

end NodeDB.Raft
