import NodeDB.KeySets

/-!
# The sequencer state machine

Every replica applies the committed entries of the sequencer group.  An epoch
batch whose epoch is not behind the last applied one is fanned out to the
schedulers of its participants; a batch behind it halts the machine.  The
parts of a multi-part transaction go to their targets while the transaction is
open.  An application returns the inputs it hands to the schedulers, with the
vshard of each.
-/

namespace NodeDB.Sequencer

open Std Calvin

/-! ## Log entries -/

/-- A validated batch: its transactions carry its epoch and distinct
positions. -/
structure EpochBatch where
  epoch : Nat
  txns : List SequencedTxn
  epochSystemMs : Int
  epochs : ∀ txn ∈ txns, txn.epoch = epoch
  positions : (txns.map SequencedTxn.position).Nodup

inductive ReleaseReason where
  | commit
  | abort
  | timeout
  | leaseGc
  deriving DecidableEq, Repr

structure TaskChunk where
  offset : Nat
  totalLen : Nat
  deriving DecidableEq, Repr

structure CutBarrier where
  capture : Option (List UInt8)
  deriving DecidableEq, Repr

structure PartEntry where
  index : Nat
  firstTask : Nat
  targets : List UInt32
  sorted : targets.Pairwise (· < ·)
  plans : List UInt8
  chunk : Option TaskChunk

inductive SequencerEntry where
  | epochBatch (batch : EpochBatch)
  | completionAck (txn : TxnId) (vshard : UInt32)
  | vote (txn : TxnId) (vshard : UInt32)
  | abortVote (txn : TxnId) (vshard : UInt32)
  | verdict (txn : TxnId)
  | abortVerdict (txn : TxnId)
  | reserveRead (owner : TxnId) (vshard : UInt32) (key : LockKey)
  | releaseReservation (owner : TxnId) (vshard : UInt32) (reason : ReleaseReason)
  | cutMarker (hlc restorePoint : Nat) (barrier : Option CutBarrier)
  | epochFloor (nextEpoch : Nat) (epochSystemMs : Int)
  | txnPart (txn : TxnId) (part : PartEntry)
  | txnPartsAbandoned (txn : TxnId)

/-- The bytes of a committed log entry, as they decode. -/
inductive LogData where
  | empty
  | confChange
  | undecodable
  | entry (decoded : SequencerEntry)

structure LogEntry where
  index : Nat
  data : LogData

/-- What the state machine hands to a vshard's scheduler. -/
inductive SchedulerInput where
  | txn (txn : SequencedTxn)
  | reserve (owner : TxnId) (key : LockKey)
  | release (owner : TxnId) (reason : ReleaseReason)
  | cutMarker (hlc restorePoint : Nat) (barrier : Option CutBarrier)
  | txnPart (txn : TxnId) (index firstTask : Nat) (plans : List UInt8)
      (chunk : Option TaskChunk)
  | partsAbandoned (txn : TxnId)
  deriving DecidableEq, Repr

/-! ## Participants -/

section Participants

-- the home vshard of a collection, if its name carries the database's qualifier
variable (home : Nat → String → Option UInt32)

def keySetVshards (database : Nat) : EngineKeySet → Option (List UInt32)
  | .edge _ _ homes => some homes
  | .array _ vshards => some vshards
  | .collection coll vshards =>
    if vshards.isEmpty then (home database coll).map ([·]) else some vshards
  | .document coll _ => (home database coll).map ([·])
  | .vector coll _ => (home database coll).map ([·])
  | .kv coll _ => (home database coll).map ([·])
  | .unique coll _ _ => (home database coll).map ([·])

def setVshards (database : Nat) (set : ReadWriteSet) : Option (List UInt32) :=
  (set.mapM (keySetVshards home database)).map List.flatten

/-- The participants of a transaction, sorted and without repetition. -/
def participatingVshards (txClass : TxClass) : Option (List UInt32) := do
  let writes ← setVshards home txClass.databaseId txClass.writeSet
  let reads ← setVshards home txClass.databaseId txClass.readSet
  return (TreeSet.ofList (writes ++ reads ++ txClass.passiveVshards)).toList

def restoreDerived (batch : EpochBatch) : Option (List (SequencedTxn × List UInt32)) :=
  batch.txns.mapM fun txn => (participatingVshards home txn.txClass).map (txn, ·)

end Participants

def vshardTxnCount (txns : List (SequencedTxn × List UInt32)) (vshard : UInt32) : Nat :=
  (txns.flatMap Prod.snd).count vshard

def stampTxn (epochSystemMs : Int) (txns : List (SequencedTxn × List UInt32))
    (vshard : UInt32) (txn : SequencedTxn) : SchedulerInput :=
  .txn { txn with
    epochSystemMs := epochSystemMs,
    epochVshardTxnCount := vshardTxnCount txns vshard }

/-! ## The machine -/

structure OpenTxn where
  headerIndex : Nat
  participants : List UInt32
  count : Nat
  seen : TreeSet Nat

def notYetApplied : Nat := 2 ^ 64 - 1

structure SequencerStateMachine where
  lastAppliedEpoch : Nat
  lastEpochSystemMs : Option Int
  lastCommittedIndex : Nat
  hosted : TreeSet UInt32
  halted : Bool
  openParts : TreeMap TxnId OpenTxn

inductive EpochCheck where
  | inOrder
  | ahead
  | behind
  deriving DecidableEq, Repr

def classify (expected found : Nat) : EpochCheck :=
  if found = expected then .inOrder
  else if expected < found then .ahead
  else .behind

namespace SequencerStateMachine

abbrev Handed := List (UInt32 × SchedulerInput)

def new (hosted : TreeSet UInt32) : SequencerStateMachine :=
  { lastAppliedEpoch := notYetApplied,
    lastEpochSystemMs := none,
    lastCommittedIndex := notYetApplied,
    hosted := hosted,
    halted := false,
    openParts := ∅ }

def nextEpoch (machine : SequencerStateMachine) : Nat :=
  if machine.lastAppliedEpoch = notYetApplied then 0 else machine.lastAppliedEpoch + 1

def currentCommittedIndex (machine : SequencerStateMachine) : Option Nat :=
  if machine.lastCommittedIndex = notYetApplied then none
  else some machine.lastCommittedIndex

/-- Whether the batch may be fanned out, and the machine after the check. -/
def epochInOrder (machine : SequencerStateMachine) (batch : EpochBatch) :
    Bool × SequencerStateMachine :=
  if machine.halted then
    (false, machine)
  else
    match classify machine.nextEpoch batch.epoch with
    | .inOrder => (true, machine)
    | .ahead => (true, machine)
    | .behind => (false, { machine with halted := true })

def openMultiParts (machine : SequencerStateMachine) (index epoch : Nat)
    (txns : List (SequencedTxn × List UInt32)) : SequencerStateMachine :=
  let opened := txns.foldl (fun openParts item =>
    match item.1.txClass.multiPart with
    | none => openParts
    | some manifest =>
      openParts.insert ⟨epoch, item.1.position⟩
        { headerIndex := index,
          participants := item.2,
          count := manifest.partCount,
          seen := ∅ }) machine.openParts
  { machine with openParts := opened }

def fanOutEpochBatch (machine : SequencerStateMachine) (epochSystemMs : Int)
    (txns : List (SequencedTxn × List UInt32)) : Handed :=
  txns.flatMap fun item =>
    (item.2.filter (machine.hosted.contains ·)).map fun vshard =>
      (vshard, stampTxn epochSystemMs txns vshard item.1)

def applyEpochBatch (home : Nat → String → Option UInt32) (machine : SequencerStateMachine)
    (index : Nat) (batch : EpochBatch) : SequencerStateMachine × Handed :=
  match restoreDerived home batch with
  | none => (machine, [])
  | some txns =>
    match machine.epochInOrder batch with
    | (false, machine) => (machine, [])
    | (true, machine) =>
      let seenMs := match machine.lastEpochSystemMs with
        | none => batch.epochSystemMs
        | some seen => max seen batch.epochSystemMs
      let opened := { machine with lastEpochSystemMs := some seenMs }.openMultiParts index
        batch.epoch txns
      ({ opened with lastAppliedEpoch := batch.epoch },
        machine.fanOutEpochBatch batch.epochSystemMs txns)

/-- A restored log opens with the epoch that follows its restore point. -/
def applyEpochFloor (machine : SequencerStateMachine) (nextEpoch : Nat)
    (epochSystemMs : Int) : SequencerStateMachine :=
  { machine with
    lastAppliedEpoch :=
      if 0 < nextEpoch ∧ (machine.lastAppliedEpoch = notYetApplied ∨
          machine.lastAppliedEpoch < nextEpoch - 1) then
        nextEpoch - 1
      else
        machine.lastAppliedEpoch,
    lastEpochSystemMs :=
      if 0 < epochSystemMs then
        some (match machine.lastEpochSystemMs with
          | none => epochSystemMs
          | some seen => max seen epochSystemMs)
      else
        machine.lastEpochSystemMs }

def applyCutMarker (machine : SequencerStateMachine) (hlc restorePoint : Nat)
    (barrier : Option CutBarrier) : Handed :=
  machine.hosted.toList.map fun vshard => (vshard, .cutMarker hlc restorePoint barrier)

def applyTxnPart (machine : SequencerStateMachine) (txn : TxnId) (part : PartEntry) :
    SequencerStateMachine × Handed :=
  match machine.openParts[txn]? with
  | none => (machine, [])
  | some found =>
    if found.count ≤ part.index then
      (machine, [])
    else if found.seen.contains part.index then
      (machine, [])
    else
      let seen := found.seen.insert part.index
      let openParts :=
        if seen.size = found.count then machine.openParts.erase txn
        else machine.openParts.insert txn { found with seen := seen }
      ({ machine with openParts := openParts },
        part.targets.map fun vshard =>
          (vshard, .txnPart txn part.index part.firstTask part.plans part.chunk))

def applyPartsAbandoned (machine : SequencerStateMachine) (txn : TxnId) :
    SequencerStateMachine × Handed :=
  match machine.openParts[txn]? with
  | none => (machine, [])
  | some found =>
    ({ machine with openParts := machine.openParts.erase txn },
      found.participants.map fun vshard => (vshard, .partsAbandoned txn))

def applyEntry (home : Nat → String → Option UInt32) (machine : SequencerStateMachine)
    (index : Nat) : SequencerEntry → SequencerStateMachine × Handed
  | .epochBatch batch => machine.applyEpochBatch home index batch
  -- the completion registry takes these; no scheduler does
  | .completionAck _ _ => (machine, [])
  | .vote _ _ => (machine, [])
  | .abortVote _ _ => (machine, [])
  | .verdict _ => (machine, [])
  | .abortVerdict _ => (machine, [])
  | .reserveRead owner vshard key => (machine, [(vshard, .reserve owner key)])
  | .releaseReservation owner vshard reason => (machine, [(vshard, .release owner reason)])
  | .cutMarker hlc restorePoint barrier =>
    (machine, machine.applyCutMarker hlc restorePoint barrier)
  | .epochFloor nextEpoch epochSystemMs =>
    (machine.applyEpochFloor nextEpoch epochSystemMs, [])
  | .txnPart txn part => machine.applyTxnPart txn part
  | .txnPartsAbandoned txn => machine.applyPartsAbandoned txn

/-- Apply a committed log entry.  One at or below the committed index was
applied before. -/
def apply (home : Nat → String → Option UInt32) (machine : SequencerStateMachine)
    (entry : LogEntry) : SequencerStateMachine × Handed :=
  if machine.currentCommittedIndex.any (entry.index ≤ ·) then
    (machine, [])
  else
    let machine := { machine with lastCommittedIndex := entry.index }
    match entry.data with
    | .empty => (machine, [])
    | .confChange => (machine, [])
    | .undecodable => (machine, [])
    | .entry decoded => machine.applyEntry home entry.index decoded

/-- Apply entries one after the other, with all inputs they hand out. -/
def applyAll (home : Nat → String → Option UInt32) (machine : SequencerStateMachine)
    (entries : List LogEntry) : SequencerStateMachine × Handed :=
  entries.foldl (fun state entry =>
    let applied := state.1.apply home entry
    (applied.1, state.2 ++ applied.2)) (machine, [])

end SequencerStateMachine

end NodeDB.Sequencer
