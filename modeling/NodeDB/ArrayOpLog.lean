import NodeDB.ArrayOps
import NodeDB.ArrayStore
import NodeDB.KeyedFold

/-!
# The operation log of an array, its snapshots and catch-up

Applied operations are appended to a log.  Replicas acknowledge how far they
have come; a collection pass gathers the operations up to the lowest
acknowledgement into a snapshot and drops the ones before it from the log.  A
replica that asks to catch up is served the latest snapshot and what follows
it, or only the log.

The stores are tables on disk; a failed write leaves them as they were and is
left out, as are the codec of an operation and the split of a snapshot into
chunks.
-/

namespace NodeDB.ArraySync

open Std KeyedFold ArrayEngine ByteFrame

/-! ## Coordinate ranges -/

def positiveInfinity : UInt64 := 0x7FF0000000000000

def floatRank (bits : UInt64) : Int :=
  let magnitude : Int := (bits &&& 0x7FFFFFFFFFFFFFFF).toNat
  if bits < negativeZero then magnitude else -magnitude

def floatLt (one other : UInt64) : Bool :=
  !isNan one && !isNan other && decide (floatRank one < floatRank other)

def nextUp (bits : UInt64) : UInt64 :=
  if isNan bits || bits == positiveInfinity then bits
  else if isZero bits then 1
  else if bits < negativeZero then bits + 1
  else bits - 1

def variantIndex : CoordValue → Nat
  | .int64 _ => 0
  | .float64 _ => 1
  | .timestampMs _ => 2
  | .string _ => 3

def coordLt : CoordValue → CoordValue → Bool
  | .int64 one, .int64 other => one < other
  | .float64 one, .float64 other => floatLt one other
  | .timestampMs one, .timestampMs other => one < other
  | .string one, .string other => one < other
  | one, other => variantIndex one < variantIndex other

def saturatingSucc (value : Int) : Int :=
  if value = openUpper then value else value + 1

def exclusiveUpperBound : CoordValue → CoordValue
  | .int64 value => .int64 (saturatingSucc value)
  | .timestampMs value => .timestampMs (saturatingSucc value)
  | .float64 bits => .float64 (nextUp bits)
  | .string value => .string (value ++ "\x00")

structure CoordRange where
  lo : Coord
  hi : Coord
  deriving DecidableEq, Repr

def mergeCoordRange (existing : Option CoordRange) (coord : Coord) :
    Except ArrayError CoordRange :=
  let range := existing.getD
    { lo := coord
      hi := coord.map exclusiveUpperBound }
  if range.lo.length ≠ coord.length ∨ range.hi.length ≠ coord.length then
    .error (.segmentCorruption "array GC encountered incompatible coordinate arity")
  else
    .ok { lo := List.zipWith (fun low value => if coordLt value low then value else low)
            range.lo coord
          hi := List.zipWith
            (fun high value =>
              if coordLt high (exclusiveUpperBound value) then exclusiveUpperBound value else high)
            range.hi coord }

/-! ## The stores -/

section Stores

variable {ν : Type}

/-- A snapshot.  Its tile blob is a batch of operations. -/
structure TileSnapshot (ν : Type) where
  array : String
  coordRange : CoordRange
  ops : List (ArrayOp ν)
  snapshotHlc : Hlc
  schemaHlc : Hlc
  deriving DecidableEq, Repr

abbrev AckVector := TreeMap Nat Hlc

def AckVector.record (vector : AckVector) (replica : Nat) (hlc : Hlc) : AckVector :=
  vector.insert replica (max (vector.getD replica Hlc.zero) hlc)

def AckVector.minAckHlc (vector : AckVector) : Option Hlc :=
  (vector.toList.map Prod.snd).min?

structure Origin (ν : Type) where
  opLog : Scope → TreeMap Hlc (ArrayOp ν)
  snapshots : Scope → TreeMap Hlc (TileSnapshot ν)
  acks : TreeMap Scope AckVector

namespace Origin

def empty : Origin ν where
  opLog := fun _ => ∅
  snapshots := fun _ => ∅
  acks := ∅

def maxArrayNameBytes : Nat := 65535

/-- Appends an operation; one already stored under its clock stays. -/
def append (origin : Origin ν) (databaseId tenantId : Nat) (op : ArrayOp ν) :
    Origin ν × Except ArrayError Unit :=
  if maxArrayNameBytes < op.header.array.utf8ByteSize then
    (origin, .error (.invalidOp
      ("array name too long (>65535 bytes): '" ++ op.header.array ++ "'")))
  else
    let scope : Scope :=
      { databaseId := databaseId
        tenantId := tenantId
        array := op.header.array }
    ({ origin with
       opLog := Function.update origin.opLog scope
        ((origin.opLog scope).insertIfNew op.header.hlc op) }, .ok ())

/-- The operations between two clocks, both included, in their order. -/
def scanRange (origin : Origin ν) (scope : Scope) (low high : Hlc) : List (ArrayOp ν) :=
  ((origin.opLog scope).toList.filter fun entry => low ≤ entry.1 ∧ entry.1 ≤ high).map Prod.snd

def dropArrayBelow (origin : Origin ν) (scope : Scope) (hlc : Hlc) : Origin ν :=
  { origin with
    opLog := Function.update origin.opLog scope
      ((origin.opLog scope).filter fun stamp _ => ¬ stamp < hlc) }

def record (origin : Origin ν) (scope : Scope) (replica : Nat) (hlc : Hlc) : Origin ν :=
  let vector := origin.acks.getD scope ∅
  if vector[replica]?.any fun current => hlc ≤ current then origin
  else { origin with acks := origin.acks.insert scope (AckVector.record vector replica hlc) }

def minAckHlc (origin : Origin ν) (scope : Scope) : Option Hlc :=
  origin.acks[scope]?.bind AckVector.minAckHlc

def putSnapshot (origin : Origin ν) (scope : Scope) (snapshot : TileSnapshot ν) : Origin ν :=
  { origin with
    snapshots := Function.update origin.snapshots scope
      ((origin.snapshots scope).insert snapshot.snapshotHlc snapshot) }

/-- The snapshot with the highest clock, if it is one of this array. -/
def latestForArray (origin : Origin ν) (scope : Scope) : Option (TileSnapshot ν) :=
  ((lastEntry (origin.snapshots scope)).map Prod.snd).filter fun snapshot =>
    snapshot.array = scope.array

def deleteOlderThan (origin : Origin ν) (scope : Scope) (olderThan : Hlc) : Origin ν :=
  { origin with
    snapshots := Function.update origin.snapshots scope
      ((origin.snapshots scope).filter fun hlc _ => ¬ hlc < olderThan) }

end Origin

/-! ## Collection -/

def checkArray (detail : String → String) (array : String) :
    List (ArrayOp ν) → Except ArrayError Unit
  | [] => .ok ()
  | op :: rest =>
    if op.header.array = array then checkArray detail array rest
    else .error (.segmentCorruption (detail op.header.array))

def insertOps (ops : TreeMap Hlc (ArrayOp ν)) (items : List (ArrayOp ν)) :
    TreeMap Hlc (ArrayOp ν) :=
  items.foldl (fun ops op => ops.insert op.header.hlc op) ops

def latestSchema (schemaHlc : Hlc) (items : List (ArrayOp ν)) : Hlc :=
  items.foldl (fun schemaHlc op => max schemaHlc op.header.schemaHlc) schemaHlc

/-- What is kept of the snapshot before: range, schema and operations up to the frontier. -/
def carryPrior (array : String) (frontier : Hlc) :
    Option (TileSnapshot ν) → Except ArrayError (Option CoordRange × Hlc × List (ArrayOp ν))
  | none => .ok (none, Hlc.zero, [])
  | some snapshot => do
    let _ ← require (snapshot.array = array)
      (.segmentCorruption ("array GC snapshot scope mismatch: expected '" ++ array ++
        "', got '" ++ snapshot.array ++ "'"))
    let _ ← checkArray (fun other => "array GC snapshot for '" ++ array ++
      "' contains op for '" ++ other ++ "'") array snapshot.ops
    let carried := snapshot.ops.filter fun op => op.header.hlc ≤ frontier
    let schemaHlc := if snapshot.snapshotHlc ≤ frontier then snapshot.schemaHlc else Hlc.zero
    return (some snapshot.coordRange, latestSchema schemaHlc carried, carried)

def refusedAdvance (array : String) : ArrayError :=
  .segmentCorruption ("array GC refused to advance '" ++ array ++
    "' without recoverable snapshot content")

def buildSnapshotThroughFrontier (origin : Origin ν) (scope : Scope) (frontier : Hlc) :
    Except ArrayError (TileSnapshot ν) := do
  let (coordRange, schemaHlc, carried) ←
    carryPrior scope.array frontier (origin.latestForArray scope)
  let logged := origin.scanRange scope Hlc.zero frontier
  let _ ← checkArray (fun other => "array GC log scope mismatch: expected '" ++ scope.array ++
    "', got '" ++ other ++ "'") scope.array logged
  let ops := ((insertOps (insertOps ∅ carried) logged).toList).map Prod.snd
  let _ ← require (ops ≠ []) (refusedAdvance scope.array)
  let coordRange ← ops.foldlM
    (fun range op => do
      let merged ← mergeCoordRange range op.coord
      return some merged) coordRange
  let coordRange ← match coordRange with
    | some range => .ok range
    | none => .error (refusedAdvance scope.array)
  return { array := scope.array
           coordRange := coordRange
           ops := ops
           snapshotHlc := frontier
           schemaHlc := latestSchema schemaHlc logged }

/-- Collects one array: the snapshot is stored before any operation is dropped. -/
def gcScope (origin : Origin ν) (scope : Scope) : Origin ν :=
  match (origin.acks.getD scope ∅).minAckHlc with
  | none => origin
  | some frontier =>
    match buildSnapshotThroughFrontier origin scope frontier with
    | .error _ => origin
    | .ok snapshot =>
      ((origin.putSnapshot scope snapshot).dropArrayBelow scope frontier).deleteOlderThan
        scope frontier

/-- One pass over the arrays with acknowledgements, in the order of the hash map. -/
def runGc (shuffle : Shuffle Scope) (origin : Origin ν) : Origin ν :=
  (shuffle.order origin.acks.keys).foldl gcScope origin

/-! ## Catch-up -/

/-- What a request is served when every frame is queued. -/
structure Served (ν : Type) where
  snapshot : Option (TileSnapshot ν)
  batches : List (List (ArrayOp ν))

def Served.ops (served : Served ν) : List (ArrayOp ν) :=
  (served.snapshot.map TileSnapshot.ops).getD [] ++ served.batches.flatten

def batchSize : Nat := 256

/-- Cuts the operations into batches; `pending` is the batch being filled. -/
def batchesFrom (pending : List (ArrayOp ν)) : List (ArrayOp ν) → List (List (ArrayOp ν))
  | [] => if pending = [] then [] else [pending]
  | op :: rest =>
    if batchSize ≤ pending.length + 1 then (pending ++ [op]) :: batchesFrom [] rest
    else batchesFrom (pending ++ [op]) rest

def streamOps (origin : Origin ν) (scope : Scope) (fromHlc : Hlc) : List (List (ArrayOp ν)) :=
  batchesFrom [] (origin.scanRange scope fromHlc Hlc.top)

def serve (origin : Origin ν) (scope : Scope) (fromHlc : Hlc) : Served ν :=
  let gcBoundary := origin.minAckHlc scope
  let snapshot := (gcBoundary.filter fun boundary => fromHlc < boundary).bind fun _ =>
    origin.latestForArray scope
  match snapshot with
  | some snapshot =>
    { snapshot := some snapshot
      batches := streamOps origin scope snapshot.snapshotHlc }
  | none =>
    { snapshot := none
      batches := streamOps origin scope fromHlc }

end Stores

end NodeDB.ArraySync
