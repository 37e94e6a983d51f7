import NodeDB.ArrayCells
import Mathlib.Data.List.Sort

/-!
# The memtable, the segments and the ceiling read

Writes go to the memtable, which keeps one buffer for each tile version.  A
flush writes every buffer as a sparse tile of a new segment and clears the
memtable.  Buffers and the table of segments are hash maps: the order in which
they are walked is arbitrary, and is a parameter of the flush and of the read.
An error that the read wraps is named by the wrapper alone.
-/

namespace NodeDB.ArrayEngine

open ByteFrame Std

/-! ## Tile versions -/

structure TileId where
  hilbertPrefix : Nat
  systemFromMs : Int
  deriving DecidableEq, Repr

namespace TileId

instance : Ord TileId :=
  ⟨compareLex (compareOn TileId.hilbertPrefix) (compareOn TileId.systemFromMs)⟩

instance : TransOrd TileId :=
  inferInstanceAs (TransCmp (compareLex (compareOn TileId.hilbertPrefix)
    (compareOn TileId.systemFromMs)))

instance : LawfulEqOrd TileId where
  eq_of_compare {a b} h := by
    obtain ⟨hpre, htime⟩ := compareLex_eq_eq.mp h
    obtain ⟨hilbertPrefix, systemFromMs⟩ := a
    simp only [compareOn] at hpre htime
    rw [LawfulEqOrd.compare_eq_iff_eq] at hpre htime
    subst hpre htime
    rfl

end TileId

/-- The cells of one tile version, by encoded coordinate. -/
structure TileBuffer where
  entries : TreeMap Bytes Bytes
  lastLsn : Nat

def TileBuffer.empty : TileBuffer where
  entries := ∅
  lastLsn := 0

def TileBuffer.push (buffer : TileBuffer) (key bytes : Bytes) (lsn : Nat) : TileBuffer where
  entries := buffer.entries.insert key bytes
  lastLsn := max buffer.lastLsn lsn

abbrev Memtable := TreeMap TileId TileBuffer

structure Shuffle (α : Type) where
  order : List α → List α
  perm : ∀ items, (order items).Perm items

section Writes

variable {ν : Type} (schema : ArraySchema) (codec : CellCodec ν)

structure PutCell (ν : Type) where
  coord : Coord
  payload : CellPayload ν
  systemFromMs : Int
  lsn : Nat

/-- Puts bytes at a coordinate of a tile version.  The buffer is created
before the coordinate is encoded. -/
def Memtable.pushCell (memtable : Memtable) (tile : TileId) (coord : Coord) (bytes : Bytes)
    (lsn : Nat) : Memtable × Except ArrayError TileId :=
  let buffer := memtable.getD tile TileBuffer.empty
  match codec.encodeCoord coord with
  | .ok key => (memtable.insert tile (buffer.push key bytes lsn), .ok tile)
  | .error error => (memtable.insert tile buffer, .error error)

def Memtable.putCell (memtable : Memtable) (args : PutCell ν) :
    Memtable × Except ArrayError TileId :=
  match schema.tilePrefix args.coord, args.payload.encode codec with
  | .ok hilbert, .ok bytes =>
    memtable.pushCell codec ⟨hilbert, args.systemFromMs⟩ args.coord bytes args.lsn
  | .ok _, .error error => (memtable, .error error)
  | .error error, _ => (memtable, .error error)

/-- Appends a sentinel version: `delete_cell` and `erase_cell` differ in the bytes. -/
def Memtable.pushSentinel (sentinel : Bytes) (memtable : Memtable) (coord : Coord)
    (systemFromMs : Int) (lsn : Nat) : Memtable × Except ArrayError TileId :=
  match schema.tilePrefix coord with
  | .ok hilbert => memtable.pushCell codec ⟨hilbert, systemFromMs⟩ coord sentinel lsn
  | .error error => (memtable, .error error)

def Memtable.deleteCell : Memtable → Coord → Int → Nat → Memtable × Except ArrayError TileId :=
  Memtable.pushSentinel schema codec cellTombstoneSentinel

def Memtable.eraseCell : Memtable → Coord → Int → Nat → Memtable × Except ArrayError TileId :=
  Memtable.pushSentinel schema codec cellGdprErasureSentinel

end Writes

/-! ## Flushing -/

section Flush

variable {ν : Type} (schema : ArraySchema) (codec : CellCodec ν)

def rowOf (entry : Bytes × Bytes) : Except ArrayError (SparseRow ν) := do
  let coord ← codec.decodeCoord entry.1
  if isCellTombstone entry.2 then return .sentinel coord .tombstone
  else if isCellGdprErasure entry.2 then return .sentinel coord .gdprErased
  else
    let payload ← CellPayload.decode codec entry.2
    return .live coord payload

def TileBuffer.materialise (shuffle : Shuffle (Bytes × Bytes)) (buffer : TileBuffer) :
    Except ArrayError (SparseTile ν) :=
  (shuffle.order buffer.entries.toList).foldlM
    (fun tile entry => do
      let row ← rowOf codec entry
      tile.pushRow schema row)
    (SparseTile.empty schema)

abbrev Segment (ν : Type) := List (TileId × SparseTile ν)

/-- One tile for every buffer that holds a cell.  The segment's bytes are the
encoding of these tiles. -/
def buildSegmentFromMemtable (shuffle : TileId → Shuffle (Bytes × Bytes)) :
    List (TileId × TileBuffer) → Except ArrayError (Segment ν)
  | [] => .ok []
  | (tileId, buffer) :: rest =>
    if buffer.entries.size = 0 then buildSegmentFromMemtable shuffle rest
    else do
      let tile ← buffer.materialise schema codec (shuffle tileId)
      let later ← buildSegmentFromMemtable shuffle rest
      return (tileId, tile) :: later

structure ArrayStore (ν : Type) where
  memtable : Memtable
  segments : List (Segment ν)

def ArrayStore.empty : ArrayStore ν where
  memtable := ∅
  segments := []

def Memtable.isEmpty (memtable : Memtable) : Bool :=
  memtable.toList.all fun tile => tile.2.entries.size = 0

/-- Flushes the memtable; every failure leaves the store as it was. -/
def ArrayStore.flush (shuffle : TileId → Shuffle (Bytes × Bytes)) (store : ArrayStore ν) :
    ArrayStore ν :=
  if Memtable.isEmpty store.memtable then store
  else
    match buildSegmentFromMemtable schema codec shuffle store.memtable.toList with
    | .ok segment =>
      { memtable := ∅
        segments := store.segments ++ [segment] }
    | .error _ => store

end Flush

/-! ## Reading -/

section Reads

variable {ν : Type} (codec : CellCodec ν)

def TileBuffer.getCellBytes (buffer : TileBuffer) (coord : Coord) : Option Bytes :=
  match codec.encodeCoord coord with
  | .ok key => buffer.entries[key]?
  | .error _ => none

def Memtable.iterTileVersions (memtable : Memtable) (hilbert : Nat) (systemAsOf : Int) :
    List (TileId × TileBuffer) :=
  (memtable.toList.filter fun tile =>
    tile.1.hilbertPrefix = hilbert ∧ tile.1.systemFromMs ≤ systemAsOf).reverse

/-- The same for a segment.  The footer is searched for the first tile of the
prefix, for the first one past it, and within these for the cutoff. -/
def Segment.iterTileVersions (segment : Segment ν) (hilbert : Nat) (systemAsOf : Int) :
    List (TileId × SparseTile ν) :=
  let ofPrefix :=
    (segment.dropWhile fun tile => tile.1.hilbertPrefix < hilbert).takeWhile fun tile =>
      tile.1.hilbertPrefix ≤ hilbert
  (ofPrefix.takeWhile fun tile => tile.1.systemFromMs ≤ systemAsOf).reverse

def segmentVersions (hilbert : Nat) (coord : Coord) (systemAsOf : Int) (segment : Segment ν) :
    Except ArrayError (List (TileId × Bytes)) := do
  let found ← (Segment.iterTileVersions segment hilbert systemAsOf).mapM fun tile => do
    let bytes ← extractCellBytes codec tile.2 coord
    return bytes.map fun bytes => (tile.1, bytes)
  return found.reduceOption

def cellVersionsForCoord (shuffle : Shuffle (Segment ν)) (store : ArrayStore ν) (hilbert : Nat)
    (coord : Coord) (systemAsOf : Int) : Except ArrayError (List (TileId × Bytes)) := do
  let versions := (store.memtable.iterTileVersions hilbert systemAsOf).filterMap fun tile =>
    (tile.2.getCellBytes codec coord).map fun bytes => (tile.1, bytes)
  let found ← (shuffle.order store.segments).mapM (segmentVersions codec hilbert coord systemAsOf)
  let segVersions := found.flatten.insertionSort fun one other =>
    other.1.systemFromMs ≤ one.1.systemFromMs
  return versions ++ segVersions

inductive CeilingResult (ν : Type) where
  | live (payload : CellPayload ν)
  | tombstoned
  | erased
  | notFound
  deriving DecidableEq, Repr

/-- Whether a payload answers for the valid-time point, if there is one. -/
def answersAt (validAtMs : Option Int) (payload : CellPayload ν) : Bool :=
  match validAtMs with
  | some point => payload.validFromMs ≤ point && point < payload.validUntilMs
  | none => true

def ceilingResolveCell (systemAsOf : Int) (validAtMs : Option Int) :
    List (TileId × Bytes) → Except ArrayError (CeilingResult ν)
  | [] => .ok .notFound
  | (tileId, bytes) :: older =>
    if tileId.systemFromMs > systemAsOf then ceilingResolveCell systemAsOf validAtMs older
    else if isCellTombstone bytes then .ok .tombstoned
    else if isCellGdprErasure bytes then .ok .erased
    else
      match CellPayload.decode codec bytes with
      | .ok payload =>
        if answersAt validAtMs payload then .ok (.live payload)
        else ceilingResolveCell systemAsOf validAtMs older
      | .error _ => .error (.segmentCorruption "ceiling_resolve_cell")

def ArrayStore.ceilingForCoord (schema : ArraySchema) (shuffle : Shuffle (Segment ν))
    (store : ArrayStore ν) (coord : Coord) (systemAsOf : Int) (validAtMs : Option Int) :
    Except ArrayError (CeilingResult ν) :=
  match schema.tilePrefix coord with
  | .ok hilbert => do
    let versions ← cellVersionsForCoord codec shuffle store hilbert coord systemAsOf
    ceilingResolveCell codec systemAsOf validAtMs versions
  | .error (.coordOutOfDomain _ _ _) => .ok .notFound
  | .error _ => .error (.segmentCorruption "ceiling_for_coord: tile id")

end Reads

end NodeDB.ArrayEngine
