import NodeDB.ByteFrame

/-!
# Cells of an array and the tiles that store them

A cell version is stored as bytes: an encoded payload, or one of two
sentinels.  A sparse tile holds the rows of one tile version in columns, with
a dictionary for each dimension and attribute columns for live rows only.

The message-pack encoding comes from another crate.  `CellCodec` states what
is used of it: decoding inverts encoding, and an encoded payload is no
sentinel.
-/

namespace NodeDB.ArrayEngine

open ByteFrame

abbrev Bytes := List UInt8

inductive ArrayError where
  | segmentCorruption (detail : String)
  | invalidOp (detail : String)
  | coordArityMismatch (array : String) (expected got : Nat)
  | coordOutOfDomain (array : String) (dim : String) (detail : String)
  | invalidSchema (array : String) (detail : String)
  | cellTypeMismatch (array : String) (attr : String) (detail : String)
  deriving DecidableEq, Repr

/-! ## Coordinates -/

/-- One scalar of a coordinate, a float by its bits. -/
inductive CoordValue where
  | int64 (value : Int)
  | float64 (bits : UInt64)
  | timestampMs (value : Int)
  | string (value : String)
  deriving DecidableEq, Repr

abbrev Coord := List CoordValue

def negativeZero : UInt64 := 0x8000000000000000

def isNan (bits : UInt64) : Bool :=
  0x7FF0000000000000 < (bits &&& 0x7FFFFFFFFFFFFFFF)

def isZero (bits : UInt64) : Bool :=
  bits == 0 || bits == negativeZero

def CoordValue.same : CoordValue → CoordValue → Bool
  | .float64 a, .float64 b => !isNan a && !isNan b && (a == b || isZero a && isZero b)
  | a, b => decide (a = b)

/-! ## Payloads and their bytes -/

structure CellPayload (ν : Type) where
  validFromMs : Int
  validUntilMs : Int
  attrs : List ν
  surrogate : Nat
  deriving DecidableEq, Repr

def cellTombstoneSentinel : Bytes := [0xFF]

def cellGdprErasureSentinel : Bytes := [0xFE]

def isCellTombstone (bytes : Bytes) : Bool :=
  bytes == cellTombstoneSentinel

def isCellGdprErasure (bytes : Bytes) : Bool :=
  bytes == cellGdprErasureSentinel

def isCellSentinel (bytes : Bytes) : Bool :=
  isCellTombstone bytes || isCellGdprErasure bytes

structure CellCodec (ν : Type) where
  encodeCoord : Coord → Except ArrayError Bytes
  decodeCoord : Bytes → Except ArrayError Coord
  decodeCoord_encodeCoord : ∀ {coord key},
    encodeCoord coord = .ok key → decodeCoord key = .ok coord
  packPayload : CellPayload ν → Except ArrayError Bytes
  unpackPayload : Bytes → Except ArrayError (CellPayload ν)
  unpackPayload_packPayload : ∀ {payload bytes},
    packPayload payload = .ok bytes → unpackPayload bytes = .ok payload
  packPayload_not_sentinel : ∀ {payload bytes},
    packPayload payload = .ok bytes → isCellSentinel bytes = false

section Payload

variable {ν : Type} (codec : CellCodec ν)

def CellPayload.checkBound (payload : CellPayload ν) : Except ArrayError Unit :=
  require (payload.surrogate ≠ 0)
    (.segmentCorruption "live cell payload carries Surrogate::ZERO, which names no row")

def CellPayload.encode (payload : CellPayload ν) : Except ArrayError Bytes := do
  let _ ← payload.checkBound
  codec.packPayload payload

def CellPayload.decode (bytes : Bytes) : Except ArrayError (CellPayload ν) := do
  let payload ← codec.unpackPayload bytes
  let _ ← payload.checkBound
  return payload

end Payload

/-! ## Sparse tiles -/

/-- What is used of a schema.  The tile prefix of a coordinate is computed from
the domain and a space-filling curve; it refuses a wrong arity and floats that
are not finite. -/
structure ArraySchema where
  name : String
  arity : Nat
  attrCount : Nat
  tilePrefix : Coord → Except ArrayError Nat
  length_of_tilePrefix : ∀ {coord hilbert}, tilePrefix coord = .ok hilbert → coord.length = arity
  finite_of_tilePrefix : ∀ {coord hilbert}, tilePrefix coord = .ok hilbert →
    ∀ bits, .float64 bits ∈ coord → isNan bits = false

inductive RowKind where
  | live
  | tombstone
  | gdprErased
  deriving DecidableEq, Repr

/-- Distinct values of one dimension, and for each row the index of its value. -/
structure DimDict where
  values : List CoordValue
  indices : List Nat

structure SparseTile (ν : Type) where
  dimDicts : List DimDict
  attrCols : List (List ν)
  surrogates : List (Option Nat)
  validFromMs : List Int
  validUntilMs : List Int
  rowKinds : List RowKind

structure SparseRow (ν : Type) where
  coord : Coord
  attrs : List ν
  surrogate : Option Nat
  validFromMs : Int
  validUntilMs : Int
  kind : RowKind

def openUpper : Int := 2 ^ 63 - 1

section Tile

variable {ν : Type}

def SparseRow.live (coord : Coord) (payload : CellPayload ν) : SparseRow ν where
  coord := coord
  attrs := payload.attrs
  surrogate := some payload.surrogate
  validFromMs := payload.validFromMs
  validUntilMs := payload.validUntilMs
  kind := .live

def SparseRow.sentinel (coord : Coord) (kind : RowKind) : SparseRow ν where
  coord := coord
  attrs := []
  surrogate := none
  validFromMs := 0
  validUntilMs := openUpper
  kind := kind

def SparseTile.empty (schema : ArraySchema) : SparseTile ν where
  dimDicts := List.replicate schema.arity { values := [], indices := [] }
  attrCols := List.replicate schema.attrCount []
  surrogates := []
  validFromMs := []
  validUntilMs := []
  rowKinds := []

/-- The builder's index of a dimension maps each value to its place in `values`. -/
def DimDict.push (dict : DimDict) (value : CoordValue) : DimDict :=
  match dict.values.idxOf? value with
  | some index => { dict with indices := dict.indices ++ [index] }
  | none =>
    { values := dict.values ++ [value]
      indices := dict.indices ++ [dict.values.length] }

def pushAttrs : List (List ν) → List ν → List (List ν)
  | cols, [] => cols
  | [], _ :: _ => []
  | col :: cols, attr :: attrs => (col ++ [attr]) :: pushAttrs cols attrs

def SparseRow.checkIdentity (schema : ArraySchema) (row : SparseRow ν) : Except ArrayError Unit :=
  match row.kind, row.surrogate with
  | _, some 0 =>
    .error (.invalidOp ("row pushed into array '" ++ schema.name ++
      "' carries Surrogate::ZERO, which names no row"))
  | .tombstone, some surrogate =>
    .error (.invalidOp ("Tombstone row pushed into array '" ++ schema.name ++
      "' carries surrogate sur:" ++ toString surrogate ++
      "; a tombstone or erasure row carries no identity"))
  | .gdprErased, some surrogate =>
    .error (.invalidOp ("GdprErased row pushed into array '" ++ schema.name ++
      "' carries surrogate sur:" ++ toString surrogate ++
      "; a tombstone or erasure row carries no identity"))
  | _, _ => .ok ()

def SparseTile.pushRow (schema : ArraySchema) (tile : SparseTile ν) (row : SparseRow ν) :
    Except ArrayError (SparseTile ν) := do
  let _ ← row.checkIdentity schema
  let _ ← require (row.coord.length = schema.arity)
    (.coordArityMismatch schema.name schema.arity row.coord.length)
  let _ ← require (row.kind = .live → row.attrs.length = schema.attrCount)
    (.cellTypeMismatch schema.name "<all>" ("expected " ++ toString schema.attrCount ++
      " attr columns, got " ++ toString row.attrs.length))
  return { dimDicts := List.zipWith DimDict.push tile.dimDicts row.coord
           attrCols := pushAttrs tile.attrCols row.attrs
           surrogates := tile.surrogates ++ [row.surrogate]
           validFromMs := tile.validFromMs ++ [row.validFromMs]
           validUntilMs := tile.validUntilMs ++ [row.validUntilMs]
           rowKinds := tile.rowKinds ++ [row.kind] }

def SparseTile.rowKind (tile : SparseTile ν) (row : Nat) : RowKind :=
  tile.rowKinds.getD row .live

def orCorrupt {α : Type} (value : Option α) (detail : String) : Except ArrayError α :=
  match value with
  | some value => .ok value
  | none => .error (.segmentCorruption detail)

def SparseTile.liveSurrogate (tile : SparseTile ν) (row : Nat) : Except ArrayError Nat := do
  let surrogate ← orCorrupt tile.surrogates[row]?
    ("tile row " ++ toString row ++ " is past the surrogate column (" ++
      toString tile.surrogates.length ++ " rows)")
  orCorrupt surrogate s!"live tile row {row} carries no surrogate"

/-- Whether the row's stored coordinate is the given one, from dimension `dim` on. -/
def SparseTile.matchesFrom (tile : SparseTile ν) (row : Nat) :
    Nat → Coord → Except ArrayError Bool
  | _, [] => .ok true
  | dim, value :: rest => do
    let dict ← orCorrupt tile.dimDicts[dim]? s!"extract_cell_bytes: dim {dim} out of range"
    let entryIdx ← orCorrupt dict.indices[row]?
      s!"extract_cell_bytes: row {row} index out of range"
    let stored ← orCorrupt dict.values[entryIdx]?
      s!"extract_cell_bytes: dict entry {entryIdx} out of range"
    if stored.same value then tile.matchesFrom row (dim + 1) rest else .ok false

def SparseTile.liveBefore (tile : SparseTile ν) (row : Nat) : Nat :=
  ((List.range row).filter fun earlier => tile.rowKind earlier = .live).length

variable (codec : CellCodec ν)

/-- The bytes of a row: a sentinel, or the payload put together and encoded again. -/
def SparseTile.rowBytes (tile : SparseTile ν) (row : Nat) : Except ArrayError Bytes :=
  match tile.rowKind row with
  | .tombstone => .ok cellTombstoneSentinel
  | .gdprErased => .ok cellGdprErasureSentinel
  | .live => do
    let liveRow := tile.liveBefore row
    let attrs ← tile.attrCols.mapM fun col => orCorrupt col[liveRow]?
      s!"extract_cell_bytes: attr col live row {liveRow} out of range"
    let surrogate ← tile.liveSurrogate row
    let validFromMs ← orCorrupt tile.validFromMs[row]?
      s!"extract_cell_bytes: valid_from_ms row {row} out of range"
    let validUntilMs ← orCorrupt tile.validUntilMs[row]?
      s!"extract_cell_bytes: valid_until_ms row {row} out of range"
    let payload : CellPayload ν :=
      { validFromMs := validFromMs
        validUntilMs := validUntilMs
        attrs := attrs
        surrogate := surrogate }
    payload.encode codec

def SparseTile.extractFrom (tile : SparseTile ν) (coord : Coord) :
    Nat → Nat → Except ArrayError (Option Bytes)
  | 0, _ => .ok none
  | left + 1, row => do
    let found ← tile.matchesFrom row 0 coord
    if found then
      let bytes ← tile.rowBytes codec row
      return some bytes
    else tile.extractFrom coord left (row + 1)

def extractCellBytes (tile : SparseTile ν) (coord : Coord) : Except ArrayError (Option Bytes) :=
  tile.extractFrom codec coord tile.surrogates.length 0

end Tile

end NodeDB.ArrayEngine
