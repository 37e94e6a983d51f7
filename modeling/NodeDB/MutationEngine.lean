import NodeDB.ColumnData
import NodeDB.KeyedFold
import NodeDB.StepRuns

/-!
# The columnar mutation engine

The engine of a collection owns the memtable, an index from encoded primary
keys to row locations, and a delete bitmap per segment.  A write appends a row
to the memtable, marks the row it replaces as deleted and rebinds the key.  A
flush drains the memtable into a segment and moves its index entries and its
bitmap there.
-/

namespace NodeDB.Columnar

open Std

/-! ## The primary-key index -/

structure RowLocation where
  segmentId : Nat
  rowIndex : Nat
  deriving DecidableEq, Repr

abbrev PkIndex := TreeMap Bytes RowLocation

/-- Rebinds every entry of a segment, one key after the other.  An entry without a new location
is dropped. -/
def PkIndex.remapSegment (index : PkIndex) (oldSegmentId : Nat)
    (remap : Nat → Option RowLocation) : PkIndex :=
  let keysToRemap := index.filter fun _ location => location.segmentId == oldSegmentId
  keysToRemap.toList.foldl
    (fun index entry => index.alter entry.1 fun _ => remap entry.2.rowIndex) index

def bigEndian64 (word : UInt64) : Bytes := (ByteFrame.littleEndian 8 word.toNat).reverse

/-- Flips the sign bit, so that the bytes sort as the integers do. -/
def sortable (value : Int64) : Bytes := bigEndian64 (value.toUInt64 ^^^ 0x8000000000000000)

def encodePk (runtime : Runtime) : Value → Bytes
  | .integer value => sortable value
  | .string text => utf8 text
  | .uuid text => utf8 text
  | .decimal serialized => serialized
  | .dateTime micros => sortable micros
  | .naiveDateTime micros => sortable micros
  | other => utf8 (runtime.debug other)

/-- The parts of a composite key, with a separator byte between them. -/
def encodeCompositePk (runtime : Runtime) (values : List Value) : Bytes :=
  List.intercalate [0xFF] (values.map (encodePk runtime))

/-- The key bytes of a row.  A single key column is encoded without separators. -/
def rowPk (runtime : Runtime) (pkColIndices : List Nat) (values : List Value) : Bytes :=
  let pkValues := pkColIndices.filterMap (values[·]?)
  match pkValues with
  | [value] => encodePk runtime value
  | _ => encodeCompositePk runtime pkValues

/-! ## Records for the write-ahead log -/

inductive ColumnarWalRecord where
  | insertRow (collection : String) (rowData : Bytes)
  | deleteRows (collection : String) (segmentId : Nat) (rowIndices : List Nat)
  | memtableFlushed (collection : String) (segmentId rowCount : Nat)
  deriving DecidableEq, Repr

def lengthPrefixed (bytes : Bytes) : Bytes :=
  ByteFrame.littleEndian 4 (bytes.length % 2 ^ 32) ++ bytes

def floatBits : List Value → Option (List UInt64)
  | [] => some []
  | .float bits :: rest => (floatBits rest).map (bits :: ·)
  | _ => none

def encodeAsJson (runtime : Runtime) (value : Value) : Except ColumnarError Bytes := do
  let json ← (runtime.toJson value).mapError fun error =>
    ColumnarError.serialization ("failed to serialize value as JSON: " ++ error)
  .ok (10 :: lengthPrefixed json)

def encodeForWal (runtime : Runtime) : Value → Except ColumnarError Bytes
  | .null => .ok [0]
  | .integer value => .ok (1 :: ByteFrame.littleEndian 8 value.toUInt64.toNat)
  | .float bits => .ok (2 :: ByteFrame.littleEndian 8 bits.toNat)
  | .bool value => .ok [3, if value then 1 else 0]
  | .string text => .ok (4 :: lengthPrefixed (utf8 text))
  | .bytes data => .ok (5 :: lengthPrefixed data)
  | .dateTime micros => .ok (6 :: ByteFrame.littleEndian 8 micros.toUInt64.toNat)
  | .decimal serialized => .ok (7 :: serialized)
  | .uuid text => .ok (8 :: lengthPrefixed (utf8 text))
  | .array items =>
    match floatBits items with
    | some floats => .ok (9 :: ByteFrame.littleEndian 4 (floats.length % 2 ^ 32) ++
        floats.flatMap fun bits => ByteFrame.littleEndian 8 bits.toNat)
    | none => encodeAsJson runtime (.array items)
  | other => encodeAsJson runtime other

def encodeRowForWal (runtime : Runtime) : List Value → Except ColumnarError Bytes
  | [] => .ok []
  | value :: rest => do
    let bytes ← encodeForWal runtime value
    let encoded ← encodeRowForWal runtime rest
    .ok (bytes ++ encoded)

/-! ## The memtable -/

structure ColumnarMemtable where
  schema : ColumnarSchema
  columns : List ColumnData
  rowCount : Nat

def emptyColumns (schema : ColumnarSchema) : List ColumnData :=
  schema.columns.map fun column => .new column.columnType column.nullable

def ColumnarMemtable.new (schema : ColumnarSchema) : ColumnarMemtable :=
  { schema := schema, columns := emptyColumns schema, rowCount := 0 }

def Value.isNull : Value → Bool
  | .null => true
  | _ => false

/-- Pushes a value to each column in turn, up to the first that is refused. -/
def pushRow (runtime : Runtime) :
    List ColumnDef → List Value → List ColumnData → List ColumnData × Option ColumnarError
  | column :: schema, value :: values, data :: rest =>
    if value.isNull && !column.nullable then
      (data :: rest, some (.nullViolation column.name))
    else
      match data.push runtime value column.name column.columnType with
      | .error error => (data :: rest, some error)
      | .ok pushed =>
        let (others, failed) := pushRow runtime schema values rest
        (pushed :: others, failed)
  | _, _, columns => (columns, none)

/-- Appends a row, or cuts every column back to the rows held before. -/
def ColumnarMemtable.appendRow (runtime : Runtime) (self : ColumnarMemtable)
    (values : List Value) : ColumnarMemtable × Except ColumnarError Unit :=
  if values.length ≠ self.schema.columns.length then
    (self, .error (.schemaMismatch self.schema.columns.length values.length))
  else
    match pushRow runtime self.schema.columns values self.columns with
    | (columns, some error) =>
      ({ self with columns := columns.map (·.truncate self.rowCount) }, .error error)
    | (columns, none) =>
      ({ self with columns := columns, rowCount := self.rowCount + 1 }, .ok ())

def ColumnarMemtable.truncateTo (self : ColumnarMemtable) (n : Nat) : ColumnarMemtable :=
  if self.rowCount ≤ n then
    self
  else
    { self with columns := self.columns.map (·.truncate n), rowCount := n }

/-- The drained columns and their row count, and the emptied memtable. -/
def ColumnarMemtable.drain (self : ColumnarMemtable) :
    (List ColumnData × Nat) × ColumnarMemtable :=
  ((self.columns, self.rowCount),
    { self with columns := emptyColumns self.schema, rowCount := 0 })

/-! ## The engine -/

abbrev DeleteBitmap := TreeSet Nat

structure MutationEngine where
  collection : String
  schema : ColumnarSchema
  memtable : ColumnarMemtable
  pkIndex : PkIndex
  deleteBitmaps : TreeMap Nat DeleteBitmap
  pkColIndices : List Nat
  nextSegmentId : Nat
  memtableSegmentId : Nat
  memtableRowCounter : Nat
  memtableSurrogates : List (Option Nat)

abbrev MutationResult := List ColumnarWalRecord

def primaryKeyIndices (schema : ColumnarSchema) : List Nat :=
  (schema.columns.zipIdx.filter fun column => column.1.primaryKey).map (·.2)

def MutationEngine.new (collection : String) (schema : ColumnarSchema) : MutationEngine :=
  { collection := collection
    schema := schema
    memtable := .new schema
    pkIndex := ∅
    deleteBitmaps := ∅
    pkColIndices := primaryKeyIndices schema
    nextSegmentId := 1
    memtableSegmentId := 0
    memtableRowCounter := 0
    memtableSurrogates := [] }

namespace MutationEngine

def isDeleted (self : MutationEngine) (location : RowLocation) : Bool :=
  match self.deleteBitmaps[location.segmentId]? with
  | some bitmap => location.rowIndex ∈ bitmap
  | none => false

def markDeleted (self : MutationEngine) (location : RowLocation) : MutationEngine :=
  let bitmap := (self.deleteBitmaps[location.segmentId]?).getD ∅
  { self with
    deleteBitmaps :=
      self.deleteBitmaps.insert location.segmentId (bitmap.insert location.rowIndex) }

def unmarkDeleted (self : MutationEngine) (location : RowLocation) : MutationEngine :=
  match self.deleteBitmaps[location.segmentId]? with
  | some bitmap =>
    { self with
      deleteBitmaps :=
        self.deleteBitmaps.insert location.segmentId (bitmap.erase location.rowIndex) }
  | none => self

section Writes

variable (runtime : Runtime)

def extractPkBytes (self : MutationEngine) (values : List Value) : Except ColumnarError Bytes :=
  if values.length ≠ self.schema.columns.length then
    .error (.schemaMismatch self.schema.columns.length values.length)
  else
    .ok (rowPk runtime self.pkColIndices values)

def commitRow (self : MutationEngine) (values : List Value) (pkBytes : Bytes)
    (surrogate : Option Nat) (replaced : List RowLocation) :
    MutationEngine × Except ColumnarError MutationResult :=
  match encodeRowForWal runtime values with
  | .error error => (self, .error error)
  | .ok rowData =>
    match self.memtable.appendRow runtime values with
    | (memtable, .error error) => ({ self with memtable := memtable }, .error error)
    | (memtable, .ok _) =>
      let marked := replaced.foldl markDeleted { self with memtable := memtable }
      let location : RowLocation :=
        { segmentId := self.memtableSegmentId, rowIndex := self.memtableRowCounter }
      ({ marked with
         pkIndex := marked.pkIndex.insert pkBytes location
         memtableSurrogates := marked.memtableSurrogates ++ [surrogate]
         memtableRowCounter := (marked.memtableRowCounter + 1) % 2 ^ 32 },
       .ok ((replaced.map fun prior =>
           .deleteRows self.collection prior.segmentId [prior.rowIndex]) ++
         [.insertRow self.collection rowData]))

def upsertRow (self : MutationEngine) (values : List Value) (surrogate : Option Nat) :
    MutationEngine × Except ColumnarError MutationResult :=
  match self.extractPkBytes runtime values with
  | .error error => (self, .error error)
  | .ok pkBytes =>
    let prior := if self.schema.isBitemporal then none else self.pkIndex[pkBytes]?
    self.commitRow runtime values pkBytes surrogate prior.toList

def insert (self : MutationEngine) (values : List Value) :
    MutationEngine × Except ColumnarError MutationResult :=
  self.upsertRow runtime values none

def insertWithSurrogate (self : MutationEngine) (values : List Value) (surrogate : Nat) :
    MutationEngine × Except ColumnarError MutationResult :=
  self.upsertRow runtime values (some surrogate)

def insertIfAbsent (self : MutationEngine) (values : List Value) :
    MutationEngine × Except ColumnarError MutationResult :=
  match self.extractPkBytes runtime values with
  | .error error => (self, .error error)
  | .ok pkBytes =>
    if self.pkIndex.contains pkBytes then
      (self, .ok [])
    else
      self.commitRow runtime values pkBytes none []

def delete (self : MutationEngine) (pkValue : Value) :
    MutationEngine × Except ColumnarError MutationResult :=
  let pkBytes := encodePk runtime pkValue
  match self.pkIndex[pkBytes]? with
  | none => (self, .error .primaryKeyNotFound)
  | some location =>
    let marked := self.markDeleted location
    ({ marked with pkIndex := marked.pkIndex.erase pkBytes },
     .ok [.deleteRows self.collection location.segmentId [location.rowIndex]])

/-- The old row is always replaced.  A row already bound to a new key is replaced with it. -/
def update (self : MutationEngine) (oldPk : Value) (newValues : List Value)
    (flushedSurrogate : Option Nat) : MutationEngine × Except ColumnarError MutationResult :=
  let oldPkBytes := encodePk runtime oldPk
  match self.pkIndex[oldPkBytes]? with
  | none => (self, .error .primaryKeyNotFound)
  | some oldLocation =>
    let surrogate :=
      if oldLocation.segmentId = self.memtableSegmentId then
        (self.memtableSurrogates[oldLocation.rowIndex]?).join
      else
        flushedSurrogate
    match self.extractPkBytes runtime newValues with
    | .error error => (self, .error error)
    | .ok newPkBytes =>
      let pkChanged := newPkBytes ≠ oldPkBytes
      let prior :=
        if pkChanged ∧ ¬self.schema.isBitemporal then self.pkIndex[newPkBytes]? else none
      match self.commitRow runtime newValues newPkBytes surrogate
          (oldLocation :: prior.toList) with
      | (written, .error error) => (written, .error error)
      | (written, .ok walRecords) =>
        (if pkChanged then
          { written with pkIndex := written.pkIndex.erase oldPkBytes }
        else
          written, .ok walRecords)

/-! ## Batches -/

structure BatchRow where
  values : List Value
  surrogate : Option Nat

inductive BatchConflict where
  | upsert
  | skip
  deriving DecidableEq, Repr

/-- The binding of a key before the batch first wrote it. -/
structure PriorBinding where
  location : Option RowLocation
  tombstoned : Bool
  deriving DecidableEq

abbrev Priors := TreeMap Bytes PriorBinding

/-- The order in which a hash map yields its entries. -/
structure MapOrder where
  order : List (Bytes × PriorBinding) → List (Bytes × PriorBinding)
  perm : ∀ entries, (order entries).Perm entries

def insertBatchRow (self : MutationEngine) (row : BatchRow) (conflict : BatchConflict)
    (priors : Priors) : MutationEngine × Priors × Except ColumnarError MutationResult :=
  match self.extractPkBytes runtime row.values with
  | .error error => (self, priors, .error error)
  | .ok pkBytes =>
    let prior := self.pkIndex[pkBytes]?
    if conflict = .skip ∧ prior.isSome then
      (self, priors, .ok [])
    else
      let replaced := if self.schema.isBitemporal then none else prior
      match self.commitRow runtime row.values pkBytes row.surrogate replaced.toList with
      | (written, .error error) => (written, priors, .error error)
      | (written, .ok walRecords) =>
        (written,
         priors.insertIfNew pkBytes { location := prior, tombstoned := replaced.isSome },
         .ok walRecords)

/-- Cuts the memtable back.  Tombstones of the rows cut go with them. -/
def cutMemtableTo (self : MutationEngine) (rowCount : Nat) : MutationEngine :=
  { self with
    deleteBitmaps := match self.deleteBitmaps[self.memtableSegmentId]? with
      | some bitmap =>
        self.deleteBitmaps.insert self.memtableSegmentId (bitmap.filter (· < rowCount))
      | none => self.deleteBitmaps
    memtable := self.memtable.truncateTo rowCount
    memtableSurrogates := self.memtableSurrogates.take rowCount
    memtableRowCounter := rowCount % 2 ^ 32 }

/-- Binds a key as the batch found it.  A row the batch marked is live again. -/
def restoreBinding (self : MutationEngine) (entry : Bytes × PriorBinding) : MutationEngine :=
  let unmarked := match entry.2.location with
    | some location => if entry.2.tombstoned then self.unmarkDeleted location else self
    | none => self
  { unmarked with pkIndex := unmarked.pkIndex.alter entry.1 fun _ => entry.2.location }

def undoBatch (self : MutationEngine) (start : Nat) (entries : List (Bytes × PriorBinding)) :
    MutationEngine :=
  (entries.foldl restoreBinding self).cutMemtableTo start

/-- The rows in turn.  The first refused row undoes those before it. -/
def insertBatchFrom (start : Nat) (conflict : BatchConflict) (iterate : MapOrder) :
    MutationEngine → Priors → List BatchRow →
      MutationEngine × Except ColumnarError (List MutationResult)
  | self, _, [] => (self, .ok [])
  | self, priors, row :: rest =>
    match self.insertBatchRow runtime row conflict priors with
    | (written, priors, .error error) =>
      (written.undoBatch start (iterate.order priors.toList), .error error)
    | (written, priors, .ok result) =>
      match insertBatchFrom start conflict iterate written priors rest with
      | (written, .ok results) => (written, .ok (result :: results))
      | (written, .error error) => (written, .error error)

def insertBatch (self : MutationEngine) (rows : List BatchRow) (conflict : BatchConflict)
    (iterate : MapOrder) : MutationEngine × Except ColumnarError (List MutationResult) :=
  insertBatchFrom runtime self.memtable.rowCount conflict iterate self ∅ rows

end Writes

/-! ## Flushes -/

/-- Rebinds the rows of the memtable to the new segment.  The bindings are moved before the
segment counter is checked. -/
def onMemtableFlushed (self : MutationEngine) (newSegmentId : Nat) :
    MutationEngine × Except ColumnarError MutationResult :=
  let moved : MutationEngine :=
    { self with
      pkIndex := self.pkIndex.remapSegment self.memtableSegmentId fun oldRow =>
        some { segmentId := newSegmentId, rowIndex := oldRow }
      deleteBitmaps := match self.deleteBitmaps[self.memtableSegmentId]? with
        | some bitmap =>
          (self.deleteBitmaps.erase self.memtableSegmentId).insert newSegmentId bitmap
        | none => self.deleteBitmaps }
  if self.nextSegmentId + 1 < 2 ^ 64 then
    ({ moved with
       nextSegmentId := self.nextSegmentId + 1
       memtableRowCounter := 0
       memtableSurrogates := [] },
     .ok [.memtableFlushed self.collection newSegmentId self.memtableRowCounter])
  else
    (moved, .error .segmentIdExhausted)

end MutationEngine

/-! ## The engine with its flushed segments -/

structure Segment where
  columns : List ColumnData
  rowCount : Nat

structure Store where
  engine : MutationEngine
  segments : TreeMap Nat Segment

def Store.new (collection : String) (schema : ColumnarSchema) : Store :=
  { engine := .new collection schema, segments := ∅ }

/-- Drains the memtable into the segment that the engine numbers next. -/
def Store.flush (self : Store) : Store :=
  let segmentId := self.engine.nextSegmentId
  let ((columns, rowCount), memtable) := self.engine.memtable.drain
  { engine := ({ self.engine with memtable := memtable }.onMemtableFlushed segmentId).1
    segments := self.segments.insert segmentId { columns := columns, rowCount := rowCount } }

inductive Step where
  | insert (values : List Value)
  | insertWithSurrogate (values : List Value) (surrogate : Nat)
  | insertIfAbsent (values : List Value)
  | insertBatch (rows : List MutationEngine.BatchRow) (conflict : MutationEngine.BatchConflict)
      (iterate : MutationEngine.MapOrder)
  | delete (pkValue : Value)
  | update (oldPk : Value) (newValues : List Value) (flushedSurrogate : Option Nat)
  | flush

def Store.perform (runtime : Runtime) (self : Store) : Step → Store
  | .insert values => { self with engine := (self.engine.insert runtime values).1 }
  | .insertWithSurrogate values surrogate =>
    { self with engine := (self.engine.insertWithSurrogate runtime values surrogate).1 }
  | .insertIfAbsent values => { self with engine := (self.engine.insertIfAbsent runtime values).1 }
  | .insertBatch rows conflict iterate =>
    { self with engine := (self.engine.insertBatch runtime rows conflict iterate).1 }
  | .delete pkValue => { self with engine := (self.engine.delete runtime pkValue).1 }
  | .update oldPk newValues flushedSurrogate =>
    { self with engine := (self.engine.update runtime oldPk newValues flushedSurrogate).1 }
  | .flush => self.flush

def Store.run (runtime : Runtime) (self : Store) (steps : List Step) : Store :=
  steps.foldl (Store.perform runtime) self

def Store.segmentAt (self : Store) (segmentId : Nat) : Option (List ColumnData × Nat) :=
  if segmentId = self.engine.memtableSegmentId then
    some (self.engine.memtable.columns, self.engine.memtable.rowCount)
  else
    (self.segments[segmentId]?).map fun segment => (segment.columns, segment.rowCount)

def Store.Holds (self : Store) (location : RowLocation) : Prop :=
  ∃ columns rowCount, self.segmentAt location.segmentId = some (columns, rowCount) ∧
    location.rowIndex < rowCount

def Store.Live (self : Store) (location : RowLocation) : Prop :=
  self.Holds location ∧ self.engine.isDeleted location = false

def Store.Reads (runtime : Runtime) (self : Store) (location : RowLocation) (index : Nat)
    (value : Value) : Prop :=
  ∃ columns rowCount data column,
    self.segmentAt location.segmentId = some (columns, rowCount) ∧
    columns[index]? = some data ∧ self.engine.schema.columns[index]? = some column ∧
    data.getValue runtime location.rowIndex column.columnType column.name = some (.ok value)

end NodeDB.Columnar
