import NodeDB.ByteFrame

/-!
# Values and the columns that store them

A column of a memtable keeps its cells in vectors of one physical type, with
an optional validity bit per row.  `push` turns a value into the cell its
column stores, and `getValue` turns the cell back into a value of the declared
type.

Identifier texts, JSON, MessagePack and conversions between number types come
from other crates.  `Runtime` holds the functions that are used of them.
-/

namespace NodeDB.Columnar

abbrev Bytes := List UInt8

/-! ## Values and schemas -/

/-- A float is kept by its bits, a decimal by the 16 bytes of `serialize`.  A geometry is named
by a number, for which `Runtime.geometryJson` gives the text. -/
inductive Value where
  | null
  | bool (value : Bool)
  | integer (value : Int64)
  | float (bits : UInt64)
  | string (text : String)
  | bytes (data : Bytes)
  | array (items : List Value)
  | object (fields : List (String × Value))
  | uuid (text : String)
  | ulid (text : String)
  | dateTime (micros : Int64)
  | naiveDateTime (micros : Int64)
  | duration (micros : Int64)
  | decimal (serialized : Bytes)
  | geometry (shape : Nat)
  | set (items : List Value)
  | regex (pattern : String)
  | range (start stop : Option Value) (inclusive : Bool)
  | record (table id : String)
  | arrayCell (coords attrs : List Value)
  | vector (floats : List UInt32)
  deriving Repr, Inhabited

inductive ColumnType where
  | int64 | float64 | string | bool | bytes
  | timestamp | timestamptz | systemTimestamp
  | decimal | geometry
  | vector (dim : Nat)
  | sparseVector | uuid | json | ulid | duration
  | array | set | regex | range | record
  deriving DecidableEq, Repr

/-- The text of a type in an error.  Only identifier columns name their type there. -/
def ColumnType.display : ColumnType → String
  | .ulid => "ULID"
  | _ => "UUID"

/-- An instant column types a stored time cell; any other column reads the integer. -/
def ColumnType.timeCell (declared : ColumnType) (micros : Int64) : Value :=
  match declared with
  | .timestamp => .naiveDateTime micros
  | .timestamptz => .dateTime micros
  | _ => .integer micros

structure ColumnDef where
  name : String
  columnType : ColumnType
  nullable : Bool
  primaryKey : Bool
  deriving DecidableEq, Repr

structure ColumnarSchema where
  columns : List ColumnDef
  deriving DecidableEq, Repr

def ColumnarSchema.isBitemporal (schema : ColumnarSchema) : Bool :=
  schema.columns.any fun column => column.name == "_ts_system"

inductive ColumnarError where
  | schemaMismatch (expected got : Nat)
  | serialization (detail : String)
  | typeMismatch (column expected : String)
  | jsonParse (column source : String)
  | rangeParse (column literal : String)
  | msgpackSerialize (column source : String)
  | msgpackDeserialize (column source : String)
  | nullViolation (column : String)
  | primaryKeyNotFound
  | segmentIdExhausted
  | memtableCellCorrupt (column : String) (row : Nat) (reason : String)
  deriving DecidableEq, Repr

/-! ## What comes from other crates -/

structure Runtime where
  parseUuid : String → Option Bytes
  uuidText : Bytes → String
  parseUlid : String → Option Bytes
  ulidText : Bytes → String
  parseJson : String → Except String Value
  toJson : Value → Except String Bytes
  geometryJson : Nat → Option Bytes
  toMsgpack : Value → Except String Bytes
  fromMsgpack : Bytes → Except String Value
  debug : Value → String
  trim : String → String
  f64OfI64 : Int64 → UInt64
  f32OfF64 : UInt64 → UInt32
  f32OfI64 : Int64 → UInt32
  f64OfF32 : UInt32 → UInt64
  utf8Error : Bytes → String

def utf8 (text : String) : Bytes := text.toUTF8.data.toList

def fromUtf8 (bytes : Bytes) : Option String := String.fromUTF8? ⟨bytes.toArray⟩

/-! ## Cell layouts -/

structure Dense (α : Type) where
  values : List α
  valid : Option (List Bool)
  deriving DecidableEq, Repr

/-- Concatenated bytes with an end offset per row.  Offsets are `u32`. -/
structure Packed where
  data : Bytes
  offsets : List UInt32
  valid : Option (List Bool)
  deriving DecidableEq, Repr

structure Strided where
  data : List UInt32
  dim : Nat
  valid : Option (List Bool)
  deriving DecidableEq, Repr

def pushValid (valid : Option (List Bool)) (isValid : Bool) : Option (List Bool) :=
  valid.map (· ++ [isValid])

def truncateValid (valid : Option (List Bool)) (n : Nat) : Option (List Bool) :=
  valid.map (List.take n)

/-- Whether a row is null.  Here and below, `none` stands for an index out of bounds, which
panics. -/
def isNull (valid : Option (List Bool)) (row : Nat) : Option Bool :=
  match valid with
  | none => some false
  | some bits => bits[row]?.map (!·)

section Layouts

variable {α : Type}

def Dense.empty (nullable : Bool) : Dense α :=
  { values := [], valid := if nullable then some [] else none }

def Dense.push (column : Dense α) (value : α) (isValid : Bool) : Dense α :=
  { values := column.values ++ [value], valid := pushValid column.valid isValid }

def Dense.truncate (column : Dense α) (n : Nat) : Dense α :=
  { values := column.values.take n, valid := truncateValid column.valid n }

def Dense.cell (column : Dense α) (row : Nat) : Option (Option α) := do
  if ← isNull column.valid row then
    some none
  else
    column.values[row]?.map some

def Packed.empty (nullable : Bool) : Packed :=
  { data := [], offsets := [0], valid := if nullable then some [] else none }

def Packed.push (column : Packed) (bytes : Bytes) : Packed :=
  { data := column.data ++ bytes
    offsets := column.offsets ++ [UInt32.ofNat (column.data ++ bytes).length]
    valid := pushValid column.valid true }

def Packed.pushNull (column : Packed) : Packed :=
  { data := column.data
    offsets := column.offsets ++ [column.offsets.getLast?.getD 0]
    valid := pushValid column.valid false }

def Packed.truncate (column : Packed) (n : Nat) : Packed :=
  if n < column.offsets.length - 1 then
    { data := column.data.take ((column.offsets[n]?.getD 0).toNat)
      offsets := column.offsets.take (n + 1)
      valid := truncateValid column.valid n }
  else
    { column with valid := truncateValid column.valid n }

def sliceOf (data : List α) (start stop : Nat) : Option (List α) :=
  if start ≤ stop ∧ stop ≤ data.length then
    some ((data.drop start).take (stop - start))
  else
    none

def Packed.cell (column : Packed) (row : Nat) : Option (Option Bytes) := do
  if ← isNull column.valid row then
    some none
  else
    let start ← column.offsets[row]?
    let stop ← column.offsets[row + 1]?
    (sliceOf column.data start.toNat stop.toNat).map some

def Strided.empty (dim : Nat) (nullable : Bool) : Strided :=
  { data := [], dim := dim, valid := if nullable then some [] else none }

def Strided.push (column : Strided) (floats : List UInt32) (isValid : Bool) : Strided :=
  { column with
    data := column.data ++ floats
    valid := pushValid column.valid isValid }

def Strided.truncate (column : Strided) (n : Nat) : Strided :=
  { column with
    data := if 0 < column.dim then column.data.take (n * column.dim) else column.data
    valid := truncateValid column.valid n }

def Strided.cell (column : Strided) (row : Nat) : Option (Option (List UInt32)) := do
  if ← isNull column.valid row then
    some none
  else
    (sliceOf column.data (row * column.dim) (row * column.dim + column.dim)).map some

end Layouts

/-! ## Columns -/

inductive ColumnData where
  | int64 (column : Dense Int64)
  | float64 (column : Dense UInt64)
  | bool (column : Dense Bool)
  | timestamp (column : Dense Int64)
  | decimal (column : Dense Bytes)
  | uuid (column : Dense Bytes)
  | string (column : Packed)
  | bytes (column : Packed)
  | json (column : Packed)
  | geometry (column : Packed)
  | vector (column : Strided)
  | dictEncoded (ids : Dense UInt32) (dictionary : List String)
      (reverse : Std.HashMap String UInt32)

/-- The empty column of a type.  The validity bits are kept only where nulls are allowed. -/
def ColumnData.new (columnType : ColumnType) (nullable : Bool) : ColumnData :=
  match columnType with
  | .int64 => .int64 (.empty nullable)
  | .float64 => .float64 (.empty nullable)
  | .bool => .bool (.empty nullable)
  | .timestamp | .timestamptz | .systemTimestamp | .duration => .timestamp (.empty nullable)
  | .decimal => .decimal (.empty nullable)
  | .uuid | .ulid => .uuid (.empty nullable)
  | .string | .regex | .sparseVector => .string (.empty nullable)
  | .bytes | .array | .set | .range | .record => .bytes (.empty nullable)
  | .json => .json (.empty nullable)
  | .geometry => .geometry (.empty nullable)
  | .vector dim => .vector (.empty dim nullable)

def ColumnData.typeName : ColumnData → String
  | .int64 _ => "Int64"
  | .float64 _ => "Float64"
  | .bool _ => "Bool"
  | .timestamp _ => "Timestamp"
  | .decimal _ => "Decimal"
  | .uuid _ => "Uuid"
  | .string _ => "String"
  | .bytes _ => "Bytes"
  | .json _ => "Json"
  | .geometry _ => "Geometry"
  | .vector _ => "Vector"
  | .dictEncoded .. => "DictEncoded"

section Push

variable (runtime : Runtime)

/-- A ULID column parses ULID text, any other identifier column UUID text. -/
def parseIdBytes (text name : String) (columnType : ColumnType) : Except ColumnarError Bytes :=
  let parsed := match columnType with
    | .ulid => runtime.parseUlid text
    | _ => runtime.parseUuid text
  match parsed with
  | some bytes => .ok bytes
  | none => .error (.typeMismatch name columnType.display)

def encodeAsMsgpack (value : Value) (name : String) : Except ColumnarError Bytes := do
  let toEncode ← match value with
    | .string text => (runtime.parseJson text).mapError (.jsonParse name)
    | other => .ok other
  (runtime.toMsgpack toEncode).mapError (.msgpackSerialize name)

def splitComma (text : List Char) : Option (List Char × List Char) :=
  match text.span (· ≠ ',') with
  | (lower, _ :: upper) => some (lower, upper)
  | (_, []) => none

/-- `[lo,hi)` and its three other forms, as a record of the two bound texts. -/
def parseRangeLiteral (text name : String) : Except ColumnarError Bytes := do
  let literal := runtime.trim text
  let refused : ColumnarError := .rangeParse name literal
  let (lowerInclusive, rest) ← match literal.toList with
    | '[' :: rest => .ok (true, rest)
    | '(' :: rest => .ok (false, rest)
    | _ => .error refused
  let (upperInclusive, body) ← match rest.getLast? with
    | some ']' => .ok (true, rest.dropLast)
    | some ')' => .ok (false, rest.dropLast)
    | _ => .error refused
  let (lower, upper) ← match splitComma body with
    | some bounds => .ok bounds
    | none => .error refused
  let structured : Value := .object
    [("lower", .string (runtime.trim (String.ofList lower))),
     ("upper", .string (runtime.trim (String.ofList upper))),
     ("lower_inclusive", .bool lowerInclusive),
     ("upper_inclusive", .bool upperInclusive)]
  (runtime.toMsgpack structured).mapError (.msgpackSerialize name)

def encodeLiteral (text name : String) (columnType : ColumnType) : Except ColumnarError Bytes :=
  match columnType with
  | .range => parseRangeLiteral runtime text name
  | _ => encodeAsMsgpack runtime (.string text) name

def vectorFloats (dim : Nat) (items : List Value) : List UInt32 :=
  let floats := (items.take dim).map fun
    | .float bits => runtime.f32OfF64 bits
    | .integer value => runtime.f32OfI64 value
    | _ => 0
  floats ++ List.replicate (dim - items.length) 0

def wordsOf : Bytes → List UInt32
  | a :: b :: c :: d :: rest => UInt32.ofNat (ByteFrame.ofLittleEndian [a, b, c, d]) :: wordsOf rest
  | _ => []

/-- The dictionary identifier of a text, added to the dictionary when it is new. -/
def internText (dictionary : List String) (reverse : Std.HashMap String UInt32) (text : String) :
    UInt32 × List String × Std.HashMap String UInt32 :=
  match reverse[text]? with
  | some existing => (existing, dictionary, reverse)
  | none =>
    let fresh := UInt32.ofNat dictionary.length
    (fresh, dictionary ++ [text], reverse.insert text fresh)

def ColumnData.push (self : ColumnData) (value : Value) (name : String)
    (columnType : ColumnType) : Except ColumnarError ColumnData :=
  match self, value with
  | .int64 column, .null => .ok (.int64 (column.push 0 false))
  | .float64 column, .null => .ok (.float64 (column.push 0 false))
  | .bool column, .null => .ok (.bool (column.push false false))
  | .timestamp column, .null => .ok (.timestamp (column.push 0 false))
  | .decimal column, .null => .ok (.decimal (column.push (List.replicate 16 0) false))
  | .uuid column, .null => .ok (.uuid (column.push (List.replicate 16 0) false))
  | .string column, .null => .ok (.string column.pushNull)
  | .bytes column, .null => .ok (.bytes column.pushNull)
  | .geometry column, .null => .ok (.geometry column.pushNull)
  | .vector column, .null =>
    .ok (.vector (column.push (List.replicate column.dim 0) false))
  | .int64 column, .integer v => .ok (.int64 (column.push v true))
  | .float64 column, .float bits => .ok (.float64 (column.push bits true))
  | .float64 column, .integer v => .ok (.float64 (column.push (runtime.f64OfI64 v) true))
  | .bool column, .bool v => .ok (.bool (column.push v true))
  | .timestamp column, .dateTime micros => .ok (.timestamp (column.push micros true))
  | .timestamp column, .naiveDateTime micros => .ok (.timestamp (column.push micros true))
  | .timestamp column, .integer micros => .ok (.timestamp (column.push micros true))
  | .decimal column, .decimal serialized => .ok (.decimal (column.push serialized true))
  | .uuid column, .uuid text | .uuid column, .ulid text | .uuid column, .string text => do
    let id ← parseIdBytes runtime text name columnType
    .ok (.uuid (column.push id true))
  | .timestamp column, .duration micros => .ok (.timestamp (column.push micros true))
  | .string column, .string text | .string column, .uuid text
  | .string column, .ulid text | .string column, .regex text =>
    .ok (.string (column.push (utf8 text)))
  | .bytes column, .bytes data => .ok (.bytes (column.push data))
  | .bytes column, .string text => do
    let encoded ← encodeLiteral runtime text name columnType
    .ok (.bytes (column.push encoded))
  | .bytes column, .object fields => do
    let encoded ← encodeAsMsgpack runtime (.object fields) name
    .ok (.bytes (column.push encoded))
  | .bytes column, .array items => do
    let encoded ← encodeAsMsgpack runtime (.array items) name
    .ok (.bytes (column.push encoded))
  | .json column, .null => .ok (.json column.pushNull)
  | .json column, .bytes data => do
    -- bytes are stored as they are, once they are known to decode
    let _ ← (runtime.fromMsgpack data).mapError (ColumnarError.msgpackDeserialize name)
    .ok (.json (column.push data))
  | .json column, other => do
    let encoded ← encodeAsMsgpack runtime other name
    .ok (.json (column.push encoded))
  | .geometry column, .geometry shape =>
    -- a geometry that cannot be serialised leaves an empty cell
    .ok (.geometry (column.push ((runtime.geometryJson shape).getD [])))
  | .geometry column, .string text => .ok (.geometry (column.push (utf8 text)))
  | .vector column, .array items =>
    .ok (.vector (column.push (vectorFloats runtime column.dim items) true))
  | .vector column, .bytes data =>
    if data.length = column.dim * 4 then
      .ok (.vector (column.push (wordsOf data) true))
    else
      .error (.typeMismatch name "Vector")
  | .dictEncoded ids dictionary reverse, .null =>
    .ok (.dictEncoded (ids.push 0 false) dictionary reverse)
  | .dictEncoded ids dictionary reverse, .string text
  | .dictEncoded ids dictionary reverse, .uuid text
  | .dictEncoded ids dictionary reverse, .ulid text
  | .dictEncoded ids dictionary reverse, .regex text =>
    let (id, dictionary, reverse) := internText dictionary reverse text
    .ok (.dictEncoded (ids.push id true) dictionary reverse)
  | other, _ => .error (.typeMismatch name other.typeName)

end Push

def ColumnData.truncate (self : ColumnData) (n : Nat) : ColumnData :=
  match self with
  | .int64 column => .int64 (column.truncate n)
  | .float64 column => .float64 (column.truncate n)
  | .bool column => .bool (column.truncate n)
  | .timestamp column => .timestamp (column.truncate n)
  | .decimal column => .decimal (column.truncate n)
  | .uuid column => .uuid (column.truncate n)
  | .string column => .string (column.truncate n)
  | .bytes column => .bytes (column.truncate n)
  | .json column => .json (column.truncate n)
  | .geometry column => .geometry (column.truncate n)
  | .vector column => .vector (column.truncate n)
  | .dictEncoded ids dictionary reverse => .dictEncoded (ids.truncate n) dictionary reverse

def typed {α : Type} (cell : Option (Option α)) (typing : α → Except ColumnarError Value) :
    Option (Except ColumnarError Value) :=
  cell.map fun content => content.elim (.ok .null) typing

def utf8Cell (runtime : Runtime) (name : String) (row : Nat) (bytes : Bytes) :
    Except ColumnarError Value :=
  match fromUtf8 bytes with
  | some text => .ok (.string text)
  | none => .error (.memtableCellCorrupt name row
      ("text cell is not UTF-8: " ++ runtime.utf8Error bytes))

def ColumnData.getValue (runtime : Runtime) (self : ColumnData) (row : Nat)
    (declared : ColumnType) (name : String) : Option (Except ColumnarError Value) :=
  match self with
  | .int64 column => typed (column.cell row) fun v => .ok (.integer v)
  | .float64 column => typed (column.cell row) fun bits => .ok (.float bits)
  | .bool column => typed (column.cell row) fun v => .ok (.bool v)
  | .timestamp column => typed (column.cell row) fun micros => .ok (declared.timeCell micros)
  | .decimal column => typed (column.cell row) fun serialized => .ok (.decimal serialized)
  | .uuid column => typed (column.cell row) fun id =>
    .ok (match declared with
      | .ulid => .ulid (runtime.ulidText id)
      | _ => .uuid (runtime.uuidText id))
  | .string column => typed (column.cell row) (utf8Cell runtime name row)
  | .bytes column => typed (column.cell row) fun data => .ok (.bytes data)
  | .json column => typed (column.cell row) fun data =>
    if data = [] then
      .ok .null
    else
      (runtime.fromMsgpack data).mapError fun error =>
        .memtableCellCorrupt name row ("JSON cell is not MessagePack: " ++ error)
  | .geometry column => typed (column.cell row) (utf8Cell runtime name row)
  | .vector column => typed (column.cell row) fun floats =>
    .ok (.array (floats.map fun bits => .float (runtime.f64OfF32 bits)))
  | .dictEncoded ids dictionary _ => typed (ids.cell row) fun id =>
    match dictionary[id.toNat]? with
    | some text => .ok (.string text)
    | none => .error (.memtableCellCorrupt name row
        ("dictionary ID " ++ toString id ++ " is outside a dictionary of " ++
          toString dictionary.length ++ " entries"))

end NodeDB.Columnar
