import NodeDB.CodecBounds
import Mathlib.Data.List.Sort

/-!
# The FSST string codec

A table of substrings of one to eight bytes is trained on the strings.  Each
string is written as the indices of the symbols that match it greedily, with
an escape before every byte that no symbol covers.  Training drains a hash
map, so the order in which it meets equally good candidates is arbitrary.
-/

namespace NodeDB.Codec
namespace Fsst

open ByteFrame

def maxSymbols : Nat := 255

def maxSymbolLen : Nat := 8

def escape : UInt8 := 255

def trainingRounds : Nat := 5

/-- The bytes of a `Vec` header and of a `usize` on a 64-bit target. -/
def vecSize : Nat := 24

def usizeSize : Nat := 8

abbrev Symbol := { bytes : Bytes // 0 < bytes.length ∧ bytes.length ≤ maxSymbolLen }

/-! ## Training -/

/-- Frequencies of the substrings met in one round, one entry a substring. -/
abbrev Candidates := List (Symbol × Nat)

def Candidates.bump (ngram : Symbol) : Candidates → Candidates
  | [] => [(ngram, 1)]
  | (known, freq) :: rest =>
    if known = ngram then (known, freq + 1) :: rest
    else (known, freq) :: Candidates.bump ngram rest

/-- The order in which each round drains its hash map. -/
structure Drain where
  order : Nat → Candidates → Candidates
  perm : ∀ round candidates, (order round candidates).Perm candidates

/-- The length of the first symbol that matches, zero when none does. -/
def longestSymbolMatch (symbols : List Symbol) (remaining : Bytes) : Nat :=
  match symbols.find? fun symbol => symbol.1.isPrefixOf remaining with
  | some symbol => symbol.1.length
  | none => 0

def ngrams (remaining : Bytes) : List Symbol :=
  (List.finRange (min maxSymbolLen remaining.length)).map fun last =>
    ⟨remaining.take (last.val + 1), by
      have hlast := last.isLt
      simp only [List.length_take]
      omega⟩

/-- Counts the substrings at every position no symbol covers.  `skip` is what
is left of the symbol that matched last. -/
def countUncovered (symbols : List Symbol) : Nat → Bytes → Candidates → Candidates
  | _, [], candidates => candidates
  | skip + 1, _ :: rest, candidates => countUncovered symbols skip rest candidates
  | 0, byte :: rest, candidates =>
    match longestSymbolMatch symbols (byte :: rest) with
    | len + 1 => countUncovered symbols len rest candidates
    | 0 =>
      countUncovered symbols 0 rest
        ((ngrams (byte :: rest)).foldl (fun counted ngram => counted.bump ngram) candidates)

def rank (drained : Candidates) : Candidates :=
  ((drained.map fun entry => (entry.1, entry.2 * (entry.1.1.length - 1))).filter
    fun scored => 0 < scored.2).insertionSort fun one other => other.2 ≤ one.2

/-- The set of symbols that the source keeps beside the list holds exactly the
list's elements. -/
def addSymbols (symbols : List Symbol) : Candidates → List Symbol
  | [] => symbols
  | (ngram, _) :: rest =>
    if symbols.length ≥ maxSymbols then symbols
    else if ngram ∈ symbols then addSymbols symbols rest
    else addSymbols (symbols ++ [ngram]) rest

def trainRounds (drain : Drain) (strings : List Bytes) : Nat → List Symbol → List Symbol
  | 0, symbols => symbols
  | left + 1, symbols =>
    let candidates :=
      strings.foldl (fun counted string => countUncovered symbols 0 string counted) []
    if candidates.isEmpty then symbols
    else trainRounds drain strings left (addSymbols symbols (rank (drain.order left candidates)))

structure SymbolTable where
  symbols : List Symbol
  few : symbols.length ≤ maxSymbols
  distinct : symbols.Nodup

variable {symbols : List Symbol}

theorem addSymbols_sound (candidates : Candidates) (hfew : symbols.length ≤ maxSymbols)
    (hdistinct : symbols.Nodup) : (addSymbols symbols candidates).length ≤ maxSymbols ∧
      (addSymbols symbols candidates).Nodup := by
  fun_induction addSymbols symbols candidates with
  | case1 symbols => exact ⟨hfew, hdistinct⟩
  | case2 symbols ngram freq rest hfull => exact ⟨hfew, hdistinct⟩
  | case3 symbols ngram freq rest hroom hmem ih => exact ih hfew hdistinct
  | case4 symbols ngram freq rest hroom hmem ih =>
    apply ih
    · simp only [List.length_append, List.length_singleton]
      omega
    · rw [← List.concat_eq_append]
      exact hdistinct.concat hmem

theorem trainRounds_sound (drain : Drain) (strings : List Bytes) (rounds : Nat)
    (hfew : symbols.length ≤ maxSymbols) (hdistinct : symbols.Nodup) :
    (trainRounds drain strings rounds symbols).length ≤ maxSymbols ∧
      (trainRounds drain strings rounds symbols).Nodup := by
  fun_induction trainRounds drain strings rounds symbols with
  | case1 symbols => exact ⟨hfew, hdistinct⟩
  | case2 left symbols candidates hempty => exact ⟨hfew, hdistinct⟩
  | case3 left symbols candidates hsome ih =>
    obtain ⟨hfew, hdistinct⟩ := addSymbols_sound (rank (drain.order left candidates)) hfew hdistinct
    exact ih hfew hdistinct

def SymbolTable.train (drain : Drain) (strings : List Bytes) : SymbolTable :=
  if strings.isEmpty then
    { symbols := []
      few := Nat.zero_le _
      distinct := List.nodup_nil }
  else
    { symbols := (trainRounds drain strings trainingRounds []).insertionSort
        fun one other => other.1.length ≤ one.1.length
      few := by
        rw [List.length_insertionSort]
        exact (trainRounds_sound drain strings trainingRounds (Nat.zero_le _) List.nodup_nil).1
      distinct := (List.perm_insertionSort _ _).nodup_iff.mpr
        (trainRounds_sound drain strings trainingRounds (Nat.zero_le _) List.nodup_nil).2 }

/-! ## One string -/

/-- The greedy encoding.  `skip` is what is left of the symbol emitted last. -/
def encodeSymbols (symbols : List Symbol) : Nat → Bytes → Bytes
  | _, [] => []
  | skip + 1, _ :: rest => encodeSymbols symbols skip rest
  | 0, byte :: rest =>
    match symbols.zipIdx.find? fun entry => entry.1.1.isPrefixOf (byte :: rest) with
    | some (symbol, idx) =>
      UInt8.ofNat idx :: encodeSymbols symbols (symbol.1.length - 1) rest
    | none => escape :: byte :: encodeSymbols symbols 0 rest

def encodeString (table : SymbolTable) (input : Bytes) : Except CodecError Bytes := do
  let capacity ← checkedMul input.length 2 "FSST encoded string"
  let _ ← decodedLen capacity "FSST encoded string"
  return encodeSymbols table.symbols 0 input

def decodeSymbols (symbols : List Bytes) : Bytes → Bytes → Except CodecError Bytes
  | [], out => .ok out
  | byte :: rest, out =>
    if byte = escape then
      match rest with
      | [] => .error (.corrupt "FSST escape at end of encoded data")
      | literal :: rest => decodeSymbols symbols rest (out ++ [literal])
    else
      match symbols[byte.toNat]? with
      | none =>
        .error (.corrupt ("FSST symbol index " ++ toString byte.toNat ++
          " out of range (max " ++ toString symbols.length ++ ")"))
      | some symbol => do
        let nextLen ← checkedAdd out.length symbol.length "FSST decoded string"
        let _ ← decodedLen nextLen "FSST decoded string"
        decodeSymbols symbols rest (out ++ symbol)

def decodeString (symbols : List Bytes) (encoded : Bytes) : Except CodecError Bytes := do
  let expandedCapacity ← checkedMul encoded.length maxSymbolLen "FSST decoded string"
  let _ ← decodedLen expandedCapacity "FSST decoded string"
  decodeSymbols symbols encoded []

/-! ## The frame -/

def encodeOffsets : List Bytes → Nat → Except CodecError Bytes
  | [], _ => .ok []
  | encoded :: rest, offset => do
    let offset ← checkedAdd offset encoded.length "FSST string offset"
    let stop ← encodeU32Len offset "FSST string offset"
    let later ← encodeOffsets rest offset
    return littleEndian 4 stop ++ later

def encode (drain : Drain) (strings : List Bytes) : Except CodecError Bytes := do
  let _ ← encodeInputLen strings.length "FSST string count"
  let inputBytes ← strings.foldlM
    (fun total string => checkedAdd total string.length "FSST input bytes") 0
  let _ ← decodedLen inputBytes "FSST input"
  let table := SymbolTable.train drain strings
  let encodedStrings ← strings.mapM (encodeString table)
  let totalEncoded ← encodedStrings.foldlM
    (fun total string => checkedAdd total string.length "FSST encoded bytes") 0
  let _ ← decodedLen totalEncoded "FSST encoded bytes"
  let totalEncodedU32 ← encodeU32Len totalEncoded "FSST encoded bytes"
  let offsetBytes ← checkedMul strings.length 4 "FSST offsets"
  let _ ← decodedLen offsetBytes "FSST offsets"
  let symbolBytes ← table.symbols.foldlM
    (fun total symbol => do
      let total ← checkedAdd total 1 "FSST symbols"
      checkedAdd total symbol.1.length "FSST symbols") 0
  let head ← checkedAdd 2 symbolBytes "FSST output"
  let head ← checkedAdd head 8 "FSST output"
  let body ← checkedAdd offsetBytes totalEncoded "FSST output"
  let outputLen ← checkedAdd head body "FSST output"
  let _ ← decodedLen outputLen "FSST output"
  let stringCount ← encodeInputLen strings.length "FSST string count"
  let offsets ← encodeOffsets encodedStrings 0
  return littleEndian 2 table.symbols.length ++
    (table.symbols.flatMap (fun symbol => littleEndian 1 symbol.1.length ++ symbol.1) ++
      (littleEndian 4 totalEncodedU32 ++ littleEndian 4 stringCount ++
        (offsets ++ encodedStrings.flatten)))

def readSymbols (data : Bytes) : Nat → Nat → List Bytes → Except CodecError (List Bytes × Nat)
  | 0, pos, symbols => .ok (symbols, pos)
  | count + 1, pos, symbols => do
    let lenByte ← checkedRange data pos 1 "FSST symbol length"
    let len := ofLittleEndian lenByte
    let pos ← checkedAdd pos 1 "FSST symbol cursor"
    let _ ← require (¬(len = 0 ∨ len > maxSymbolLen)) (.corrupt "FSST symbol length is invalid")
    let symbol ← checkedRange data pos len "FSST symbol"
    let _ ← require (symbol ∉ symbols) (.corrupt "duplicate FSST symbol")
    let pos ← checkedAdd pos len "FSST symbol cursor"
    readSymbols data count pos (symbols ++ [symbol])

/-- The cumulative offsets of a table whose size has been checked. -/
def readOffsets : Nat → Bytes → List Nat
  | 0, _ => []
  | count + 1, offsetsData =>
    ofLittleEndian (offsetsData.take 4) :: readOffsets count (offsetsData.drop 4)

/-- Decodes the string that ends at each offset.  Returns the strings and the
last end. -/
def decodeStrings (symbols : List Bytes) (encodedData : Bytes) :
    List Nat → Nat → Nat → Except CodecError (List Bytes × Nat)
  | [], prevEnd, _ => .ok ([], prevEnd)
  | stop :: offsets, prevEnd, decodedTotal => do
    let _ ← require (¬(stop < prevEnd ∨ stop > encodedData.length))
      (.corrupt "FSST string offsets are not monotonic and in range")
    let decoded ← decodeString symbols (slice encodedData prevEnd (stop - prevEnd))
    let decodedTotal ← checkedAdd decodedTotal decoded.length "FSST decoded bytes"
    let _ ← decodedLen decodedTotal "FSST"
    let (later, last) ← decodeStrings symbols encodedData offsets stop decodedTotal
    return (decoded :: later, last)

def decodeBody (data : Bytes) (symbols : List Bytes) (pos : Nat) :
    Except CodecError (List Bytes) := do
  let header ← checkedRange data pos 8 "FSST header"
  let totalEncoded := ofLittleEndian (header.take 4)
  let stringCount := ofLittleEndian (header.drop 4)
  let _ ← decodedLen totalEncoded "FSST"
  let offsetAllocation ← checkedMul stringCount usizeSize "FSST offset allocation"
  let resultAllocation ← checkedMul stringCount vecSize "FSST result allocation"
  let containerBytes ← checkedAdd offsetAllocation resultAllocation "FSST container allocations"
  let _ ← decodedLen containerBytes "FSST containers"
  let pos ← checkedAdd pos 8 "FSST header cursor"
  let offsetsSize ← checkedMul stringCount 4 "FSST offsets"
  let _ ← decodedLen offsetsSize "FSST offsets"
  let offsetsData ← checkedRange data pos offsetsSize "FSST offsets"
  let _ ← checkedCapacity stringCount usizeSize "FSST offsets"
  let pos ← checkedAdd pos offsetsSize "FSST data cursor"
  let encodedData ← checkedRange data pos totalEncoded "FSST encoded data"
  let frameEnd ← checkedAdd pos totalEncoded "FSST frame end"
  let _ ← require (frameEnd = data.length) (.corrupt "trailing bytes after FSST frame")
  let _ ← checkedCapacity stringCount vecSize "FSST results"
  let (result, prevEnd) ←
    decodeStrings symbols encodedData (readOffsets stringCount offsetsData) 0 0
  let _ ← require (prevEnd = totalEncoded) (.corrupt "FSST offsets do not consume encoded data")
  return result

def decode (data : Bytes) : Except CodecError (List Bytes) := do
  let _ ← require (¬data.length < 2) (.truncated 2 data.length)
  let symCount := ofLittleEndian (slice data 0 2)
  let _ ← require (¬symCount > maxSymbols) (.corrupt "FSST symbol count exceeds maximum")
  let _ ← checkedCapacity symCount vecSize "FSST symbols"
  let (symbols, pos) ← readSymbols data symCount 2 []
  decodeBody data symbols pos

/-! ## Delimited buffers -/

def encodeDelimited (drain : Drain) (data : Bytes) (delimiter : UInt8) :
    Except CodecError Bytes := do
  let _ ← decodedLen data.length "FSST delimited input"
  encode drain (data.splitOn delimiter)

/-- Appends the strings to what has been put together so far, of which there
is some where `first` is false. -/
def joinDelimited (delimiter : UInt8) : Bool → List Bytes → Bytes → Except CodecError Bytes
  | _, [], out => .ok out
  | first, string :: rest, out => do
    let separator := if first then [] else [delimiter]
    let withSeparator ← checkedAdd out.length separator.length "FSST delimited output"
    let nextLen ← checkedAdd withSeparator string.length "FSST delimited output"
    let _ ← decodedLen nextLen "FSST delimited output"
    joinDelimited delimiter false rest (out ++ separator ++ string)

def decodeDelimited (data : Bytes) (delimiter : UInt8) : Except CodecError Bytes := do
  let strings ← decode data
  joinDelimited delimiter true strings []

end Fsst
end NodeDB.Codec
