import NodeDB.CodecBounds
import NodeDB.NumeralCoder
import Mathlib.Algebra.BigOperators.Fin

/-!
# The interleaved rANS coder

Four streams share the bytes of the input by position.  Every stream is coded
from its last byte to its first, so that decoding runs forward.  The state of
a stream is a `u32`: each sum, product and shift on it is checked here, and a
result that does not fit ends the call.

The frequency table is scaled in floating point.  The scaled value of a
frequency is a parameter; the loops that correct the sum are modelled.
-/

namespace NodeDB.Codec
namespace Rans

open ByteFrame NumeralCoder

def numStreams : Nat := 4

def probBits : Nat := 14

def probScale : Nat := 2 ^ probBits

def ransL : Nat := 2 ^ 23

def ransStateUpperBound : Nat := ransL * 256

def freqTableSize : Nat := 256 * 4

def headerSize : Nat := 4 + freqTableSize + 4

/-- What ends a call: a `u32` that overflows, or an error that is returned. -/
inductive Fault where
  | overflow
  | codec (error : CodecError)
  deriving DecidableEq, Repr

def returned {α : Type} : Except CodecError α → Except Fault α
  | .ok value => .ok value
  | .error error => .error (.codec error)

def checked32 (value : Nat) : Except Fault Nat :=
  if value < u32Bound then .ok value else .error .overflow

/-! ## The frequency table -/

abbrev Frequencies := Fin 256 → Nat

def countFrequencies (data : Bytes) : Frequencies :=
  fun symbol => (data.filter fun byte => byte.toFin = symbol).length

/-- The last of the given symbols whose frequency no other one exceeds. -/
def lastMax (freqs : Frequencies) (symbols : List (Fin 256)) : Option (Fin 256) :=
  symbols.foldl
    (fun best symbol =>
      match best with
      | none => some symbol
      | some known => if freqs known ≤ freqs symbol then some symbol else some known) none

/-- Takes `excess` off the sum, one at a time from the highest frequency above one. -/
def lowerFrequencies : Nat → Frequencies → Frequencies
  | 0, norm => norm
  | excess + 1, norm =>
    let maxIdx := (lastMax norm ((List.finRange 256).filter fun symbol => 1 < norm symbol)).getD 0
    lowerFrequencies excess (Function.update norm maxIdx (norm maxIdx - 1))

/-- Adds `missing` to the sum, one at a time at the highest frequency. -/
def raiseFrequencies : Nat → Frequencies → Frequencies
  | 0, norm => norm
  | missing + 1, norm =>
    let maxIdx := (lastMax norm (List.finRange 256)).getD 0
    raiseFrequencies missing (Function.update norm maxIdx (norm maxIdx + 1))

def normalizeFrequencies (scaled : Nat → Nat → Nat) (freqs : Frequencies) (total : Nat) :
    Frequencies :=
  let norm : Frequencies := fun symbol =>
    if 0 < freqs symbol then max (scaled (freqs symbol) total) 1 else 0
  let sum := ((List.finRange 256).map norm).sum
  if 0 < sum then
    raiseFrequencies (probScale - sum) (lowerFrequencies (sum - probScale) norm)
  else norm

def buildCumTable (freqs : Frequencies) : Nat → Nat
  | 0 => 0
  | symbol + 1 =>
    buildCumTable freqs symbol + if h : symbol < 256 then freqs ⟨symbol, h⟩ else 0

def buildDecodeTable (cumFreqs : Nat → Nat) : Nat → UInt8 :=
  (List.range 256).foldl
    (fun table symbol slot =>
      if cumFreqs symbol ≤ slot ∧ slot < cumFreqs (symbol + 1) then UInt8.ofNat symbol
      else table slot)
    fun _ => 0

def validateFrequencies (freqs : Frequencies) : Except CodecError Unit := do
  let total ← (List.finRange 256).foldlM
    (fun total symbol =>
      if total + freqs symbol < u32Bound then Except.ok (total + freqs symbol)
      else .error (.corrupt "rANS frequency total overflows")) 0
  require (total = probScale)
    (.corrupt s!"rANS frequencies sum to {total}, expected {probScale}")

/-! ## One symbol -/

structure Lane where
  state : Nat
  bytes : Bytes

def ransEncodeSymbol (lane : Lane) (start freq : Nat) : Except Fault Lane := do
  let maxState ← checked32 (ransL / probScale * 256 * freq)
  let spilled := spill 256 maxState UInt8.ofNat lane.state
  let shifted ← checked32 (spilled.2 / freq * probScale)
  let remaindered ← checked32 (shifted + spilled.2 % freq)
  let state ← checked32 (remaindered + start)
  return { state := state
           bytes := lane.bytes ++ spilled.1 }

def ransDecodeSymbol (state : Nat) (lookup : Nat → UInt8) (cumFreqs : Nat → Nat)
    (symFreqs : Frequencies) : Except Fault (UInt8 × Nat) := do
  let slot := state % probScale
  let sym := lookup slot
  let start := cumFreqs sym.toNat
  let freq := symFreqs sym.toFin
  let product ← checked32 (freq * (state / probScale))
  let sum ← checked32 (product + slot)
  let _ ← require (start ≤ sum) Fault.overflow
  return (sym, sum - start)

def ransDecodeRenorm (stream : Bytes) : Nat → Nat → Except Fault (Nat × Nat)
  | state, 0 => .ok (state, 0)
  | state, pos + 1 =>
    if state < ransL then do
      let state ← checked32 (state * 256 + (stream.getD pos 0).toNat)
      ransDecodeRenorm stream state pos
    else .ok (state, pos + 1)

/-! ## Encoding -/

def streamOf (index : Nat) : Fin numStreams :=
  ⟨index % numStreams, Nat.mod_lt _ (by decide)⟩

def encodeLanes (symFreqs : Frequencies) : Nat → Bytes → Except Fault (Fin numStreams → Lane)
  | _, [] => .ok fun _ => { state := ransL, bytes := [] }
  | index, byte :: rest => do
    let lanes ← encodeLanes symFreqs (index + 1) rest
    let freq := symFreqs byte.toFin
    if freq = 0 then return lanes
    else
      let lane ← ransEncodeSymbol (lanes (streamOf index))
        (buildCumTable symFreqs byte.toNat) freq
      return Function.update lanes (streamOf index) lane

def frameLanes (encodedLen : Nat) (normFreqs : Frequencies) (lanes : Fin numStreams → Lane) :
    Except Fault Bytes := do
  let streams := (List.finRange numStreams).map fun index =>
    (lanes index).bytes ++ littleEndian 4 (lanes index).state
  let totalCompressed := (streams.map List.length).sum
  let compPayloadSize ← returned
    (encodeU32Len (totalCompressed + numStreams * 4) "rANS compressed payload")
  let sizes ← returned (streams.mapM fun stream => encodeU32Len stream.length "rANS stream")
  return littleEndian 4 encodedLen ++
    ((List.finRange 256).flatMap (fun symbol => littleEndian 4 (normFreqs symbol)) ++
      (littleEndian 4 compPayloadSize ++ (sizes.flatMap (littleEndian 4) ++ streams.flatten)))

/-- `normalize` stands for the normalisation of the counted frequencies. -/
def encode (normalize : Frequencies → Nat → Frequencies) (data : Bytes) : Except Fault Bytes := do
  let encodedLen ← returned (encodeInputLen data.length "rANS")
  if data.isEmpty then return List.replicate headerSize 0
  else
    let normFreqs := normalize (countFrequencies data) data.length
    let lanes ← encodeLanes normFreqs 0 data
    frameLanes encodedLen normFreqs lanes

/-! ## Decoding -/

/-- A stream that is read, from its end towards its start. -/
structure Reader where
  state : Nat
  stream : Bytes
  pos : Nat

/-- The sizes of the listed streams, and the sum of all sizes so far. -/
def readStreamSizes (frame : Bytes) :
    List (Fin numStreams) → Nat → Except CodecError (List Nat × Nat)
  | [], payloadLen => .ok ([], payloadLen)
  | index :: rest, payloadLen => do
    let size := ofLittleEndian (slice frame (index * 4) 4)
    let _ ← require (¬size < 4) (.corrupt s!"rANS stream {index} too short for state")
    let payloadLen ← checkedAdd payloadLen size "rANS stream lengths"
    let (sizes, payloadLen) ← readStreamSizes frame rest payloadLen
    return (size :: sizes, payloadLen)

def readStreams (frame : Bytes) : List Nat → Nat → Except CodecError (List Bytes)
  | [], _ => .ok []
  | size :: rest, pos => do
    let stream ← checkedRange frame pos size "rANS stream range"
    let pos ← checkedAdd pos size "rANS stream offset"
    let streams ← readStreams frame rest pos
    return stream :: streams

/-- A reader at the end of a stream, whose last four bytes hold the state. -/
def openReader (streams : List Bytes) (index : Fin numStreams) : Except CodecError Reader := do
  let stream := streams.getD index []
  let state := ofLittleEndian (stream.drop (stream.length - 4))
  let _ ← require (ransL ≤ state ∧ state < ransStateUpperBound)
    (.corrupt s!"rANS stream {index} has invalid initial state")
  return { state := state
           stream := stream
           pos := stream.length - 4 }

def decodeReaders (lookup : Nat → UInt8) (cumFreqs : Nat → Nat) (symFreqs : Frequencies) :
    Nat → Nat → (Fin numStreams → Reader) → Except Fault (Bytes × (Fin numStreams → Reader))
  | 0, _, readers => .ok ([], readers)
  | left + 1, index, readers => do
    let reader := readers (streamOf index)
    let (symbol, state) ← ransDecodeSymbol reader.state lookup cumFreqs symFreqs
    let (state, pos) ← ransDecodeRenorm reader.stream state reader.pos
    let (output, readers) ← decodeReaders lookup cumFreqs symFreqs left (index + 1)
      (Function.update readers (streamOf index)
        { state := state
          stream := reader.stream
          pos := pos })
    return (symbol :: output, readers)

/-- The output of a nonempty frame, with the readers at the end of it. -/
def decodeFrame (data : Bytes) (uncompressedSize : Nat) (normFreqs : Frequencies)
    (compressedSize : Nat) : Except Fault (Bytes × (Fin numStreams → Reader)) := do
  let _ ← returned (validateFrequencies normFreqs)
  let frame ← returned
    (checkedRange data headerSize compressedSize "rANS compressed payload")
  let frameEnd ← returned (checkedAdd headerSize compressedSize "rANS frame end")
  let _ ← returned (require (frameEnd = data.length) (.corrupt "trailing bytes after rANS frame"))
  let _ ← returned (require (¬compressedSize < numStreams * 4)
    (.corrupt "rANS compressed size omits stream sizes"))
  let (streamSizes, payloadLen) ← returned
    (readStreamSizes frame (List.finRange numStreams) 0)
  let framed ← returned (checkedAdd (numStreams * 4) payloadLen "rANS stream framing")
  let _ ← returned (require (framed = compressedSize)
    (.corrupt "rANS compressed-size metadata mismatch"))
  let cumFreqs := buildCumTable normFreqs
  let lookup := buildDecodeTable cumFreqs
  let streams ← returned (readStreams frame streamSizes (numStreams * 4))
  let opened ← returned ((List.finRange numStreams).mapM (openReader streams))
  let _ ← returned (checkedCapacity uncompressedSize 1 "rANS decoded bytes")
  decodeReaders lookup cumFreqs normFreqs uncompressedSize 0
    fun index => opened.getD index
      { state := 0
        stream := []
        pos := 0 }

def checkTerminal (readers : Fin numStreams → Reader) (index : Fin numStreams) :
    Except CodecError Unit :=
  require ((readers index).pos = 0 ∧ (readers index).state = ransL)
    (.corrupt s!"rANS stream {index} has noncanonical terminal state")

def decode (data : Bytes) : Except Fault Bytes := do
  let header ← returned (checkedRange data 0 headerSize "rANS header")
  let uncompressedSize ← returned (decodedLen (ofLittleEndian (slice header 0 4)) "rANS")
  let normFreqs : Frequencies := fun symbol => ofLittleEndian (slice header (4 + symbol * 4) 4)
  let compressedSize := ofLittleEndian (header.drop (headerSize - 4))
  if uncompressedSize = 0 then
    let _ ← returned (require (compressedSize = 0 ∧ data.length = headerSize)
      (.corrupt "nonempty rANS payload for empty output"))
    return []
  else
    let (output, readers) ← decodeFrame data uncompressedSize normFreqs compressedSize
    let _ ← returned ((List.finRange numStreams).mapM (checkTerminal readers))
    return output

end Rans
end NodeDB.Codec
