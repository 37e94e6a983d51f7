import NodeDB.Rans

/-!
# What the rANS coder writes and reads back

One push and one pop cancel, for every stream on its own; the interleaving
only says which stream a position belongs to.  All states stay between the
lower bound and 256 times it, so no `u32` overflows.
-/

namespace NodeDB.Codec
namespace Rans

open ByteFrame NumeralCoder List Function

/-! ## The tables -/

def weight (freqs : Frequencies) : Nat := ∑ symbol, freqs symbol

/-- The table shares out the whole scale, and every byte of the data has a part of it. -/
structure Normalized (freqs : Frequencies) (data : Bytes) : Prop where
  total : weight freqs = probScale
  occurring : ∀ byte ∈ data, 0 < freqs byte.toFin

theorem buildCumTable_mono (freqs : Frequencies) : Monotone (buildCumTable freqs) :=
  monotone_nat_of_le_succ fun _ => Nat.le_add_right _ _

theorem buildCumTable_succ (freqs : Frequencies) (byte : UInt8) :
    buildCumTable freqs (byte.toNat + 1) = buildCumTable freqs byte.toNat + freqs byte.toFin := by
  rw [buildCumTable, dif_pos byte.toNat_lt]
  rfl

theorem buildCumTable_last (freqs : Frequencies) :
    buildCumTable freqs 256 = ∑ symbol, freqs symbol := by
  have hsum : ∀ count, buildCumTable freqs count =
      ∑ symbol ∈ Finset.range count, if h : symbol < 256 then freqs ⟨symbol, h⟩ else 0 := by
    intro count
    induction count with
    | zero => rfl
    | succ count ih => rw [buildCumTable, ih, Finset.sum_range_succ]
  rw [hsum, Finset.sum_range]
  exact Finset.sum_congr rfl fun symbol _ => dif_pos symbol.isLt

variable {α : Type} {data : Bytes} {norm freqs : Frequencies}

theorem slots_le (htotal : ∑ symbol, freqs symbol = probScale) (byte : UInt8) :
    buildCumTable freqs byte.toNat + freqs byte.toFin ≤ probScale := by
  rw [← buildCumTable_succ, ← htotal, ← buildCumTable_last]
  exact buildCumTable_mono freqs byte.toNat_lt

theorem buildDecodeTable_eq {cumFreqs : Nat → Nat} (hmono : Monotone cumFreqs) {symbol slot : Nat}
    (hsymbol : symbol < 256) (hlow : cumFreqs symbol ≤ slot) (hhigh : slot < cumFreqs (symbol + 1)) :
    buildDecodeTable cumFreqs slot = UInt8.ofNat symbol := by
  have hfold : ∀ count, symbol < count →
      (List.range count).foldl
        (fun table symbol slot =>
          if cumFreqs symbol ≤ slot ∧ slot < cumFreqs (symbol + 1) then UInt8.ofNat symbol
          else table slot) (fun _ => (0 : UInt8)) slot = UInt8.ofNat symbol := by
    intro count hcount
    induction count with
    | zero => omega
    | succ count ih =>
      rw [range_succ, foldl_append, foldl_cons, foldl_nil]
      obtain rfl | hlt := Nat.eq_or_lt_of_le (Nat.le_of_lt_succ hcount)
      · rw [if_pos ⟨hlow, hhigh⟩]
      · have hbehind : cumFreqs (symbol + 1) ≤ cumFreqs count := hmono hlt
        rw [if_neg (by omega), ih hlt]
  exact hfold 256 hsymbol

/-! ## One symbol -/

def InInterval (state : Nat) : Prop :=
  ransL ≤ state ∧ state < ransL * 256

def advance (freqs : Frequencies) (byte : UInt8) (lane : Lane) : Lane :=
  let spilled := spill 256 (ransL / probScale * 256 * freqs byte.toFin) UInt8.ofNat lane.state
  { state := push probScale (freqs byte.toFin) (buildCumTable freqs byte.toNat) spilled.2
    bytes := lane.bytes ++ spilled.1 }

section Symbol

variable {freqs : Frequencies} (htotal : ∑ symbol, freqs symbol = probScale) {byte : UInt8}
  (hbyte : 0 < freqs byte.toFin) {lane : Lane} (hlane : InInterval lane.state)
include htotal hbyte hlane

theorem advance_inInterval : InInterval (advance freqs byte lane).state :=
  push_spill_bounds (by decide) (by decide : 0 < ransL / probScale) hbyte (slots_le htotal byte)
    hlane.1

theorem ransEncodeSymbol_eq :
    ransEncodeSymbol lane (buildCumTable freqs byte.toNat) (freqs byte.toFin) =
      .ok (advance freqs byte lane) := by
  have hslots := slots_le htotal byte
  have hlimit : ransL / probScale * 256 * freqs byte.toFin < u32Bound := by
    simp only [ransL, probScale, probBits, u32Bound] at hslots ⊢
    omega
  have hstate : (advance freqs byte lane).state < u32Bound :=
    (advance_inInterval htotal hbyte hlane).2.trans (by decide)
  simp only [advance, push] at hstate
  simp only [ransEncodeSymbol, checked32]
  rw [if_pos hlimit, ok_bind, if_pos (by omega), ok_bind, if_pos (by omega), ok_bind,
    if_pos hstate, ok_bind]
  rfl

end Symbol

theorem ransDecodeSymbol_eq (htotal : ∑ symbol, freqs symbol = probScale) {byte : UInt8}
    (hbyte : 0 < freqs byte.toFin) (lane : Lane) :
    ransDecodeSymbol (advance freqs byte lane).state (buildDecodeTable (buildCumTable freqs))
        (buildCumTable freqs) freqs =
      .ok (byte, (spill 256 (ransL / probScale * 256 * freqs byte.toFin) UInt8.ofNat
        lane.state).2) := by
  have hslots := slots_le htotal byte
  have hlimit : ransL / probScale * 256 * freqs byte.toFin ≤ 2 ^ 31 := by
    simp only [ransL, probScale, probBits] at hslots ⊢
    omega
  have hpositive : 0 < ransL / probScale * 256 * freqs byte.toFin :=
    Nat.mul_pos (by decide) hbyte
  have hleft := spill_lt UInt8.ofNat (by decide : 1 < 256) hpositive lane.state
  simp only [advance]
  generalize (spill 256 (ransL / probScale * 256 * freqs byte.toFin) UInt8.ofNat
    lane.state).2 = left at hleft ⊢
  obtain ⟨hlow, hhigh⟩ := push_slot hbyte hslots left
  rw [← buildCumTable_succ] at hhigh
  have hlookup := buildDecodeTable_eq (buildCumTable_mono freqs) byte.toNat_lt hlow hhigh
  have hpop := pop_push hbyte hslots left
  rw [pop, push_div hbyte hslots, push_mod hbyte hslots] at hpop
  rw [push_mod hbyte hslots] at hlookup hlow hhigh
  simp only [ransDecodeSymbol, push_mod hbyte hslots, push_div hbyte hslots, hlookup,
    UInt8.ofNat_toNat, checked32]
  have hsum : freqs byte.toFin * (left / freqs byte.toFin) +
      (left % freqs byte.toFin + buildCumTable freqs byte.toNat) < u32Bound := by
    simp only [probScale, probBits, u32Bound] at hslots ⊢
    omega
  rw [if_pos (by omega), ok_bind, if_pos hsum, ok_bind, require_of _ (by omega), ok_bind, hpop]
  rfl

theorem ransDecodeRenorm_eq {stream : Bytes} {pos state : Nat} (hpos : pos ≤ stream.length) :
    ransDecodeRenorm stream state pos =
      .ok ((refill 256 ransL UInt8.toNat (stream.take pos).reverse state).1,
        (refill 256 ransL UInt8.toNat (stream.take pos).reverse state).2.length) := by
  induction pos generalizing state with
  | zero => rfl
  | succ pos ih =>
    have htake : (stream.take (pos + 1)).reverse =
        stream.getD pos 0 :: (stream.take pos).reverse := by
      rw [take_succ_eq_append_getElem hpos, reverse_append, reverse_singleton,
        singleton_append, getD_eq_getElem?_getD, getElem?_eq_getElem hpos,
        Option.getD_some]
    rw [htake, refill, ransDecodeRenorm]
    split
    · rename_i hlow
      have hbyte := (stream.getD pos 0).toNat_lt
      have hfits : state * 256 + (stream.getD pos 0).toNat < u32Bound := by
        simp only [ransL, u32Bound] at hlow ⊢
        omega
      rw [checked32, if_pos hfits, ok_bind, ih (Nat.le_of_succ_le hpos)]
    · simp only [length_cons, length_reverse, length_take]
      rw [Nat.min_eq_left (Nat.le_of_succ_le hpos)]

/-! ## All streams -/

/-- The reader stands where the lane ended: it has the lane's state, and the
bytes in front of it are the lane's. -/
structure Mirrors (lane : Lane) (reader : Reader) : Prop where
  state : reader.state = lane.state
  pos : reader.pos = lane.bytes.length
  bytes : lane.bytes <+: reader.stream

def coded (freqs : Frequencies) : Nat → Bytes → Fin numStreams → Lane
  | _, [] => fun _ => { state := ransL, bytes := [] }
  | index, byte :: rest =>
    Function.update (coded freqs (index + 1) rest) (streamOf index)
      (advance freqs byte (coded freqs (index + 1) rest (streamOf index)))

section Streams

variable {freqs : Frequencies} (htotal : ∑ symbol, freqs symbol = probScale)
include htotal

variable {data : Bytes}

theorem coded_inInterval (hoccurring : ∀ byte ∈ data, 0 < freqs byte.toFin) (index : Nat)
    (stream : Fin numStreams) : InInterval (coded freqs index data stream).state := by
  induction data generalizing index stream with
  | nil => exact ⟨Nat.le_refl ransL, (by decide : ransL < ransL * 256)⟩
  | cons byte rest ih =>
    obtain ⟨hbyte, hrest⟩ := forall_mem_cons.mp hoccurring
    rw [coded]
    by_cases hstream : stream = streamOf index
    · rw [hstream, update_self]
      exact advance_inInterval htotal hbyte (ih hrest _ _)
    · rw [update_of_ne hstream]
      exact ih hrest _ _

theorem encodeLanes_eq (hoccurring : ∀ byte ∈ data, 0 < freqs byte.toFin) (index : Nat) :
    encodeLanes freqs index data = .ok (coded freqs index data) := by
  induction data generalizing index with
  | nil => rfl
  | cons byte rest ih =>
    obtain ⟨hbyte, hrest⟩ := forall_mem_cons.mp hoccurring
    rw [encodeLanes, ih hrest, ok_bind]
    simp only
    rw [if_neg hbyte.ne', ransEncodeSymbol_eq htotal hbyte (coded_inInterval htotal hrest _ _),
      ok_bind]
    rfl

theorem decode_step {byte : UInt8} (hbyte : 0 < freqs byte.toFin) {lane : Lane}
    (hlane : InInterval lane.state) {reader : Reader}
    (hmirrors : Mirrors (advance freqs byte lane) reader) :
    ∃ left, ransDecodeSymbol reader.state (buildDecodeTable (buildCumTable freqs))
        (buildCumTable freqs) freqs = .ok (byte, left) ∧
      ransDecodeRenorm reader.stream left reader.pos = .ok (lane.state, lane.bytes.length) := by
  have hsymbol := ransDecodeSymbol_eq htotal hbyte lane
  rw [← hmirrors.state] at hsymbol
  refine ⟨_, hsymbol, ?_⟩
  have hbytes := hmirrors.bytes
  have htake : reader.stream.take reader.pos = (advance freqs byte lane).bytes := by
    rw [hmirrors.pos]
    exact (prefix_iff_eq_take.mp hbytes).symm
  rw [ransDecodeRenorm_eq (hmirrors.pos ▸ hbytes.length_le), htake, advance]
  simp only [reverse_append]
  rw [refill_spill (fun state => UInt8.toNat_ofNat') lane.bytes.reverse hlane.1 hlane.2]
  simp only [length_reverse]

theorem decodeReaders_coded (hoccurring : ∀ byte ∈ data, 0 < freqs byte.toFin) (index : Nat)
    {readers : Fin numStreams → Reader}
    (hmirrors : ∀ stream, Mirrors (coded freqs index data stream) (readers stream)) :
    ∃ finished,
      decodeReaders (buildDecodeTable (buildCumTable freqs)) (buildCumTable freqs) freqs
        data.length index readers = .ok (data, finished) ∧
      ∀ stream, (finished stream).state = ransL ∧ (finished stream).pos = 0 := by
  induction data generalizing index readers with
  | nil =>
    exact ⟨readers, rfl, fun stream => ⟨(hmirrors stream).state, (hmirrors stream).pos⟩⟩
  | cons byte rest ih =>
    obtain ⟨hbyte, hrest⟩ := forall_mem_cons.mp hoccurring
    have hreader := hmirrors (streamOf index)
    rw [coded, update_self] at hreader
    obtain ⟨left, hsymbol, hrenorm⟩ :=
      decode_step htotal hbyte (coded_inInterval htotal hrest _ _) hreader
    have hbefore : ∀ stream, Mirrors (coded freqs (index + 1) rest stream)
        (Function.update readers (streamOf index)
          { state := (coded freqs (index + 1) rest (streamOf index)).state
            stream := (readers (streamOf index)).stream
            pos := (coded freqs (index + 1) rest (streamOf index)).bytes.length } stream) := by
      intro stream
      by_cases hstream : stream = streamOf index
      · rw [hstream, update_self]
        exact ⟨rfl, rfl, (prefix_append _ _).trans hreader.bytes⟩
      · rw [update_of_ne hstream]
        have hother := hmirrors stream
        rwa [coded, update_of_ne hstream] at hother
    obtain ⟨finished, hdecode, hfinished⟩ := ih hrest (index + 1) hbefore
    refine ⟨finished, ?_, hfinished⟩
    rw [length_cons, decodeReaders, hsymbol, ok_bind]
    simp only
    rw [hrenorm, ok_bind]
    simp only
    rw [hdecode, ok_bind]
    rfl

theorem length_coded_le (hoccurring : ∀ byte ∈ data, 0 < freqs byte.toFin) (index : Nat)
    (stream : Fin numStreams) : (coded freqs index data stream).bytes.length ≤ 2 * data.length := by
  induction data generalizing index stream with
  | nil => exact Nat.zero_le _
  | cons byte rest ih =>
    obtain ⟨hbyte, hrest⟩ := forall_mem_cons.mp hoccurring
    have hlater := ih hrest (index + 1) stream
    rw [coded, length_cons]
    by_cases hstream : stream = streamOf index
    · subst hstream
      have hinterval := (coded_inInterval htotal hrest (index + 1) (streamOf index)).2
      have hroom : (coded freqs (index + 1) rest (streamOf index)).state <
          ransL / probScale * 256 * freqs byte.toFin * 256 ^ 2 :=
        calc (coded freqs (index + 1) rest (streamOf index)).state < ransL * 256 := hinterval
          _ ≤ ransL / probScale * 256 * 1 * 256 ^ 2 := by decide
          _ ≤ ransL / probScale * 256 * freqs byte.toFin * 256 ^ 2 := by
            gcongr
            exact hbyte
      have hspill := length_spill_le UInt8.ofNat hroom
      simp only [update_self, advance, length_append]
      omega
    · rw [update_of_ne hstream]
      omega

end Streams

/-! ## The frame -/

def streamBytes (lane : Lane) : Bytes :=
  lane.bytes ++ littleEndian 4 lane.state

theorem readStreamSizes_eq {frame : Bytes} {size : Fin numStreams → Nat}
    (hsize : ∀ index : Fin numStreams, ofLittleEndian (slice frame (index * 4) 4) = size index)
    (hlow : ∀ index, 4 ≤ size index) (indices : List (Fin numStreams)) (payloadLen : Nat)
    (hfits : payloadLen + (indices.map size).sum < usizeBound) :
    readStreamSizes frame indices payloadLen =
      .ok (indices.map size, payloadLen + (indices.map size).sum) := by
  induction indices generalizing payloadLen with
  | nil => rfl
  | cons index rest ih =>
    rw [map_cons, sum_cons, ← Nat.add_assoc] at hfits
    have hindex := hlow index
    rw [readStreamSizes]
    simp only [hsize]
    rw [require_of _ (by omega), ok_bind, checkedAdd_of_lt _ (by omega), ok_bind, ih _ hfits,
      ok_bind, map_cons, sum_cons, Nat.add_assoc]
    rfl

theorem readStreams_eq {frame before : Bytes} (streams : List Bytes)
    (hframe : frame = before ++ streams.flatten) (hfits : frame.length < usizeBound) :
    readStreams frame (streams.map List.length) before.length = .ok streams := by
  induction streams generalizing before with
  | nil => rfl
  | cons stream rest ih =>
    rw [flatten_cons] at hframe
    have hlength := congrArg List.length hframe
    simp only [length_append] at hlength
    have hlater : frame = (before ++ stream) ++ rest.flatten := by
      rw [hframe, append_assoc]
    have hrest := ih hlater
    rw [length_append] at hrest
    rw [map_cons, readStreams, checkedRange_of_eq _ hframe rfl rfl hfits, ok_bind,
      checkedAdd_of_lt _ (by omega), ok_bind, hrest, ok_bind]
    rfl

theorem getD_map_finRange (value : Fin numStreams → α) (index : Fin numStreams) (default : α) :
    ((List.finRange numStreams).map value).getD index default = value index := by
  simp

theorem openReader_eq {lane : Fin numStreams → Lane} (index : Fin numStreams)
    (hlane : InInterval (lane index).state) :
    openReader ((List.finRange numStreams).map fun index => streamBytes (lane index)) index =
      .ok { state := (lane index).state
            stream := streamBytes (lane index)
            pos := (lane index).bytes.length } := by
  have hlength : (streamBytes (lane index)).length - 4 = (lane index).bytes.length := by
    simp [streamBytes]
  have hstate : ofLittleEndian ((streamBytes (lane index)).drop (lane index).bytes.length) =
      (lane index).state := by
    rw [streamBytes, drop_left]
    exact ofLittleEndian_littleEndian (hlane.2.trans (by decide))
  rw [openReader]
  simp only [getD_map_finRange, hlength, hstate]
  rw [require_of _ ⟨hlane.1, hlane.2⟩, ok_bind]
  rfl

theorem validateFrequencies_eq (htotal : ∑ symbol, freqs symbol = probScale) :
    validateFrequencies freqs = .ok () := by
  have hstep : ∀ (total : Nat) (symbol : Fin 256) (next : Nat),
      (if total + freqs symbol < u32Bound then Except.ok (total + freqs symbol)
        else .error (CodecError.corrupt "rANS frequency total overflows")) = .ok next ↔
        total + freqs symbol < u32Bound ∧ total + freqs symbol = next := by
    intro total symbol next
    split <;> simp_all
  have hsum : ((List.finRange 256).map freqs).sum = probScale := by
    rw [← htotal, Fin.sum_univ_def]
  have hfold := (foldlM_sum hstep (List.finRange 256) (by decide : 0 < u32Bound)).mpr
    ⟨by rw [Nat.zero_add, hsum]; decide, rfl⟩
  rw [Nat.zero_add, hsum] at hfold
  rw [validateFrequencies, hfold, ok_bind, require_of _ rfl]

@[simp]
theorem returned_ok (value : α) : returned (.ok value) = .ok value :=
  rfl

def streamsOf (lanes : Fin numStreams → Lane) : List Bytes :=
  (List.finRange numStreams).map fun index => streamBytes (lanes index)

def frequencyBytes (freqs : Frequencies) : Bytes :=
  (List.finRange 256).flatMap fun symbol => littleEndian 4 (freqs symbol)

def payloadSize (lanes : Fin numStreams → Lane) : Nat :=
  ((streamsOf lanes).map List.length).sum + numStreams * 4

def frameOf (encodedLen : Nat) (freqs : Frequencies) (lanes : Fin numStreams → Lane) : Bytes :=
  littleEndian 4 encodedLen ++ (frequencyBytes freqs ++ (littleEndian 4 (payloadSize lanes) ++
    (((streamsOf lanes).map List.length).flatMap (littleEndian 4) ++ (streamsOf lanes).flatten)))

theorem frameLanes_eq {lanes : Fin numStreams → Lane} (encodedLen : Nat) (freqs : Frequencies)
    (hfits : payloadSize lanes < u32Bound) :
    frameLanes encodedLen freqs lanes = .ok (frameOf encodedLen freqs lanes) := by
  have hsizes : (streamsOf lanes).mapM (fun stream => encodeU32Len stream.length "rANS stream") =
      .ok ((streamsOf lanes).map List.length) := by
    refine mapM_of_forall _ fun stream hstream => encodeU32Len_eq_ok.mpr ⟨?_, rfl⟩
    have hle := single_le_sum (fun _ _ => Nat.zero_le _) _
      (mem_map_of_mem (f := List.length) hstream)
    exact hle.trans_lt ((Nat.le_add_right _ _).trans_lt hfits)
  have hstreams : (List.finRange numStreams).map (fun index =>
      (lanes index).bytes ++ littleEndian 4 (lanes index).state) = streamsOf lanes :=
    rfl
  rw [payloadSize] at hfits
  simp only [frameLanes, hstreams, hsizes, encodeU32Len_eq_ok.mpr ⟨hfits, rfl⟩, returned_ok,
    ok_bind]
  rfl

theorem length_frequencyBytes (freqs : Frequencies) :
    (frequencyBytes freqs).length = freqTableSize := by
  rw [frequencyBytes, length_flatMap_littleEndian, length_finRange]
  rfl

def headerOf (encodedLen : Nat) (freqs : Frequencies) (lanes : Fin numStreams → Lane) : Bytes :=
  littleEndian 4 encodedLen ++ (frequencyBytes freqs ++ littleEndian 4 (payloadSize lanes))

def bodyOf (lanes : Fin numStreams → Lane) : Bytes :=
  ((streamsOf lanes).map List.length).flatMap (littleEndian 4) ++ (streamsOf lanes).flatten

theorem frameOf_eq (encodedLen : Nat) (freqs : Frequencies) (lanes : Fin numStreams → Lane) :
    frameOf encodedLen freqs lanes = headerOf encodedLen freqs lanes ++ bodyOf lanes := by
  simp only [frameOf, headerOf, bodyOf, append_assoc]

theorem length_headerOf (encodedLen : Nat) (freqs : Frequencies) (lanes : Fin numStreams → Lane) :
    (headerOf encodedLen freqs lanes).length = headerSize := by
  simp only [headerOf, length_append, length_littleEndian, length_frequencyBytes, headerSize]
  omega

theorem length_sizes (lanes : Fin numStreams → Lane) :
    (((streamsOf lanes).map List.length).flatMap (littleEndian 4)).length = numStreams * 4 := by
  have hsizes := length_flatMap_littleEndian 4 id ((streamsOf lanes).map List.length)
  simpa only [id, length_map, streamsOf, length_finRange] using hsizes

theorem length_bodyOf (lanes : Fin numStreams → Lane) :
    (bodyOf lanes).length = payloadSize lanes := by
  rw [bodyOf, length_append, length_sizes, length_flatten, payloadSize, Nat.add_comm]

theorem length_frameOf (encodedLen : Nat) (freqs : Frequencies) (lanes : Fin numStreams → Lane) :
    (frameOf encodedLen freqs lanes).length = headerSize + payloadSize lanes := by
  rw [frameOf_eq, length_append, length_headerOf, length_bodyOf]

/-! ## Reading the frame -/

section Frame

variable {freqs : Frequencies} (htotal : ∑ symbol, freqs symbol = probScale)
  {lanes : Fin numStreams → Lane} (hlanes : ∀ stream, InInterval (lanes stream).state)
  (hfits : payloadSize lanes < u32Bound)
include hfits

theorem frame_sizes (index : Fin numStreams) :
    ofLittleEndian (slice (bodyOf lanes) (index * 4) 4) = (streamBytes (lanes index)).length := by
  have hitem : ((streamsOf lanes).map List.length)[index.val]? =
      some (streamBytes (lanes index)).length := by
    simp [streamsOf]
  have hslice := slice_flatMap (length_littleEndian 4) [] (streamsOf lanes).flatten hitem
  rw [nil_append, length_nil, Nat.zero_add] at hslice
  rw [bodyOf, hslice]
  apply ofLittleEndian_littleEndian
  have hmem : (streamBytes (lanes index)).length ∈ (streamsOf lanes).map List.length :=
    mem_of_getElem? hitem
  have hle := single_le_sum (fun _ _ => Nat.zero_le _) _ hmem
  exact hle.trans_lt ((Nat.le_add_right _ _).trans_lt hfits)

theorem length_frameOf_lt (encodedLen : Nat) :
    (frameOf encodedLen freqs lanes).length < usizeBound := by
  rw [length_frameOf]
  simp only [u32Bound, usizeBound, headerSize, freqTableSize] at hfits ⊢
  omega

include htotal hlanes

theorem decodeFrame_frameOf {encodedLen : Nat} (hlen : encodedLen ≤ maxDecodedBytes) :
    decodeFrame (frameOf encodedLen freqs lanes) encodedLen freqs (payloadSize lanes) =
      decodeReaders (buildDecodeTable (buildCumTable freqs)) (buildCumTable freqs) freqs encodedLen
        0 fun index =>
          { state := (lanes index).state
            stream := streamBytes (lanes index)
            pos := (lanes index).bytes.length } := by
  have hword := u32Bound_lt_usizeBound
  have hlength := length_frameOf encodedLen freqs lanes
  have hdata : (frameOf encodedLen freqs lanes).length < usizeBound :=
    length_frameOf_lt hfits encodedLen
  have hread := readStreamSizes_eq (frame_sizes hfits)
    (fun index => by simp [streamBytes]) (List.finRange numStreams) 0 (by
      rw [Nat.zero_add]
      simp only [payloadSize, streamsOf, map_map, comp_def] at hfits
      omega)
  have hlengths : (List.finRange numStreams).map (fun index => (streamBytes (lanes index)).length) =
      (streamsOf lanes).map List.length := by
    simp only [streamsOf, map_map, comp_def]
  have hframed : numStreams * 4 + ((streamsOf lanes).map List.length).sum = payloadSize lanes :=
    Nat.add_comm _ _
  rw [hlengths, Nat.zero_add] at hread
  have hstreams := readStreams_eq (streamsOf lanes) rfl
    (by rw [← bodyOf, length_bodyOf]; omega)
  rw [← bodyOf, length_sizes] at hstreams
  have hopened := mapM_of_forall (List.finRange numStreams)
    fun index _ => openReader_eq index (hlanes index)
  rw [← streamsOf] at hopened
  rw [decodeFrame, validateFrequencies_eq htotal, returned_ok, ok_bind,
    checkedRange_last _ (frameOf_eq encodedLen freqs lanes) (length_headerOf ..).symm
      (length_bodyOf lanes).symm hdata, returned_ok, ok_bind,
    checkedAdd_of_lt _ (by omega), returned_ok, ok_bind, require_of _ hlength.symm, returned_ok,
    ok_bind, require_of _ (by omega), returned_ok, ok_bind, hread, returned_ok, ok_bind]
  simp only
  rw [checkedAdd_of_lt _ (by omega), returned_ok, ok_bind, require_of _ hframed, returned_ok,
    ok_bind, hstreams, returned_ok, ok_bind, hopened, returned_ok, ok_bind,
    checkedCapacity_of_le _ (by rwa [Nat.mul_one]), returned_ok, ok_bind]
  simp only [getD_map_finRange]

theorem decode_frameOf {data : Bytes} (hdata : data ≠ []) (hlen : data.length ≤ maxDecodedBytes)
    {finished : Fin numStreams → Reader}
    (hdecode : decodeReaders (buildDecodeTable (buildCumTable freqs)) (buildCumTable freqs) freqs
      data.length 0 (fun index =>
        { state := (lanes index).state
          stream := streamBytes (lanes index)
          pos := (lanes index).bytes.length }) = .ok (data, finished))
    (hfinished : ∀ stream, (finished stream).state = ransL ∧ (finished stream).pos = 0) :
    decode (frameOf data.length freqs lanes) = .ok data := by
  have hheader : frameOf data.length freqs lanes =
      [] ++ (headerOf data.length freqs lanes ++ bodyOf lanes) :=
    frameOf_eq data.length freqs lanes
  have hcount : ofLittleEndian (slice (headerOf data.length freqs lanes) 0 4) = data.length :=
    ofLittleEndian_take _ (hlen.trans_lt maxDecodedBytes_lt_u32Bound)
  have hcompressed : ofLittleEndian ((headerOf data.length freqs lanes).drop (headerSize - 4)) =
      payloadSize lanes := by
    rw [headerOf, ← append_assoc, drop_left' (by
      simp only [length_append, length_littleEndian, length_frequencyBytes, headerSize]
      omega)]
    exact ofLittleEndian_littleEndian hfits
  have hfreqs : (fun symbol : Fin 256 => ofLittleEndian (slice
      (headerOf data.length freqs lanes) (4 + symbol * 4) 4)) = freqs := by
    funext symbol
    have hitem : (List.finRange 256)[symbol.val]? = some symbol := by simp
    have hslice := slice_flatMap (fun symbol => length_littleEndian 4 (freqs symbol))
      (littleEndian 4 data.length) (littleEndian 4 (payloadSize lanes)) hitem
    rw [length_littleEndian] at hslice
    rw [headerOf, frequencyBytes, hslice]
    apply ofLittleEndian_littleEndian
    have hle : freqs symbol ≤ probScale :=
      htotal ▸ Finset.single_le_sum (fun _ _ => Nat.zero_le _) (Finset.mem_univ symbol)
    exact hle.trans_lt (by decide)
  have hterminal : (List.finRange numStreams).mapM (checkTerminal finished) =
      .ok ((List.finRange numStreams).map fun _ => ()) :=
    mapM_of_forall _ fun stream _ => require_of _ ⟨(hfinished stream).2, (hfinished stream).1⟩
  have hnonempty : data.length ≠ 0 := fun h => hdata (length_eq_zero_iff.mp h)
  rw [decode, checkedRange_of_eq _ hheader (length_nil).symm (length_headerOf ..).symm
    (length_frameOf_lt hfits _), returned_ok, ok_bind]
  simp only [hcount, hfreqs, hcompressed]
  rw [decodedLen_of_le _ hlen, returned_ok, ok_bind, if_neg hnonempty,
    decodeFrame_frameOf htotal hlanes hfits hlen, hdecode, ok_bind]
  simp only
  rw [hterminal, returned_ok, ok_bind]
  rfl

end Frame

theorem decode_empty : decode (List.replicate headerSize 0) = .ok [] := by
  have hheader : List.replicate headerSize (0 : UInt8) =
      [] ++ (List.replicate headerSize 0 ++ []) := by
    rw [nil_append, append_nil]
  have hsize : (List.replicate headerSize (0 : UInt8)).length = headerSize :=
    length_replicate
  have hcount : ofLittleEndian (slice (List.replicate headerSize 0) 0 4) = 0 := by
    rw [slice, drop_zero, take_replicate]
    rfl
  have hcompressed : ofLittleEndian ((List.replicate headerSize 0).drop (headerSize - 4)) = 0 := by
    rw [drop_replicate]
    rfl
  rw [decode, checkedRange_of_eq _ hheader (length_nil).symm hsize.symm
    (by rw [hsize]; decide), returned_ok, ok_bind]
  simp only [hcount, hcompressed]
  rw [decodedLen_of_le _ (by decide), returned_ok, ok_bind, if_pos rfl, require_of _ ⟨trivial, hsize⟩]
  rfl

theorem payloadSize_lt (htotal : ∑ symbol, freqs symbol = probScale)
    (hoccurring : ∀ byte ∈ data, 0 < freqs byte.toFin) (hlen : data.length ≤ maxDecodedBytes) :
    payloadSize (coded freqs 0 data) < u32Bound := by
  have hsum : ((streamsOf (coded freqs 0 data)).map List.length).sum ≤
      ((streamsOf (coded freqs 0 data)).map List.length).length • (2 * data.length + 4) := by
    refine sum_le_card_nsmul _ _ fun size hsize => ?_
    obtain ⟨stream, hstream, rfl⟩ := mem_map.mp hsize
    obtain ⟨index, -, rfl⟩ := mem_map.mp hstream
    rw [streamBytes, length_append, length_littleEndian]
    exact Nat.add_le_add_right (length_coded_le htotal hoccurring 0 index) 4
  simp only [streamsOf, length_map, length_finRange, smul_eq_mul] at hsum
  simp only [payloadSize, streamsOf, maxDecodedBytes, numStreams, u32Bound] at hsum hlen ⊢
  omega

/-! ## Normalisation -/

theorem lastMax_mem (freqs : Frequencies) {symbols : List (Fin 256)} (h : symbols ≠ []) :
    ∃ symbol ∈ symbols, lastMax freqs symbols = some symbol := by
  induction symbols using List.reverseRecOn with
  | nil => exact absurd rfl h
  | append_singleton known next ih =>
    unfold lastMax at ih ⊢
    rw [foldl_append]
    by_cases hfirst : known = []
    · subst hfirst
      exact ⟨next, mem_singleton_self next, rfl⟩
    · obtain ⟨best, hbest, hknown⟩ := ih hfirst
      rw [hknown]
      simp only [foldl_cons, foldl_nil]
      split
      · exact ⟨next, mem_append_right _ (mem_singleton_self next), rfl⟩
      · exact ⟨best, mem_append_left _ hbest, rfl⟩

theorem weight_update (norm : Frequencies) (symbol : Fin 256) (freq : Nat) :
    weight (Function.update norm symbol freq) + norm symbol = weight norm + freq := by
  rw [weight, weight, Finset.sum_update_of_mem (Finset.mem_univ symbol),
    Finset.sum_eq_add_sum_sdiff_singleton_of_mem (Finset.mem_univ symbol) norm]
  ring

theorem exists_lowerable (h : probScale < weight norm) :
    (List.finRange 256).filter (fun symbol => 1 < norm symbol) ≠ [] := by
  intro hnone
  have hsmall : ∀ symbol ∈ Finset.univ, norm symbol ≤ 1 := by
    intro symbol _
    by_contra hlarge
    have hmem : symbol ∈ (List.finRange 256).filter fun symbol => 1 < norm symbol :=
      mem_filter.mpr ⟨mem_finRange symbol, by simpa using hlarge⟩
    rw [hnone] at hmem
    exact not_mem_nil hmem
  have hsum := Finset.sum_le_card_nsmul Finset.univ norm 1 hsmall
  rw [Finset.card_univ, Fintype.card_fin] at hsum
  exact absurd (h.trans_le hsum) (by decide)

theorem update_pos {symbol other : Fin 256} {freq : Nat} (hfreq : 0 < freq)
    (hother : 0 < norm other) : 0 < Function.update norm symbol freq other := by
  by_cases heq : other = symbol
  · rwa [heq, update_self]
  · rwa [update_of_ne heq]

theorem lowerFrequencies_spec (excess : Nat) (norm : Frequencies)
    (hsum : weight norm = probScale + excess) :
    weight (lowerFrequencies excess norm) = probScale ∧
      ∀ symbol, 0 < norm symbol → 0 < lowerFrequencies excess norm symbol := by
  induction excess generalizing norm with
  | zero => exact ⟨hsum, fun _ h => h⟩
  | succ excess ih =>
    have habove : probScale < weight norm := by omega
    obtain ⟨symbol, hmem, hsymbol⟩ := lastMax_mem norm (exists_lowerable habove)
    have hlarge : 1 < norm symbol := by simpa using (mem_filter.mp hmem).2
    have hupdate := weight_update norm symbol (norm symbol - 1)
    rw [lowerFrequencies]
    simp only [hsymbol, Option.getD_some]
    obtain ⟨htotal, hpositive⟩ := ih (Function.update norm symbol (norm symbol - 1)) (by omega)
    exact ⟨htotal, fun other hother => hpositive other (update_pos (by omega) hother)⟩

theorem raiseFrequencies_spec (missing : Nat) (norm : Frequencies) :
    weight (raiseFrequencies missing norm) = weight norm + missing ∧
      ∀ symbol, 0 < norm symbol → 0 < raiseFrequencies missing norm symbol := by
  induction missing generalizing norm with
  | zero => exact ⟨(Nat.add_zero _).symm, fun _ h => h⟩
  | succ missing ih =>
    rw [raiseFrequencies]
    generalize (lastMax norm (List.finRange 256)).getD 0 = symbol
    have hupdate := weight_update norm symbol (norm symbol + 1)
    obtain ⟨htotal, hpositive⟩ := ih (Function.update norm symbol (norm symbol + 1))
    refine ⟨htotal.trans (by omega), fun other hother => hpositive other ?_⟩
    exact update_pos (Nat.succ_pos _) hother

theorem normalizeFrequencies_normalized (scaled : Nat → Nat → Nat) (hdata : data ≠ []) :
    Normalized (normalizeFrequencies scaled (countFrequencies data) data.length) data := by
  have hcounted : ∀ byte ∈ data, 0 < countFrequencies data byte.toFin := by
    intro byte hbyte
    exact length_pos_of_mem (mem_filter.mpr ⟨hbyte, by simp⟩)
  generalize countFrequencies data = freqs at *
  simp only [normalizeFrequencies]
  generalize hnorm : (fun symbol : Fin 256 =>
    if 0 < freqs symbol then max (scaled (freqs symbol) data.length) 1 else 0) = norm
  have hpresent : ∀ byte ∈ data, 0 < norm byte.toFin := by
    intro byte hbyte
    rw [← hnorm]
    simp only [hcounted byte hbyte, if_true]
    omega
  have hweight : ((List.finRange 256).map norm).sum = weight norm :=
    (Fin.sum_univ_def norm).symm
  have hpositive : 0 < weight norm := by
    obtain ⟨byte, rest, rfl⟩ := exists_cons_of_ne_nil hdata
    exact (hpresent byte mem_cons_self).trans_le
      (Finset.single_le_sum (fun _ _ => Nat.zero_le _) (Finset.mem_univ byte.toFin))
  rw [hweight, if_pos hpositive]
  by_cases hexcess : probScale ≤ weight norm
  · obtain ⟨htotal, hlowered⟩ := lowerFrequencies_spec (weight norm - probScale) norm (by omega)
    rw [Nat.sub_eq_zero_of_le hexcess, raiseFrequencies]
    exact ⟨htotal, fun byte hbyte => hlowered _ (hpresent byte hbyte)⟩
  · rw [Nat.sub_eq_zero_of_le (Nat.le_of_not_le hexcess), lowerFrequencies]
    obtain ⟨htotal, hraised⟩ := raiseFrequencies_spec (probScale - weight norm) norm
    have hfilled : weight norm + (probScale - weight norm) = probScale := by omega
    exact ⟨htotal.trans hfilled, fun byte hbyte => hraised _ (hpresent byte hbyte)⟩

/-- Every byte string of admitted length is encoded and decoded to itself
under every normalized table, and each stream ends in the initial state with
no byte left.  All state arithmetic is checked, so no state leaves 32 bits. -/
theorem encode_lossless (normalize : Frequencies → Nat → Frequencies) (data : Bytes)
    (hlen : data.length ≤ maxDecodedBytes)
    (hnormalized : data ≠ [] → Normalized (normalize (countFrequencies data) data.length) data) :
    ∃ frame, encode normalize data = .ok frame ∧ decode frame = .ok data ∧
      (data ≠ [] → ∃ readers,
        decodeFrame frame data.length (normalize (countFrequencies data) data.length)
          (frame.length - headerSize) = .ok (data, readers) ∧
        ∀ stream, (readers stream).state = ransL ∧ (readers stream).pos = 0) := by
  have hcount : encodeInputLen data.length "rANS" = .ok data.length :=
    encodeInputLen_eq_ok.mpr ⟨hlen, rfl⟩
  by_cases hdata : data = []
  · subst hdata
    exact ⟨_, rfl, decode_empty, fun h => absurd rfl h⟩
  · obtain ⟨htotal, hoccurring⟩ := hnormalized hdata
    generalize hfreqs : normalize (countFrequencies data) data.length = freqs at *
    have hlanes := fun stream => coded_inInterval htotal hoccurring 0 stream
    have hfits := payloadSize_lt htotal hoccurring hlen
    have hmirrors : ∀ stream, Mirrors (coded freqs 0 data stream)
        { state := (coded freqs 0 data stream).state
          stream := streamBytes (coded freqs 0 data stream)
          pos := (coded freqs 0 data stream).bytes.length } :=
      fun stream => ⟨rfl, rfl, prefix_append _ _⟩
    obtain ⟨finished, hdecode, hfinished⟩ := decodeReaders_coded htotal hoccurring 0 hmirrors
    refine ⟨frameOf data.length freqs (coded freqs 0 data), ?_,
      decode_frameOf htotal hlanes hfits hdata hlen hdecode hfinished,
      fun _ => ⟨finished, ?_, hfinished⟩⟩
    · have hisEmpty : ¬data.isEmpty = true := by simpa using hdata
      rw [encode, hcount, returned_ok, ok_bind, if_neg hisEmpty]
      simp only [hfreqs]
      rw [encodeLanes_eq htotal hoccurring, ok_bind, frameLanes_eq _ _ hfits]
    · rw [length_frameOf, Nat.add_sub_cancel_left, decodeFrame_frameOf htotal hlanes hfits hlen]
      exact hdecode

/-- Three bytes, coded with frequencies counted from them. -/
theorem encode_lossless_counted :
    ∃ frame, encode (normalizeFrequencies fun freq total => freq * probScale / total) [7, 7, 9] =
      .ok frame ∧ decode frame = .ok [7, 7, 9] := by
  obtain ⟨frame, hencode, hdecode, -⟩ := encode_lossless
    (normalizeFrequencies fun freq total => freq * probScale / total) [7, 7, 9] (by decide)
    (normalizeFrequencies_normalized _)
  exact ⟨frame, hencode, hdecode⟩

end Rans
end NodeDB.Codec
