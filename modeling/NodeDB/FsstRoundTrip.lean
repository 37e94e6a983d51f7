import NodeDB.Fsst

/-!
# What FSST writes and reads back

A frame that the encoder accepts is read back up to two limits that only the
decoder applies: the allocations for the string containers, and eight bytes
of output for every byte of an encoded string.
-/

namespace NodeDB.Codec
namespace Fsst

open ByteFrame List

/-! ## One string -/

variable {offset : Nat} {encodedStrings : List Bytes} {table : SymbolTable} {strings : List Bytes}
  {total : Nat} {drain : Drain} {frame : Bytes} {symbols : List Symbol} {symbol : Symbol}
  {byte : UInt8}

theorem find_zipIdx {input : Bytes} {idx : Nat}
    (h : symbols.zipIdx.find? (fun entry => entry.1.1.isPrefixOf input) = some (symbol, idx)) :
    symbols[idx]? = some symbol ∧ symbol.1 <+: input := by
  constructor
  · exact mem_zipIdx_iff_getElem?.mp (mem_of_find?_eq_some h)
  · have hmatch := find?_some h
    exact isPrefixOf_iff_prefix.mp hmatch

theorem symbol_append_drop {rest : Bytes} (h : symbol.1 <+: byte :: rest) :
    symbol.1 ++ rest.drop (symbol.1.length - 1) = byte :: rest := by
  obtain ⟨len, hlen⟩ : ∃ len, symbol.1.length = len + 1 :=
    ⟨symbol.1.length - 1, by have := symbol.2.1; omega⟩
  have hdrop := prefix_iff_eq_append.mp h
  rw [hlen, drop_succ_cons] at hdrop
  rw [hlen, Nat.add_sub_cancel]
  exact hdrop

theorem decodeSymbols_escape (symbols : List Bytes) (literal : UInt8) (rest out : Bytes) :
    decodeSymbols symbols (escape :: literal :: rest) out =
      decodeSymbols symbols rest (out ++ [literal]) := by
  simp [decodeSymbols]

theorem decodeSymbols_symbol {symbols : List Bytes} {symbol : Bytes} (rest out : Bytes)
    (hescape : byte ≠ escape) (hsymbol : symbols[byte.toNat]? = some symbol)
    (hroom : out.length + symbol.length ≤ maxDecodedBytes) :
    decodeSymbols symbols (byte :: rest) out = decodeSymbols symbols rest (out ++ symbol) := by
  rw [decodeSymbols.eq_def]
  simp only [if_neg hescape, hsymbol]
  rw [checkedAdd_of_lt _ (lt_usizeBound_of_le hroom), ok_bind, decodedLen_of_le _ hroom, ok_bind]

theorem decodeSymbols_encodeSymbols (hfew : symbols.length ≤ maxSymbols) (skip : Nat)
    (input out : Bytes) (hfits : out.length + (input.drop skip).length ≤ maxDecodedBytes) :
    decodeSymbols (symbols.map Subtype.val) (encodeSymbols symbols skip input) out =
      .ok (out ++ input.drop skip) := by
  fun_induction encodeSymbols symbols skip input generalizing out with
  | case1 skip => simp [decodeSymbols]
  | case2 skip byte rest ih => exact ih out hfits
  | case3 byte rest symbol idx hfound ih =>
    obtain ⟨hidx, hmatch⟩ := find_zipIdx hfound
    have hlt : idx < 255 := (List.getElem?_eq_some_iff.mp hidx).1.trans_le hfew
    have hindex : (UInt8.ofNat idx).toNat = idx := by
      rw [UInt8.toNat_ofNat']
      omega
    have hescape : UInt8.ofNat idx ≠ escape := by
      intro h
      rw [h] at hindex
      exact hlt.ne hindex.symm
    have hsymbol : (symbols.map Subtype.val)[(UInt8.ofNat idx).toNat]? = some symbol.1 := by
      rw [hindex, getElem?_map, hidx]
      rfl
    have hsplit := symbol_append_drop hmatch
    have hlen := congrArg List.length hsplit
    rw [length_append] at hlen
    rw [drop_zero] at hfits
    rw [decodeSymbols_symbol _ _ hescape hsymbol (by omega), ih (out ++ symbol.1) ?_,
      append_assoc, hsplit, drop_zero]
    rw [length_append]
    omega
  | case4 byte rest hnone ih =>
    rw [drop_zero, length_cons] at hfits
    rw [decodeSymbols_escape, ih (out ++ [byte]) ?_, drop_zero, drop_zero,
      append_assoc, singleton_append]
    rw [drop_zero, length_append, length_singleton]
    omega

def Expandable (encoded : Bytes) : Prop := encoded.length * maxSymbolLen ≤ maxDecodedBytes
  deriving Decidable

theorem decodeString_eq_ok {symbols : List Bytes} {encoded decoded : Bytes} :
    decodeString symbols encoded = .ok decoded ↔
      Expandable encoded ∧ decodeSymbols symbols encoded [] = .ok decoded := by
  simp only [decodeString, bind_eq_ok, checkedMul_eq_ok, decodedLen_eq_ok, Expandable]
  constructor
  · rintro ⟨_, ⟨-, rfl⟩, _, ⟨hle, -⟩, hdecoded⟩
    exact ⟨hle, hdecoded⟩
  · rintro ⟨hle, hdecoded⟩
    exact ⟨_, ⟨lt_usizeBound_of_le hle, rfl⟩, _, ⟨hle, rfl⟩, hdecoded⟩

/-! ## The offsets -/

/-- Where each encoded string ends, the first of them starting at `offset`. -/
def stops : Nat → List Bytes → List Nat
  | _, [] => []
  | offset, encoded :: rest => (offset + encoded.length) :: stops (offset + encoded.length) rest

@[simp]
theorem length_stops (offset : Nat) (encodedStrings : List Bytes) :
    (stops offset encodedStrings).length = encodedStrings.length := by
  induction encodedStrings generalizing offset with
  | nil => rfl
  | cons encoded rest ih => simp [stops, ih]

theorem le_of_mem_stops {stop : Nat} (h : stop ∈ stops offset encodedStrings) :
    stop ≤ offset + encodedStrings.flatten.length := by
  induction encodedStrings generalizing offset with
  | nil => simp [stops] at h
  | cons encoded rest ih =>
    rw [flatten_cons, length_append]
    obtain rfl | hrest := mem_cons.mp h
    · omega
    · have := ih hrest
      omega

theorem encodeOffsets_eq (h : offset + encodedStrings.flatten.length < u32Bound) :
    encodeOffsets encodedStrings offset =
      .ok ((stops offset encodedStrings).flatMap (littleEndian 4)) := by
  induction encodedStrings generalizing offset with
  | nil => rfl
  | cons encoded rest ih =>
    rw [flatten_cons, length_append, ← Nat.add_assoc] at h
    have hstop : offset + encoded.length < u32Bound := by omega
    rw [encodeOffsets, checkedAdd_of_lt _ (hstop.trans u32Bound_lt_usizeBound), ok_bind,
      encodeU32Len_eq_ok.mpr ⟨hstop, rfl⟩, ok_bind, ih h, ok_bind]
    rfl

theorem readOffsets_flatMap (offsets : List Nat) (h : ∀ offset ∈ offsets, offset < u32Bound) :
    readOffsets offsets.length (offsets.flatMap (littleEndian 4)) = offsets := by
  induction offsets with
  | nil => rfl
  | cons offset rest ih =>
    rw [length_cons, readOffsets, flatMap_cons,
      ofLittleEndian_take _ (h offset mem_cons_self), drop_littleEndian,
      ih fun later hlater => h later (mem_cons_of_mem _ hlater)]

/-! ## The strings -/

section Strings

variable {symbols : List Symbol} (hfew : symbols.length ≤ maxSymbols)
include hfew

theorem decodeString_encodeSymbols {string decoded : Bytes}
    (hfits : string.length ≤ maxDecodedBytes) :
    decodeString (symbols.map Subtype.val) (encodeSymbols symbols 0 string) = .ok decoded ↔
      Expandable (encodeSymbols symbols 0 string) ∧ string = decoded := by
  have hdecode := decodeSymbols_encodeSymbols hfew 0 string [] (by simpa using hfits)
  rw [decodeString_eq_ok, hdecode, Except.ok.injEq, nil_append, drop_zero]

theorem decodeStrings_stops (strings : List Bytes) (before : Bytes) (decodedTotal : Nat)
    (result : List Bytes × Nat)
    (hfits : decodedTotal + strings.flatten.length ≤ maxDecodedBytes) :
    decodeStrings (symbols.map Subtype.val)
        (before ++ (strings.map (encodeSymbols symbols 0)).flatten)
        (stops before.length (strings.map (encodeSymbols symbols 0))) before.length
        decodedTotal = .ok result ↔
      (∀ string ∈ strings, Expandable (encodeSymbols symbols 0 string)) ∧
        (strings, before.length + (strings.map (encodeSymbols symbols 0)).flatten.length) =
          result := by
  induction strings generalizing before decodedTotal result with
  | nil => simp [stops, decodeStrings]
  | cons string rest ih =>
    rw [flatten_cons, length_append] at hfits
    have htotal : decodedTotal + string.length ≤ maxDecodedBytes := by omega
    have hadd := checkedAdd_of_lt "FSST decoded bytes" (lt_usizeBound_of_le htotal)
    -- the encoded string joins what is already read
    have hrest := fun later : List Bytes × Nat =>
      ih (before ++ encodeSymbols symbols 0 string) (decodedTotal + string.length) later
        (by omega)
    simp only [append_assoc, length_append] at hrest
    rw [map_cons, stops, flatten_cons, decodeStrings, require_of _ (by
      simp only [length_append]
      omega), ok_bind, Nat.add_sub_cancel_left, slice_append, bind_eq_ok]
    constructor
    · rintro ⟨decoded, hdecoded, hlater⟩
      obtain ⟨hexpandable, rfl⟩ :=
        (decodeString_encodeSymbols hfew (by omega)).mp hdecoded
      rw [hadd, ok_bind, decodedLen_of_le _ htotal, ok_bind, bind_eq_ok] at hlater
      obtain ⟨later, hlater, hresult⟩ := hlater
      obtain ⟨hall, rfl⟩ := (hrest later).mp hlater
      refine ⟨forall_mem_cons.mpr ⟨hexpandable, hall⟩, ?_⟩
      rw [length_append, ← Nat.add_assoc]
      exact Except.ok.inj hresult
    · rintro ⟨hall, rfl⟩
      obtain ⟨hexpandable, hall⟩ := forall_mem_cons.mp hall
      refine ⟨string, (decodeString_encodeSymbols hfew (by omega)).mpr ⟨hexpandable, rfl⟩, ?_⟩
      rw [hadd, ok_bind, decodedLen_of_le _ htotal, ok_bind,
        (hrest _).mpr ⟨hall, rfl⟩, ok_bind, length_append, Nat.add_assoc]
      rfl

end Strings

/-! ## The symbol table -/

def symbolEntry (symbol : Symbol) : Bytes :=
  littleEndian 1 symbol.1.length ++ symbol.1

theorem readSymbols_flatMap {data before after : Bytes} (symbols : List Symbol)
    (known : List Bytes) (hdata : data = before ++ (symbols.flatMap symbolEntry ++ after))
    (hsize : data.length < usizeBound) (hdistinct : (known ++ symbols.map Subtype.val).Nodup) :
    readSymbols data symbols.length before.length known =
      .ok (known ++ symbols.map Subtype.val,
        before.length + (symbols.flatMap symbolEntry).length) := by
  induction symbols generalizing before known with
  | nil => simp [readSymbols]
  | cons symbol rest ih =>
    obtain ⟨hpos, hlen⟩ := symbol.2
    have hlength := congrArg List.length hdata
    simp only [flatMap_cons, symbolEntry, length_append, length_littleEndian] at hlength
    have hvalue : ofLittleEndian (littleEndian 1 symbol.1.length) = symbol.1.length :=
      ofLittleEndian_littleEndian (by simp only [maxSymbolLen] at hlen; omega)
    have hentry : data = before ++ (littleEndian 1 symbol.1.length ++
        (symbol.1 ++ (rest.flatMap symbolEntry ++ after))) := by
      rw [hdata]
      simp only [flatMap_cons, symbolEntry, append_assoc]
    have hsymbol : data = (before ++ littleEndian 1 symbol.1.length) ++
        (symbol.1 ++ (rest.flatMap symbolEntry ++ after)) := by
      rw [hentry, append_assoc]
    have hlater : data = (before ++ symbolEntry symbol) ++
        (rest.flatMap symbolEntry ++ after) := by
      rw [hsymbol]
      simp only [symbolEntry, append_assoc]
    have hnew : symbol.1 ∉ known := by
      intro hmem
      exact (nodup_append.mp hdistinct).2.2 _ hmem _ mem_cons_self rfl
    have hnext : before.length + 1 + symbol.1.length = (before ++ symbolEntry symbol).length := by
      simp only [symbolEntry, length_append, length_littleEndian]
      omega
    rw [length_cons, readSymbols,
      checkedRange_of_eq _ hentry rfl (length_littleEndian 1 _).symm hsize, ok_bind]
    simp only [hvalue]
    rw [checkedAdd_of_lt _ (by omega), ok_bind, require_of _ (by omega), ok_bind,
      checkedRange_of_eq _ hsymbol (by simp) rfl hsize, ok_bind, require_of _ hnew, ok_bind,
      checkedAdd_of_lt _ (by omega), ok_bind, hnext,
      ih (known ++ [symbol.1]) hlater (by simpa using hdistinct)]
    simp [append_assoc, Nat.add_assoc]

/-! ## The frame -/

def frameOf (table : SymbolTable) (strings : List Bytes) : Bytes :=
  let encodedStrings := strings.map (encodeSymbols table.symbols 0)
  littleEndian 2 table.symbols.length ++
    (table.symbols.flatMap symbolEntry ++
      (littleEndian 4 encodedStrings.flatten.length ++ littleEndian 4 strings.length ++
        ((stops 0 encodedStrings).flatMap (littleEndian 4) ++ encodedStrings.flatten)))

theorem length_frameOf (table : SymbolTable) (strings : List Bytes) :
    (frameOf table strings).length =
      2 + (table.symbols.map fun symbol => 1 + symbol.1.length).sum + 8 +
        (strings.length * 4 + (strings.map (encodeSymbols table.symbols 0)).flatten.length) := by
  simp [frameOf, symbolEntry, length_flatMap, Function.comp_def]
  omega

structure Accepted (table : SymbolTable) (strings : List Bytes) : Prop where
  input : strings.flatten.length ≤ maxDecodedBytes
  each : ∀ string ∈ strings, string.length * 2 ≤ maxDecodedBytes
  output : (frameOf table strings).length ≤ maxDecodedBytes

theorem encodeString_eq_ok {string encoded : Bytes} :
    encodeString table string = .ok encoded ↔
      string.length * 2 ≤ maxDecodedBytes ∧ encodeSymbols table.symbols 0 string = encoded := by
  simp only [encodeString, bind_eq_ok, checkedMul_eq_ok, decodedLen_eq_ok]
  constructor
  · rintro ⟨_, ⟨-, rfl⟩, _, ⟨hle, -⟩, hencoded⟩
    exact ⟨hle, Except.ok.inj hencoded⟩
  · rintro ⟨hle, rfl⟩
    exact ⟨_, ⟨lt_usizeBound_of_le hle, rfl⟩, _, ⟨hle, rfl⟩, rfl⟩

theorem mapM_encodeString :
    strings.mapM (encodeString table) = .ok encodedStrings ↔
      (∀ string ∈ strings, string.length * 2 ≤ maxDecodedBytes) ∧
        strings.map (encodeSymbols table.symbols 0) = encodedStrings :=
  mapM_eq_ok (fun _ _ => encodeString_eq_ok) strings

theorem foldlM_length (strings : List Bytes) (context : String) :
    strings.foldlM (fun total string => checkedAdd total string.length context) 0 = .ok total ↔
      strings.flatten.length < usizeBound ∧ strings.flatten.length = total := by
  have hstep : ∀ (total : Nat) (string : Bytes) (next : Nat),
      checkedAdd total string.length context = .ok next ↔
        total + string.length < usizeBound ∧ total + string.length = next :=
    fun _ _ _ => checkedAdd_eq_ok
  rw [foldlM_sum hstep strings (by decide), Nat.zero_add, length_flatten]

theorem foldlM_symbols (symbols : List Symbol) :
    symbols.foldlM (fun total symbol => do
        let total ← checkedAdd total 1 "FSST symbols"
        checkedAdd total symbol.1.length "FSST symbols") 0 = .ok total ↔
      (symbols.map fun symbol => 1 + symbol.1.length).sum < usizeBound ∧
        (symbols.map fun symbol => 1 + symbol.1.length).sum = total := by
  have hstep : ∀ (total : Nat) (symbol : Symbol) (next : Nat),
      (do
        let total ← checkedAdd total 1 "FSST symbols"
        checkedAdd total symbol.1.length "FSST symbols") = .ok next ↔
        total + (1 + symbol.1.length) < usizeBound ∧ total + (1 + symbol.1.length) = next := by
    intro total symbol next
    simp only [bind_eq_ok, checkedAdd_eq_ok]
    constructor
    · rintro ⟨_, ⟨-, rfl⟩, hlt, rfl⟩
      omega
    · rintro ⟨hlt, rfl⟩
      exact ⟨_, ⟨by omega, rfl⟩, by omega, by omega⟩
  rw [foldlM_sum hstep symbols (by decide), Nat.zero_add]

theorem encode_eq_ok :
    encode drain strings = .ok frame ↔
      Accepted (SymbolTable.train drain strings) strings ∧
        frameOf (SymbolTable.train drain strings) strings = frame := by
  generalize htable : SymbolTable.train drain strings = table
  have hlength := length_frameOf table strings
  simp only [encode, htable, bind_eq_ok, encodeInputLen_eq_ok, foldlM_length, decodedLen_eq_ok,
    mapM_encodeString, encodeU32Len_eq_ok, checkedMul_eq_ok, foldlM_symbols, checkedAdd_eq_ok]
  constructor
  · rintro ⟨_, ⟨-, rfl⟩, _, ⟨-, rfl⟩, _, ⟨hinput, -⟩, _, ⟨heach, rfl⟩, _, ⟨-, rfl⟩, _, ⟨-, -⟩, _,
      ⟨hencoded, rfl⟩, _, ⟨-, rfl⟩, _, ⟨-, -⟩, _, ⟨-, rfl⟩, _, ⟨-, rfl⟩, _, ⟨-, rfl⟩, _, ⟨-, rfl⟩,
      _, ⟨-, rfl⟩, _, ⟨houtput, -⟩, _, ⟨-, rfl⟩, offsets, hoffsets, hframe⟩
    rw [encodeOffsets_eq (by rwa [Nat.zero_add])] at hoffsets
    obtain rfl := Except.ok.inj hoffsets
    exact ⟨⟨hinput, heach, hlength ▸ houtput⟩, Except.ok.inj hframe⟩
  · rintro ⟨⟨hinput, heach, houtput⟩, rfl⟩
    -- every other limit follows from that on the output
    have hword := maxDecodedBytes_lt_u32Bound
    have hsize := u32Bound_lt_usizeBound
    rw [hlength] at houtput
    refine ⟨_, ⟨by omega, rfl⟩, _, ⟨by omega, rfl⟩, _, ⟨hinput, rfl⟩, _, ⟨heach, rfl⟩, _,
      ⟨by omega, rfl⟩, _, ⟨by omega, rfl⟩, _, ⟨by omega, rfl⟩, _, ⟨by omega, rfl⟩, _,
      ⟨by omega, rfl⟩, _, ⟨by omega, rfl⟩, _, ⟨by omega, rfl⟩, _, ⟨by omega, rfl⟩, _,
      ⟨by omega, rfl⟩, _, ⟨by omega, rfl⟩, _, ⟨houtput, rfl⟩, _, ⟨by omega, rfl⟩, _,
      encodeOffsets_eq (by omega), rfl⟩

/-! ## Reading the frame -/

theorem frameOf_header (table : SymbolTable) (strings : List Bytes) :
    frameOf table strings =
      (littleEndian 2 table.symbols.length ++ table.symbols.flatMap symbolEntry) ++
        ((littleEndian 4 (strings.map (encodeSymbols table.symbols 0)).flatten.length ++
            littleEndian 4 strings.length) ++
          ((stops 0 (strings.map (encodeSymbols table.symbols 0))).flatMap (littleEndian 4) ++
            (strings.map (encodeSymbols table.symbols 0)).flatten)) := by
  simp only [frameOf, append_assoc]

def containerBytes (strings : List Bytes) : Nat :=
  strings.length * usizeSize + strings.length * vecSize

section Frame

variable {table : SymbolTable} {strings : List Bytes} (haccepted : Accepted table strings)
include haccepted

theorem frameOf_fits : (frameOf table strings).length < usizeBound :=
  lt_usizeBound_of_le haccepted.output

theorem decode_frameOf_head :
    decode (frameOf table strings) =
      decodeBody (frameOf table strings) (table.symbols.map Subtype.val)
        (2 + (table.symbols.flatMap symbolEntry).length) := by
  have hfew := table.few
  have hlength := length_frameOf table strings
  have hslice : slice (frameOf table strings) 0 2 = littleEndian 2 table.symbols.length :=
    take_left' (length_littleEndian 2 _)
  have hcount : ofLittleEndian (littleEndian 2 table.symbols.length) = table.symbols.length :=
    ofLittleEndian_littleEndian (hfew.trans_lt (by decide))
  have hcapacity : table.symbols.length * vecSize ≤ maxDecodedBytes :=
    (Nat.mul_le_mul_right vecSize hfew).trans (by decide)
  have hdata : frameOf table strings = littleEndian 2 table.symbols.length ++
      (table.symbols.flatMap symbolEntry ++ _) :=
    rfl
  have hread := readSymbols_flatMap table.symbols [] hdata (frameOf_fits haccepted)
    (table.distinct.map Subtype.val_injective)
  rw [length_littleEndian] at hread
  rw [decode, require_of _ (by omega), ok_bind]
  simp only [hslice, hcount]
  rw [require_of _ (by omega), ok_bind, checkedCapacity_of_le _ hcapacity, ok_bind, hread, ok_bind]
  rfl

theorem checkedRange_header :
    checkedRange (frameOf table strings) (2 + (table.symbols.flatMap symbolEntry).length) 8
        "FSST header" =
      .ok (littleEndian 4 (strings.map (encodeSymbols table.symbols 0)).flatten.length ++
        littleEndian 4 strings.length) :=
  checkedRange_of_eq _ (frameOf_header table strings) (by simp) (by simp) (frameOf_fits haccepted)

theorem accepted_bounds :
    (strings.map (encodeSymbols table.symbols 0)).flatten.length ≤ maxDecodedBytes ∧
      strings.length * 4 ≤ maxDecodedBytes := by
  have hlength := length_frameOf table strings
  have houtput := haccepted.output
  omega

theorem header_total :
    ofLittleEndian ((littleEndian 4 (strings.map (encodeSymbols table.symbols 0)).flatten.length ++
        littleEndian 4 strings.length).take 4) =
      (strings.map (encodeSymbols table.symbols 0)).flatten.length :=
  ofLittleEndian_take _ ((accepted_bounds haccepted).1.trans_lt maxDecodedBytes_lt_u32Bound)

theorem header_count :
    ofLittleEndian ((littleEndian 4 (strings.map (encodeSymbols table.symbols 0)).flatten.length ++
        littleEndian 4 strings.length).drop 4) = strings.length := by
  have hbounds := accepted_bounds haccepted
  have hword := maxDecodedBytes_lt_u32Bound
  rw [drop_littleEndian]
  exact ofLittleEndian_littleEndian (show strings.length < u32Bound by omega)

theorem decode_frameOf_many (hmany : maxDecodedBytes < containerBytes strings) :
    decode (frameOf table strings) =
      .error (.resourceLimit "FSST containers decoded bytes" (containerBytes strings)
        maxDecodedBytes) := by
  obtain ⟨hencoded, hoffsets⟩ := accepted_bounds haccepted
  have hsize : strings.length * 32 < usizeBound := by
    simp only [maxDecodedBytes, usizeBound] at hoffsets ⊢
    omega
  rw [containerBytes] at hmany ⊢
  rw [decode_frameOf_head haccepted, decodeBody, checkedRange_header haccepted, ok_bind]
  simp only [header_total haccepted, header_count haccepted]
  rw [decodedLen_of_le _ hencoded, ok_bind,
    checkedMul_of_lt _ (by simp only [usizeSize]; omega), ok_bind,
    checkedMul_of_lt _ (by simp only [vecSize]; omega), ok_bind,
    checkedAdd_of_lt _ (by simp only [usizeSize, vecSize]; omega), ok_bind, decodedLen,
    if_pos hmany]
  rfl

theorem decode_frameOf_few (hroom : containerBytes strings ≤ maxDecodedBytes)
    {result : List Bytes} :
    decode (frameOf table strings) = .ok result ↔
      (∀ string ∈ strings, Expandable (encodeSymbols table.symbols 0 string)) ∧
        strings = result := by
  obtain ⟨hencoded, hoffsets⟩ := accepted_bounds haccepted
  have hword := maxDecodedBytes_lt_u32Bound
  have hsize := u32Bound_lt_usizeBound
  have hfits := frameOf_fits haccepted
  have hheader := congrArg List.length (frameOf_header table strings)
  have hflat : ((stops 0 (strings.map (encodeSymbols table.symbols 0))).flatMap
      (littleEndian 4)).length = strings.length * 4 := by
    simp [length_flatMap]
  simp only [length_append, length_littleEndian, hflat] at hheader
  have hreserved := hroom
  simp only [containerBytes, usizeSize, vecSize] at hreserved
  rw [containerBytes] at hroom
  have hstops : readOffsets strings.length
      ((stops 0 (strings.map (encodeSymbols table.symbols 0))).flatMap (littleEndian 4)) =
        stops 0 (strings.map (encodeSymbols table.symbols 0)) := by
    have hread := readOffsets_flatMap (stops 0 (strings.map (encodeSymbols table.symbols 0)))
      fun stop hstop => by have := le_of_mem_stops hstop; omega
    rwa [length_stops, length_map] at hread
  have hoffsetsAt := frameOf_header table strings
  rw [← append_assoc] at hoffsetsAt
  have hdataAt := hoffsetsAt.trans (append_assoc ..).symm
  rw [decode_frameOf_head haccepted, decodeBody, checkedRange_header haccepted, ok_bind]
  simp only [header_total haccepted, header_count haccepted]
  rw [decodedLen_of_le _ hencoded, ok_bind,
    checkedMul_of_lt _ (by simp only [usizeSize]; omega), ok_bind,
    checkedMul_of_lt _ (by simp only [vecSize]; omega), ok_bind,
    checkedAdd_of_lt _ (by simp only [usizeSize, vecSize]; omega), ok_bind,
    decodedLen_of_le _ hroom, ok_bind, checkedAdd_of_lt _ (by omega), ok_bind,
    checkedMul_of_lt _ (by omega), ok_bind, decodedLen_of_le _ hoffsets, ok_bind,
    checkedRange_of_eq _ hoffsetsAt (by simp; omega) hflat.symm hfits, ok_bind,
    checkedCapacity_of_le _ (by simp only [usizeSize]; omega), ok_bind,
    checkedAdd_of_lt _ (by omega), ok_bind,
    checkedRange_last _ hdataAt (by simp [hflat]; omega) rfl hfits, ok_bind,
    checkedAdd_of_lt _ (by omega), ok_bind, require_of _ (by omega), ok_bind,
    checkedCapacity_of_le _ (by simp only [vecSize]; omega), ok_bind, hstops, bind_eq_ok]
  have hdecode := fun result => decodeStrings_stops table.few strings [] 0 result
    (by rw [Nat.zero_add]; exact haccepted.input)
  simp only [nil_append, length_nil, Nat.zero_add] at hdecode
  simp only [hdecode]
  constructor
  · rintro ⟨_, ⟨hall, rfl⟩, hresult⟩
    rw [require_of _ rfl, ok_bind] at hresult
    exact ⟨hall, Except.ok.inj hresult⟩
  · rintro ⟨hall, rfl⟩
    refine ⟨_, ⟨hall, rfl⟩, ?_⟩
    rw [require_of _ rfl, ok_bind]
    rfl

end Frame

/-! ## Both directions -/

def Readable (drain : Drain) (strings : List Bytes) : Prop :=
  containerBytes strings ≤ maxDecodedBytes ∧
    ∀ string ∈ strings,
      Expandable (encodeSymbols (SymbolTable.train drain strings).symbols 0 string)

theorem decode_encode {result : List Bytes} (hencode : encode drain strings = .ok frame) :
    decode frame = .ok result ↔ Readable drain strings ∧ strings = result := by
  obtain ⟨haccepted, rfl⟩ := encode_eq_ok.mp hencode
  by_cases hroom : containerBytes strings ≤ maxDecodedBytes
  · rw [decode_frameOf_few haccepted hroom]
    simp only [Readable, hroom, true_and]
  · rw [decode_frameOf_many haccepted (Nat.lt_of_not_le hroom)]
    simp only [Readable, hroom, false_and, reduceCtorEq]

theorem joinDelimited_later (delimiter : UInt8) (strings : List Bytes) (out : Bytes)
    (h : (out ++ strings.flatMap (delimiter :: ·)).length ≤ maxDecodedBytes) :
    joinDelimited delimiter false strings out =
      .ok (out ++ strings.flatMap (delimiter :: ·)) := by
  induction strings generalizing out with
  | nil => simp [joinDelimited]
  | cons string rest ih =>
    have hjoined : out ++ (string :: rest).flatMap (delimiter :: ·) =
        (out ++ [delimiter] ++ string) ++ rest.flatMap (delimiter :: ·) := by
      simp
    rw [hjoined] at h ⊢
    have hlen := h
    simp only [length_append] at hlen
    have hroom : out.length + [delimiter].length + string.length ≤ maxDecodedBytes := by omega
    have hseparator : out.length + [delimiter].length ≤ maxDecodedBytes := by omega
    rw [joinDelimited, if_neg (by decide), checkedAdd_of_lt _ (lt_usizeBound_of_le hseparator),
      ok_bind, checkedAdd_of_lt _ (lt_usizeBound_of_le hroom), ok_bind,
      decodedLen_of_le _ hroom, ok_bind, ih _ h]

theorem intercalate_cons_flatMap (delimiter : UInt8) (string : Bytes) (rest : List Bytes) :
    [delimiter].intercalate (string :: rest) = string ++ rest.flatMap (delimiter :: ·) := by
  induction rest generalizing string with
  | nil => simp
  | cons next rest ih => simp [intercalate_cons_cons, ih]

theorem joinDelimited_intercalate (delimiter : UInt8) (strings : List Bytes)
    (h : ([delimiter].intercalate strings).length ≤ maxDecodedBytes) :
    joinDelimited delimiter true strings [] = .ok ([delimiter].intercalate strings) := by
  cases strings with
  | nil => rfl
  | cons string rest =>
    rw [intercalate_cons_flatMap] at h ⊢
    have hroom : string.length ≤ maxDecodedBytes := by
      rw [length_append] at h
      omega
    rw [joinDelimited, if_pos rfl]
    simp only [length_nil, append_nil, nil_append]
    rw [checkedAdd_of_lt _ (by decide), ok_bind, Nat.add_zero, checkedAdd_of_lt _ (by
      rw [Nat.zero_add]
      exact lt_usizeBound_of_le hroom), ok_bind, Nat.zero_add, decodedLen_of_le _ hroom, ok_bind,
      joinDelimited_later delimiter rest string h]

/-- Every frame decodes to the strings it was made of exactly when these are readable, joined
by a delimiter or not. -/
theorem encode_lossless_iff (drain : Drain) :
    (∀ strings frame, encode drain strings = .ok frame →
      (decode frame = .ok strings ↔ Readable drain strings)) ∧
    (∀ data delimiter frame, encodeDelimited drain data delimiter = .ok frame →
      (decodeDelimited frame delimiter = .ok data ↔
        Readable drain (data.splitOn delimiter))) := by
  constructor
  · intro strings frame hencode
    rw [decode_encode hencode]
    exact and_iff_left rfl
  · intro data delimiter frame hencode
    simp only [encodeDelimited, bind_eq_ok, decodedLen_eq_ok] at hencode
    obtain ⟨_, ⟨hdata, -⟩, hencode⟩ := hencode
    have hjoin : [delimiter].intercalate (data.splitOn delimiter) = data :=
      intercalate_splitOn delimiter
    have hjoined := joinDelimited_intercalate delimiter (data.splitOn delimiter)
    rw [hjoin] at hjoined
    simp only [decodeDelimited, bind_eq_ok, decode_encode hencode]
    constructor
    · rintro ⟨_, ⟨hreadable, -⟩, -⟩
      exact hreadable
    · intro hreadable
      exact ⟨_, ⟨hreadable, rfl⟩, hjoined hdata⟩

def Drain.inOrder : Drain where
  order := fun _ candidates => candidates
  perm := fun _ _ => .refl _

/-- One string of one repeated byte. -/
theorem encode_lossless_iff_repeat :
    decode [1, 0, 2, 97, 97, 1, 0, 0, 0, 1, 0, 0, 0, 1, 0, 0, 0, 0] = .ok [[97, 97]] :=
  ((encode_lossless_iff Drain.inOrder).1 [[97, 97]] _ rfl).mpr
    ⟨by decide, by decide⟩

theorem countUncovered_empty (symbols : List Symbol) (h : ∀ string ∈ strings, string = []) :
    strings.foldl (fun counted string => countUncovered symbols 0 string counted) [] = [] := by
  induction strings with
  | nil => rfl
  | cons string rest ih =>
    obtain ⟨rfl, hrest⟩ := forall_mem_cons.mp h
    exact ih hrest

theorem train_empty (drain : Drain) (h : ∀ string ∈ strings, string = []) :
    (SymbolTable.train drain strings).symbols = [] := by
  have hrounds : trainRounds drain strings trainingRounds [] = [] := by
    rw [trainingRounds, trainRounds, countUncovered_empty [] h]
    rfl
  unfold SymbolTable.train
  split
  · rfl
  · simp only [hrounds, insertionSort_nil]

/-- Two million empty strings are encoded, and the frame cannot be decoded. -/
theorem encode_unreadable :
    ∃ frame, encode Drain.inOrder (List.replicate 2097153 []) = .ok frame ∧
      decode frame = .error (.resourceLimit "FSST containers decoded bytes" 67108896 67108864) := by
  have hempty : ∀ string ∈ List.replicate 2097153 ([] : Bytes), string = [] :=
    fun string hmem => eq_of_mem_replicate hmem
  have htrain := train_empty Drain.inOrder hempty
  have hencoded : encodeSymbols [] 0 [] = [] := rfl
  have haccepted : Accepted (SymbolTable.train Drain.inOrder (List.replicate 2097153 []))
      (List.replicate 2097153 []) := by
    refine ⟨?_, ?_, ?_⟩
    · rw [flatten_replicate_nil]
      exact Nat.zero_le _
    · intro string hmem
      rw [hempty string hmem]
      exact Nat.zero_le _
    · rw [length_frameOf, htrain, map_replicate, hencoded, flatten_replicate_nil, length_replicate]
      decide
  refine ⟨_, encode_eq_ok.mpr ⟨haccepted, rfl⟩, ?_⟩
  have hcontainers : containerBytes (List.replicate 2097153 []) = 67108896 := by
    rw [containerBytes, length_replicate]
    rfl
  rw [decode_frameOf_many haccepted (by rw [hcontainers]; decide), hcontainers]
  rfl

end Fsst
end NodeDB.Codec
