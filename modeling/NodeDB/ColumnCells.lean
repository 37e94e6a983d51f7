import NodeDB.ColumnData

/-!
# What a column holds

A column is read row by row.  Appending a cell changes no row before it and
adds one that depends on the cell alone, and cutting a column back forgets
what was appended since.  Both are shown for each layout and then for every
kind of column, so that the memtable above needs neither.
-/

namespace NodeDB.Columnar

open List Option ByteFrame Except

/-! ## Validity bits -/

def ValidFor (valid : Option (List Bool)) (n : Nat) : Prop :=
  ∀ bits ∈ valid, bits.length = n

def emptiedValid (valid : Option (List Bool)) : Option (List Bool) :=
  valid.map fun _ => []

section Validity

variable {valid : Option (List Bool)} {n : Nat} {bit : Bool}

theorem ValidFor.push (h : ValidFor valid n) : ValidFor (pushValid valid bit) (n + 1) := by
  cases valid with
  | none => simp [ValidFor, pushValid]
  | some bits =>
    have hlength : bits.length = n := h bits rfl
    simp [ValidFor, pushValid, hlength]

theorem isNull_pushValid_of_lt (h : ValidFor valid n) {row : Nat} (hrow : row < n) :
    isNull (pushValid valid bit) row = isNull valid row := by
  cases valid with
  | none => rfl
  | some bits =>
    have hlength : bits.length = n := h bits rfl
    simp [isNull, pushValid, getElem?_append_left (hlength ▸ hrow)]

theorem isNull_pushValid_self (h : ValidFor valid n) :
    isNull (pushValid valid bit) n = isNull (pushValid (emptiedValid valid) bit) 0 := by
  cases valid with
  | none => rfl
  | some bits =>
    have hlength : bits.length = n := h bits rfl
    simp [isNull, pushValid, emptiedValid, ← hlength]

theorem truncateValid_pushValid (h : ValidFor valid n) {k : Nat} (hk : k ≤ n) :
    truncateValid (pushValid valid bit) k = truncateValid valid k := by
  cases valid with
  | none => rfl
  | some bits =>
    have hlength : bits.length = n := h bits rfl
    simp [truncateValid, pushValid, take_append_of_le_length (hlength ▸ hk)]

theorem emptiedValid_pushValid : emptiedValid (pushValid valid bit) = emptiedValid valid := by
  cases valid <;> rfl

theorem truncateValid_self (h : ValidFor valid n) : truncateValid valid n = valid := by
  cases valid with
  | none => rfl
  | some bits =>
    have hlength : bits.length = n := h bits rfl
    simp [truncateValid, ← hlength]

end Validity

/-! ## Dense columns -/

namespace Dense

variable {α : Type} {column : Dense α} {n : Nat} {value : α} {bit : Bool}

structure Aligned (column : Dense α) (n : Nat) : Prop where
  values : column.values.length = n
  valid : ValidFor column.valid n

def emptied (column : Dense α) : Dense α :=
  { values := [], valid := emptiedValid column.valid }

section

variable (h : column.Aligned n)
include h

theorem Aligned.push : (column.push value bit).Aligned (n + 1) :=
  ⟨by simp [Dense.push, h.values], h.valid.push⟩

theorem cell_push_of_lt {row : Nat} (hrow : row < n) :
    (column.push value bit).cell row = column.cell row := by
  simp only [cell, Dense.push, isNull_pushValid_of_lt h.valid hrow,
    getElem?_append_left (h.values ▸ hrow)]

theorem cell_push_self :
    (column.push value bit).cell n = (column.emptied.push value bit).cell 0 := by
  have hvalue : (column.values ++ [value])[n]? = some value := by simp [← h.values]
  simp only [cell, Dense.push, emptied, isNull_pushValid_self h.valid, hvalue,
    nil_append, getElem?_cons_zero]

theorem truncate_push {k : Nat} (hk : k ≤ n) :
    (column.push value bit).truncate k = column.truncate k := by
  simp only [truncate, Dense.push, truncateValid_pushValid h.valid hk,
    take_append_of_le_length (h.values ▸ hk)]

theorem truncate_self : column.truncate n = column := by
  simp only [truncate, truncateValid_self h.valid, take_of_length_le h.values.le]

end

end Dense

/-! ## Packed columns -/

namespace Packed

variable {column : Packed} {n : Nat} {bytes : Bytes}

/-- The offsets ascend to the end of the data, which a `u32` can address. -/
structure Aligned (column : Packed) (n : Nat) : Prop where
  offsets : column.offsets.length = n + 1
  ascending : column.offsets.Pairwise fun a b => a.toNat ≤ b.toNat
  last : column.offsets[n]? = some (UInt32.ofNat column.data.length)
  fits : column.data.length < 2 ^ 32
  valid : ValidFor column.valid n

def emptied (column : Packed) : Packed :=
  { data := [], offsets := [0], valid := emptiedValid column.valid }

theorem toNat_ofNat_of_lt {length : Nat} (h : length < 2 ^ 32) :
    (UInt32.ofNat length).toNat = length := by
  rw [UInt32.toNat_ofNat', Nat.mod_eq_of_lt h]

section

variable (h : column.Aligned n)
include h

theorem Aligned.getLast? : column.offsets.getLast? = some (UInt32.ofNat column.data.length) := by
  rw [getLast?_eq_getElem?, h.offsets, Nat.add_sub_cancel, h.last]

theorem Aligned.le_last {offset : UInt32} (hmem : offset ∈ column.offsets) :
    offset.toNat ≤ column.data.length := by
  obtain ⟨row, hrow, rfl⟩ := List.getElem_of_mem hmem
  obtain ⟨hbound, hlast⟩ := List.getElem?_eq_some_iff.mp h.last
  have hend : column.offsets[n].toNat = column.data.length := by
    rw [hlast, toNat_ofNat_of_lt h.fits]
  rcases Nat.lt_or_ge row n with hlt | hge
  · exact hend ▸ pairwise_iff_getElem.mp h.ascending row n hrow hbound hlt
  · obtain rfl : row = n := by have := h.offsets; omega
    exact hend.le

theorem Aligned.snoc {bit : Bool} (hfits : (column.data ++ bytes).length < 2 ^ 32) :
    Aligned
      { data := column.data ++ bytes
        offsets := column.offsets ++ [UInt32.ofNat (column.data ++ bytes).length]
        valid := pushValid column.valid bit } (n + 1) where
  offsets := by simp [h.offsets]
  ascending := by
    refine pairwise_append.mpr ⟨h.ascending, pairwise_singleton _ _, ?_⟩
    intro offset hmem last hlast
    obtain rfl := mem_singleton.mp hlast
    rw [toNat_ofNat_of_lt hfits, length_append]
    exact (h.le_last hmem).trans (Nat.le_add_right _ _)
  last := by simp [← h.offsets]
  fits := hfits
  valid := h.valid.push

theorem Aligned.push (hfits : (column.push bytes).data.length < 2 ^ 32) :
    (column.push bytes).Aligned (n + 1) :=
  h.snoc hfits

theorem pushNull_eq :
    column.pushNull =
      { data := column.data ++ []
        offsets := column.offsets ++ [UInt32.ofNat (column.data ++ []).length]
        valid := pushValid column.valid false } := by
  simp [pushNull, h.getLast?]

end

variable {α : Type}

theorem sliceOf_append {data : List α} {start stop : Nat} (more : List α)
    (hstop : stop ≤ data.length) : sliceOf (data ++ more) start stop = sliceOf data start stop := by
  by_cases hstart : start ≤ stop
  · have htake : ((data ++ more).drop start).take (stop - start) =
        (data.drop start).take (stop - start) := by
      rw [drop_append_of_le_length (hstart.trans hstop),
        take_append_of_le_length (by rw [length_drop]; omega)]
    simp [sliceOf, hstart, hstop, htake, hstop.trans (Nat.le_add_right _ _)]
  · simp [sliceOf, hstart]

theorem sliceOf_append_self (data more : List α) :
    sliceOf (data ++ more) data.length (data ++ more).length = some more := by
  simp [sliceOf]

section

variable (h : column.Aligned n)
include h

variable {bit : Bool} {k : Nat}

theorem cell_snoc_of_lt {offset : UInt32} {row : Nat} (hrow : row < n) :
    cell
      { data := column.data ++ bytes
        offsets := column.offsets ++ [offset]
        valid := pushValid column.valid bit } row = column.cell row := by
  have hstart : (column.offsets ++ [offset])[row]? = column.offsets[row]? :=
    getElem?_append_left (by rw [h.offsets]; omega)
  have hstop : (column.offsets ++ [offset])[row + 1]? = column.offsets[row + 1]? :=
    getElem?_append_left (by rw [h.offsets]; omega)
  simp only [cell, isNull_pushValid_of_lt h.valid hrow, hstart, hstop]
  cases hend : column.offsets[row + 1]? with
  | none => rfl
  | some stop =>
    have hle := h.le_last (mem_of_getElem? hend)
    cases column.offsets[row]? with
    | none => rfl
    | some start =>
      simp only [bind_eq_bind, bind_some, sliceOf_append bytes hle]

theorem cell_snoc_self (hfits : (column.data ++ bytes).length < 2 ^ 32) :
    cell
      { data := column.data ++ bytes
        offsets := column.offsets ++ [UInt32.ofNat (column.data ++ bytes).length]
        valid := pushValid column.valid bit } n =
    cell
      { data := bytes
        offsets := [0, UInt32.ofNat bytes.length]
        valid := pushValid (emptiedValid column.valid) bit } 0 := by
  have hbytes : bytes.length < 2 ^ 32 := by
    rw [length_append] at hfits
    omega
  have hstart : (column.offsets ++ [UInt32.ofNat (column.data ++ bytes).length])[n]? =
      some (UInt32.ofNat column.data.length) := by
    rw [getElem?_append_left (by rw [h.offsets]; omega), h.last]
  have hstop : (column.offsets ++ [UInt32.ofNat (column.data ++ bytes).length])[n + 1]? =
      some (UInt32.ofNat (column.data ++ bytes).length) := by
    simp [← h.offsets]
  have hslice := sliceOf_append_self column.data bytes
  have halone : sliceOf bytes 0 bytes.length = some bytes := by
    simpa using sliceOf_append_self [] bytes
  simp only [cell, isNull_pushValid_self h.valid, hstart, hstop, bind_some,
    toNat_ofNat_of_lt h.fits, toNat_ofNat_of_lt hfits, hslice, getElem?_cons_zero,
    Nat.zero_add, getElem?_cons_succ, toNat_ofNat_of_lt hbytes, UInt32.toNat_zero, halone,
    bind_eq_bind]

theorem truncate_eq (hk : k ≤ n) :
    column.truncate k =
      { data := column.data.take ((column.offsets[k]?.getD 0).toNat)
        offsets := column.offsets.take (k + 1)
        valid := truncateValid column.valid k } := by
  rcases Nat.lt_or_ge k n with hlt | hge
  · rw [truncate, if_pos (by rw [h.offsets]; omega)]
  · obtain rfl : k = n := Nat.le_antisymm hk hge
    rw [truncate, if_neg (by rw [h.offsets]; omega), h.last, getD_some,
      toNat_ofNat_of_lt h.fits, take_length, take_of_length_le h.offsets.le]

theorem truncate_self : column.truncate n = column := by
  rw [truncate_eq h le_rfl, h.last, getD_some, toNat_ofNat_of_lt h.fits, take_length,
    take_of_length_le h.offsets.le, truncateValid_self h.valid]

theorem truncate_snoc (hfits : (column.data ++ bytes).length < 2 ^ 32) (hk : k ≤ n) :
    truncate
      { data := column.data ++ bytes
        offsets := column.offsets ++ [UInt32.ofNat (column.data ++ bytes).length]
        valid := pushValid column.valid bit } k = column.truncate k := by
  have hbound : k < column.offsets.length := by rw [h.offsets]; omega
  have hle : (column.offsets[k]?.getD 0).toNat ≤ column.data.length := by
    rw [getElem?_eq_getElem hbound, getD_some]
    exact h.le_last (getElem_mem hbound)
  rw [truncate_eq (h.snoc hfits) (Nat.le_succ_of_le hk), truncate_eq h hk,
    truncateValid_pushValid h.valid hk]
  simp only [getElem?_append_left hbound, take_append_of_le_length hle,
    take_append_of_le_length (Nat.succ_le_of_lt hbound)]

end

end Packed

open Packed

/-! ## Strided columns -/

namespace Strided

variable {column : Strided} {n : Nat} {floats : List UInt32} {bit : Bool}

structure Aligned (column : Strided) (n : Nat) : Prop where
  data : column.data.length = n * column.dim
  valid : ValidFor column.valid n

def emptied (column : Strided) : Strided :=
  { column with
    data := []
    valid := emptiedValid column.valid }

section

variable (h : column.Aligned n)
include h

theorem Aligned.push (hwidth : floats.length = column.dim) :
    (column.push floats bit).Aligned (n + 1) :=
  ⟨by simp [Strided.push, h.data, hwidth, Nat.succ_mul], h.valid.push⟩

theorem cell_push_of_lt {row : Nat} (hrow : row < n) :
    (column.push floats bit).cell row = column.cell row := by
  have hstop : row * column.dim + column.dim ≤ column.data.length := by
    rw [h.data, ← Nat.succ_mul]
    exact Nat.mul_le_mul_right _ hrow
  simp only [cell, Strided.push, isNull_pushValid_of_lt h.valid hrow, sliceOf_append floats hstop]

theorem cell_push_self (hwidth : floats.length = column.dim) :
    (column.push floats bit).cell n = (column.emptied.push floats bit).cell 0 := by
  have hslice : sliceOf (column.data ++ floats) (n * column.dim) (n * column.dim + column.dim) =
      some floats := by
    have hself := sliceOf_append_self column.data floats
    rwa [length_append, h.data, hwidth] at hself
  have halone : sliceOf floats 0 column.dim = some floats := by
    simpa [hwidth] using sliceOf_append_self [] floats
  simp only [cell, Strided.push, emptied, isNull_pushValid_self h.valid, hslice,
    nil_append, Nat.zero_mul, Nat.zero_add, halone]

theorem truncate_push (hwidth : floats.length = column.dim) {k : Nat} (hk : k ≤ n) :
    (column.push floats bit).truncate k = column.truncate k := by
  have hle : k * column.dim ≤ column.data.length := by
    rw [h.data]
    exact Nat.mul_le_mul_right _ hk
  by_cases hdim : 0 < column.dim
  · simp only [truncate, Strided.push, truncateValid_pushValid h.valid hk, if_pos hdim,
      take_append_of_le_length hle]
  · -- a vector of no dimensions adds nothing
    have hnil : floats = [] := eq_nil_of_length_eq_zero (by omega)
    simp only [truncate, Strided.push, truncateValid_pushValid h.valid hk, if_neg hdim, hnil,
      append_nil]

theorem truncate_self : column.truncate n = column := by
  simp only [truncate, truncateValid_self h.valid, ← h.data, take_length, ite_self]

end

end Strided

/-! ## Columns -/

namespace ColumnData

def emptied : ColumnData → ColumnData
  | .int64 column => .int64 column.emptied
  | .float64 column => .float64 column.emptied
  | .bool column => .bool column.emptied
  | .timestamp column => .timestamp column.emptied
  | .decimal column => .decimal column.emptied
  | .uuid column => .uuid column.emptied
  | .string column => .string column.emptied
  | .bytes column => .bytes column.emptied
  | .json column => .json column.emptied
  | .geometry column => .geometry column.emptied
  | .vector column => .vector column.emptied
  | .dictEncoded ids _ _ => .dictEncoded ids.emptied [] ∅

def dataLength : ColumnData → Nat
  | .string column | .bytes column | .json column | .geometry column => column.data.length
  | _ => 0

/-- A column of `n` rows of the kinds that `ColumnData.new` builds. -/
inductive Aligned : ColumnData → Nat → Prop
  | int64 {column n} : column.Aligned n → Aligned (.int64 column) n
  | float64 {column n} : column.Aligned n → Aligned (.float64 column) n
  | bool {column n} : column.Aligned n → Aligned (.bool column) n
  | timestamp {column n} : column.Aligned n → Aligned (.timestamp column) n
  | decimal {column n} : column.Aligned n → Aligned (.decimal column) n
  | uuid {column n} : column.Aligned n → Aligned (.uuid column) n
  | string {column n} : column.Aligned n → Aligned (.string column) n
  | bytes {column n} : column.Aligned n → Aligned (.bytes column) n
  | json {column n} : column.Aligned n → Aligned (.json column) n
  | geometry {column n} : column.Aligned n → Aligned (.geometry column) n
  | vector {column n} : column.Aligned n → Aligned (.vector column) n

/-- What appending a cell does to a column of `n` rows.  The last column holds the cell alone. -/
structure Appends (n : Nat) (before after alone : ColumnData) : Prop where
  aligned : after.Aligned (n + 1)
  earlier : ∀ {runtime row declared name}, row < n →
    after.getValue runtime row declared name = before.getValue runtime row declared name
  own : ∀ {runtime declared name value},
    after.getValue runtime n declared name = some (.ok value) ↔
      alone.getValue runtime 0 declared name = some (.ok value)
  cut : ∀ {k}, k ≤ n → after.truncate k = before.truncate k
  emptied : after.emptied = before.emptied

/-- A kind of column over a layout: its cells are those of the layout, typed. -/
structure Kind {L X : Type} (cell : L → Nat → Option (Option X)) (cutL : L → Nat → L)
    (emptiedL : L → L) (alignedL : L → Nat → Prop) (make : L → ColumnData) where
  typing : Runtime → Nat → ColumnType → String → X → Except ColumnarError Value
  getValue_eq : ∀ {layout runtime row declared name},
    (make layout).getValue runtime row declared name =
      typed (cell layout row) (typing runtime row declared name)
  typing_ok : ∀ {runtime row row' declared name content value},
    typing runtime row declared name content = .ok value →
      typing runtime row' declared name content = .ok value
  truncate_eq : ∀ {layout k}, (make layout).truncate k = make (cutL layout k)
  emptied_eq : ∀ {layout}, (make layout).emptied = make (emptiedL layout)
  aligned : ∀ {layout n}, alignedL layout n → (make layout).Aligned n

variable {value : Value} {name : String} {n : Nat}

theorem typed_eq_ok {X : Type} {cell : Option (Option X)}
    {typing typing' : X → Except ColumnarError Value}
    (htyping : ∀ content, typing content = .ok value → typing' content = .ok value)
    (h : typed cell typing = some (.ok value)) : typed cell typing' = some (.ok value) := by
  match cell, h with
  | some none, h => exact h
  | some (some content), h =>
    simp only [typed, map_some, elim_some, Option.some.injEq] at h ⊢
    exact htyping content h

section Kinds

variable {L X : Type} {cell : L → Nat → Option (Option X)} {cutL : L → Nat → L}
  {emptiedL : L → L} {alignedL : L → Nat → Prop} {make : L → ColumnData}

theorem Kind.appends (kind : Kind cell cutL emptiedL alignedL make) {n : Nat}
    {before after alone : L}
    (haligned : alignedL after (n + 1))
    (hearlier : ∀ {row}, row < n → cell after row = cell before row)
    (hown : cell after n = cell alone 0)
    (hcut : ∀ {k}, k ≤ n → cutL after k = cutL before k)
    (hemptied : emptiedL after = emptiedL before) :
    Appends n (make before) (make after) (make alone) where
  aligned := kind.aligned haligned
  earlier hrow := by rw [kind.getValue_eq, kind.getValue_eq, hearlier hrow]
  own := by
    intro runtime declared name value
    rw [kind.getValue_eq, kind.getValue_eq, hown]
    exact ⟨typed_eq_ok fun _ => kind.typing_ok, typed_eq_ok fun _ => kind.typing_ok⟩
  cut hk := by rw [kind.truncate_eq, kind.truncate_eq, hcut hk]
  emptied := by rw [kind.emptied_eq, kind.emptied_eq, hemptied]

end Kinds

abbrev DenseKind {α : Type} := Kind (X := α) Dense.cell Dense.truncate Dense.emptied Dense.Aligned

abbrev PackedKind := Kind Packed.cell Packed.truncate Packed.emptied Packed.Aligned

abbrev StridedKind := Kind Strided.cell Strided.truncate Strided.emptied Strided.Aligned

def int64Kind : DenseKind .int64 where
  typing _ _ _ _ v := .ok (.integer v)
  getValue_eq := rfl
  typing_ok h := h
  truncate_eq := rfl
  emptied_eq := rfl
  aligned := .int64

def float64Kind : DenseKind .float64 where
  typing _ _ _ _ bits := .ok (.float bits)
  getValue_eq := rfl
  typing_ok h := h
  truncate_eq := rfl
  emptied_eq := rfl
  aligned := .float64

def boolKind : DenseKind .bool where
  typing _ _ _ _ v := .ok (.bool v)
  getValue_eq := rfl
  typing_ok h := h
  truncate_eq := rfl
  emptied_eq := rfl
  aligned := .bool

def timestampKind : DenseKind .timestamp where
  typing _ _ declared _ micros := .ok (declared.timeCell micros)
  getValue_eq := rfl
  typing_ok h := h
  truncate_eq := rfl
  emptied_eq := rfl
  aligned := .timestamp

def decimalKind : DenseKind .decimal where
  typing _ _ _ _ serialized := .ok (.decimal serialized)
  getValue_eq := rfl
  typing_ok h := h
  truncate_eq := rfl
  emptied_eq := rfl
  aligned := .decimal

def uuidKind : DenseKind .uuid where
  typing runtime _ declared _ id :=
    .ok (match declared with
      | .ulid => .ulid (runtime.ulidText id)
      | _ => .uuid (runtime.uuidText id))
  getValue_eq := rfl
  typing_ok h := h
  truncate_eq := rfl
  emptied_eq := rfl
  aligned := .uuid

theorem utf8Cell_ok {row row' : Nat} {bytes : Bytes}
    (h : utf8Cell runtime name row bytes = .ok value) :
    utf8Cell runtime name row' bytes = .ok value := by
  unfold utf8Cell at h ⊢
  cases hdecoded : fromUtf8 bytes <;> simp_all

def stringKind : PackedKind .string where
  typing runtime row _ name := utf8Cell runtime name row
  getValue_eq := rfl
  typing_ok := utf8Cell_ok
  truncate_eq := rfl
  emptied_eq := rfl
  aligned := .string

def geometryKind : PackedKind .geometry where
  typing runtime row _ name := utf8Cell runtime name row
  getValue_eq := rfl
  typing_ok := utf8Cell_ok
  truncate_eq := rfl
  emptied_eq := rfl
  aligned := .geometry

def bytesKind : PackedKind .bytes where
  typing _ _ _ _ data := .ok (.bytes data)
  getValue_eq := rfl
  typing_ok h := h
  truncate_eq := rfl
  emptied_eq := rfl
  aligned := .bytes

def jsonKind : PackedKind .json where
  typing runtime row _ name data :=
    if data = [] then
      .ok .null
    else
      (runtime.fromMsgpack data).mapError fun error =>
        .memtableCellCorrupt name row ("JSON cell is not MessagePack: " ++ error)
  getValue_eq := rfl
  typing_ok := by
    intro runtime row row' declared name data value h
    by_cases hempty : data = []
    · simpa [hempty] using h
    · cases hdecoded : runtime.fromMsgpack data <;>
        simp_all [Except.mapError]
  truncate_eq := rfl
  emptied_eq := rfl
  aligned := .json

def vectorKind : StridedKind .vector where
  typing runtime _ _ _ floats :=
    .ok (.array (floats.map fun bits => .float (runtime.f64OfF32 bits)))
  getValue_eq := rfl
  typing_ok h := h
  truncate_eq := rfl
  emptied_eq := rfl
  aligned := .vector

section Appending

variable {n : Nat}

theorem appends_dense {α : Type} {make : Dense α → ColumnData} (kind : DenseKind make)
    {column : Dense α} (haligned : column.Aligned n) (value : α) (bit : Bool) :
    Appends n (make column) (make (column.push value bit))
      (make (column.emptied.push value bit)) :=
  kind.appends haligned.push (Dense.cell_push_of_lt haligned) (Dense.cell_push_self haligned)
    (Dense.truncate_push haligned)
    (by simp only [Dense.emptied, Dense.push, emptiedValid_pushValid])

variable {make : Packed → ColumnData} {column : Packed}

theorem appends_packed (kind : PackedKind make) (haligned : column.Aligned n) {bytes : Bytes}
    (hfits : (column.push bytes).data.length < 2 ^ 32) :
    Appends n (make column) (make (column.push bytes)) (make (column.emptied.push bytes)) :=
  kind.appends (haligned.push hfits) (cell_snoc_of_lt haligned)
    (cell_snoc_self haligned hfits) (truncate_snoc haligned hfits)
    (by simp only [Packed.emptied, Packed.push, emptiedValid_pushValid])

theorem appends_packedNull (kind : PackedKind make) (haligned : column.Aligned n) :
    Appends n (make column) (make column.pushNull) (make column.emptied.pushNull) := by
  have hfits : (column.data ++ []).length < 2 ^ 32 := by simpa using haligned.fits
  rw [pushNull_eq haligned]
  exact kind.appends (haligned.snoc hfits) (cell_snoc_of_lt haligned)
    (cell_snoc_self haligned hfits) (truncate_snoc haligned hfits)
    (by simp only [Packed.emptied, emptiedValid_pushValid])

theorem appends_vector {column : Strided} (haligned : column.Aligned n) {floats : List UInt32}
    (hwidth : floats.length = column.dim) (bit : Bool) :
    Appends n (.vector column) (.vector (column.push floats bit))
      (.vector (column.emptied.push floats bit)) :=
  vectorKind.appends (haligned.push hwidth) (Strided.cell_push_of_lt haligned)
    (Strided.cell_push_self haligned hwidth) (Strided.truncate_push haligned hwidth)
    (by simp only [Strided.emptied, Strided.push, emptiedValid_pushValid])

theorem length_vectorFloats (runtime : Runtime) (dim : Nat) (items : List Value) :
    (vectorFloats runtime dim items).length = dim := by
  simp only [vectorFloats, length_append, length_map, length_take, length_replicate]
  omega

theorem length_wordsOf : (bytes : Bytes) → (wordsOf bytes).length = bytes.length / 4
  | a :: b :: c :: d :: rest => by
    rw [wordsOf, List.length_cons, length_wordsOf rest]
    simp only [List.length_cons]
    omega
  | [] | [_] | [_, _] | [_, _, _] => by simp [wordsOf]

end Appending

theorem push_appends {runtime : Runtime} {before after : ColumnData} {columnType : ColumnType}
    (haligned : before.Aligned n) (hpush : before.push runtime value name columnType = .ok after) :
    ∃ alone, before.emptied.push runtime value name columnType = .ok alone ∧
      after.dataLength = before.dataLength + alone.dataLength ∧
      (after.dataLength < 2 ^ 32 → Appends n before after alone) := by
  have hlength (column : Packed) (bytes : Bytes) : (column.push bytes).data.length =
      column.data.length + (column.emptied.push bytes).data.length := by
    simp [Packed.push, Packed.emptied]
  cases haligned with
  | int64 haligned =>
    cases value <;> simp only [push, reduceCtorEq, ok.injEq] at hpush <;> subst hpush <;>
      exact ⟨_, rfl, rfl, fun _ => appends_dense int64Kind haligned _ _⟩
  | float64 haligned =>
    cases value <;> simp only [push, reduceCtorEq, ok.injEq] at hpush <;> subst hpush <;>
      exact ⟨_, rfl, rfl, fun _ => appends_dense float64Kind haligned _ _⟩
  | bool haligned =>
    cases value <;> simp only [push, reduceCtorEq, ok.injEq] at hpush <;> subst hpush <;>
      exact ⟨_, rfl, rfl, fun _ => appends_dense boolKind haligned _ _⟩
  | timestamp haligned =>
    cases value <;> simp only [push, reduceCtorEq, ok.injEq] at hpush <;> subst hpush <;>
      exact ⟨_, rfl, rfl, fun _ => appends_dense timestampKind haligned _ _⟩
  | decimal haligned =>
    cases value <;> simp only [push, reduceCtorEq, ok.injEq] at hpush <;> subst hpush <;>
      exact ⟨_, rfl, rfl, fun _ => appends_dense decimalKind haligned _ _⟩
  | uuid haligned =>
    cases value <;> simp only [push, reduceCtorEq, bind_eq_ok, ok.injEq] at hpush
    case null =>
      subst hpush
      exact ⟨_, rfl, rfl, fun _ => appends_dense uuidKind haligned _ _⟩
    all_goals
      obtain ⟨id, hid, rfl⟩ := hpush
      exact ⟨_, by simp only [emptied, push, hid, ok_bind], rfl,
        fun _ => appends_dense uuidKind haligned _ _⟩
  | string haligned =>
    cases value <;> simp only [push, reduceCtorEq, ok.injEq] at hpush <;> subst hpush
    case null => exact ⟨_, rfl, rfl, fun _ => appends_packedNull stringKind haligned⟩
    all_goals exact ⟨_, rfl, hlength _ _, appends_packed stringKind haligned⟩
  | bytes haligned =>
    cases value <;> simp only [push, reduceCtorEq, bind_eq_ok, ok.injEq] at hpush
    case null =>
      subst hpush
      exact ⟨_, rfl, rfl, fun _ => appends_packedNull bytesKind haligned⟩
    case bytes =>
      subst hpush
      exact ⟨_, rfl, hlength _ _, appends_packed bytesKind haligned⟩
    all_goals
      obtain ⟨encoded, hencoded, rfl⟩ := hpush
      refine ⟨_, by simp only [emptied, push, hencoded, ok_bind], ?_,
        appends_packed bytesKind haligned⟩
      exact hlength _ _
  | json haligned =>
    cases value <;> simp only [push, bind_eq_ok, ok.injEq] at hpush
    case null =>
      subst hpush
      exact ⟨_, rfl, rfl, fun _ => appends_packedNull jsonKind haligned⟩
    all_goals
      obtain ⟨encoded, hencoded, rfl⟩ := hpush
      refine ⟨_, by simp only [emptied, push, hencoded, ok_bind], ?_,
        appends_packed jsonKind haligned⟩
      exact hlength _ _
  | geometry haligned =>
    cases value <;> simp only [push, reduceCtorEq, ok.injEq] at hpush <;> subst hpush
    case null => exact ⟨_, rfl, rfl, fun _ => appends_packedNull geometryKind haligned⟩
    all_goals exact ⟨_, rfl, hlength _ _, appends_packed geometryKind haligned⟩
  | vector haligned =>
    cases value <;> simp only [push, reduceCtorEq, ok.injEq] at hpush
    case null =>
      subst hpush
      exact ⟨_, rfl, rfl, fun _ => appends_vector haligned length_replicate _⟩
    case array items =>
      subst hpush
      exact ⟨_, rfl, rfl, fun _ => appends_vector haligned (length_vectorFloats ..) _⟩
    case bytes data =>
      split at hpush
      · rename_i hwidth
        obtain rfl := ok.inj hpush
        have hwords := length_wordsOf data
        rw [hwidth, Nat.mul_div_cancel _ (by decide)] at hwords
        exact ⟨_, by simp only [emptied, push, Strided.emptied, if_pos hwidth], rfl,
          fun _ => appends_vector haligned hwords _⟩
      · exact absurd hpush (by simp)

theorem Aligned.truncate_self {data : ColumnData} (h : data.Aligned n) :
    data.truncate n = data := by
  cases h with
  | int64 h | float64 h | bool h | timestamp h | decimal h | uuid h =>
    simp only [truncate, Dense.truncate_self h]
  | string h | bytes h | json h | geometry h => simp only [truncate, Packed.truncate_self h]
  | vector h => simp only [truncate, Strided.truncate_self h]

theorem emptied_new (columnType : ColumnType) (nullable : Bool) :
    (new columnType nullable).emptied = new columnType nullable := by
  cases columnType <;> cases nullable <;> rfl

theorem aligned_new (columnType : ColumnType) (nullable : Bool) :
    (new columnType nullable).Aligned 0 := by
  have hvalid : ValidFor (if nullable then some [] else none) 0 := by
    cases nullable <;> simp [ValidFor]
  have hdense {α : Type} : (Dense.empty nullable : Dense α).Aligned 0 := ⟨rfl, hvalid⟩
  have hpacked : (Packed.empty nullable).Aligned 0 :=
    ⟨rfl, pairwise_singleton _ _, rfl, by simp [Packed.empty], hvalid⟩
  cases columnType <;>
    first
    | exact .int64 hdense
    | exact .float64 hdense
    | exact .bool hdense
    | exact .timestamp hdense
    | exact .decimal hdense
    | exact .uuid hdense
    | exact .string hpacked
    | exact .bytes hpacked
    | exact .json hpacked
    | exact .geometry hpacked
    | exact .vector ⟨by simp [Strided.empty], hvalid⟩

end ColumnData

end NodeDB.Columnar
