import Mathlib.Tactic

/-!
# Framing bytes

Numbers in a fixed count of little-endian bytes, the part of a byte string
between two positions, and computations that stop at the first error.  A part
that was appended is read back at the length of what stands before it.
-/

namespace ByteFrame

open List

/-! ## Numbers as bytes -/

def littleEndian : Nat → Nat → List UInt8
  | 0, _ => []
  | width + 1, value => UInt8.ofNat value :: littleEndian width (value / 256)

def ofLittleEndian : List UInt8 → Nat
  | [] => 0
  | byte :: rest => byte.toNat + 256 * ofLittleEndian rest

@[simp]
theorem length_littleEndian (width value : Nat) : (littleEndian width value).length = width := by
  induction width generalizing value with
  | zero => rfl
  | succ width ih => simp [littleEndian, ih]

variable {α : Type} {width value : Nat}

theorem length_flatMap_littleEndian (width : Nat) (value : α → Nat) (items : List α) :
    (items.flatMap fun item => littleEndian width (value item)).length = items.length * width := by
  simp only [length_flatMap, length_littleEndian, map_const', sum_replicate, smul_eq_mul]

theorem ofLittleEndian_littleEndian (h : value < 256 ^ width) :
    ofLittleEndian (littleEndian width value) = value := by
  induction width generalizing value with
  | zero => simp_all [littleEndian, ofLittleEndian]
  | succ width ih =>
    have hrest : value / 256 < 256 ^ width := by
      rw [pow_succ] at h
      exact Nat.div_lt_of_lt_mul (by rwa [Nat.mul_comm])
    rw [littleEndian, ofLittleEndian, ih hrest, UInt8.toNat_ofNat']
    omega

theorem ofLittleEndian_take (rest : List UInt8) (h : value < 256 ^ width) :
    ofLittleEndian ((littleEndian width value ++ rest).take width) = value := by
  rw [take_left' (length_littleEndian width value), ofLittleEndian_littleEndian h]

theorem drop_littleEndian (width value : Nat) (rest : List UInt8) :
    (littleEndian width value ++ rest).drop width = rest :=
  drop_left' (length_littleEndian width value)

/-! ## Parts of a byte string -/

def slice (data : List UInt8) (start len : Nat) : List UInt8 :=
  (data.drop start).take len

theorem slice_append (before part after : List UInt8) :
    slice (before ++ (part ++ after)) before.length part.length = part := by
  rw [slice, drop_left, take_left]

theorem slice_flatMap {part : α → List UInt8} (hwidth : ∀ item, (part item).length = width)
    (before after : List UInt8) {items : List α} {index : Nat} {item : α}
    (hitem : items[index]? = some item) :
    slice (before ++ (items.flatMap part ++ after)) (before.length + index * width) width =
      part item := by
  obtain ⟨hindex, rfl⟩ := List.getElem?_eq_some_iff.mp hitem
  have hsplit : items.flatMap part =
      (items.take index).flatMap part ++
        (part items[index] ++ (items.drop (index + 1)).flatMap part) := by
    rw [← flatMap_cons, ← drop_eq_getElem_cons hindex, ← flatMap_append, take_append_drop]
  have hlength : (before ++ (items.take index).flatMap part).length =
      before.length + index * width := by
    simp [length_flatMap, hwidth, Nat.min_eq_left hindex.le]
  have hslice := slice_append (before ++ (items.take index).flatMap part) (part items[index])
    ((items.drop (index + 1)).flatMap part ++ after)
  rw [hlength, hwidth] at hslice
  rw [hsplit]
  simpa only [append_assoc] using hslice

/-! ## Computations that may fail -/

section Checked

variable {ε α β σ : Type}

theorem bind_eq_ok {step : Except ε α} {next : α → Except ε β} {result : β} :
    (step >>= next) = .ok result ↔ ∃ value, step = .ok value ∧ next value = .ok result := by
  cases step with
  | error error | ok value => simp [bind, Except.bind]

@[simp]
theorem ok_bind (value : α) (next : α → Except ε β) :
    ((.ok value : Except ε α) >>= next) = next value :=
  rfl

@[simp]
theorem error_bind (error : ε) (next : α → Except ε β) :
    ((.error error : Except ε α) >>= next) = .error error :=
  rfl

/-- Goes on where the condition holds and stops with the error elsewhere. -/
def require (condition : Prop) [Decidable condition] (error : ε) : Except ε Unit :=
  if condition then .ok () else .error error

variable {step : α → Except ε β} {condition : Prop} {value : α → β}

theorem require_eq_ok [Decidable condition] {error : ε} {passed : Unit} :
    require condition error = .ok passed ↔ condition := by
  unfold require
  split <;> simp_all

theorem require_of [Decidable condition] (error : ε) (h : condition) :
    require condition error = .ok () :=
  require_eq_ok.mpr h

theorem foldlM_sum {bound : Nat} {size : α → Nat} {step : Nat → α → Except ε Nat}
    (hstep : ∀ total item next,
      step total item = .ok next ↔ total + size item < bound ∧ total + size item = next)
    (items : List α) {start total : Nat} (hstart : start < bound) :
    items.foldlM step start = .ok total ↔
      start + (items.map size).sum < bound ∧ start + (items.map size).sum = total := by
  induction items generalizing start with
  | nil =>
    rw [foldlM_nil, map_nil, sum_nil, Nat.add_zero]
    exact ⟨fun h => ⟨hstart, Except.ok.inj h⟩, fun h => congrArg Except.ok h.2⟩
  | cons item rest ih =>
    rw [foldlM_cons, bind_eq_ok, map_cons, sum_cons, ← Nat.add_assoc]
    constructor
    · rintro ⟨next, hnext, hrest⟩
      obtain ⟨hlt, rfl⟩ := (hstep start item next).mp hnext
      exact (ih hlt).mp hrest
    · intro hsum
      have hlt : start + size item < bound := by omega
      exact ⟨_, (hstep start item _).mpr ⟨hlt, rfl⟩, (ih hlt).mpr hsum⟩

theorem mapM_eq_ok {fits : α → Prop}
    (hstep : ∀ item result, step item = .ok result ↔ fits item ∧ value item = result)
    (items : List α) {results : List β} :
    items.mapM step = .ok results ↔ (∀ item ∈ items, fits item) ∧ items.map value = results := by
  induction items generalizing results with
  | nil => simp [pure, Except.pure]
  | cons item rest ih =>
    simp only [mapM_cons, bind_eq_ok, hstep, ih, pure, Except.pure, Except.ok.injEq,
      forall_mem_cons, map_cons]
    constructor
    · rintro ⟨_, ⟨hitem, rfl⟩, _, ⟨hrest, rfl⟩, rfl⟩
      exact ⟨⟨hitem, hrest⟩, rfl⟩
    · rintro ⟨⟨hitem, hrest⟩, rfl⟩
      exact ⟨_, ⟨hitem, rfl⟩, _, ⟨hrest, rfl⟩, rfl⟩

theorem mapM_of_forall (items : List α) (h : ∀ item ∈ items, step item = .ok (value item)) :
    items.mapM step = .ok (items.map value) := by
  induction items with
  | nil => rfl
  | cons item rest ih =>
    obtain ⟨hitem, hrest⟩ := forall_mem_cons.mp h
    rw [mapM_cons, hitem, ok_bind, ih hrest, ok_bind]
    rfl

end Checked

end ByteFrame
