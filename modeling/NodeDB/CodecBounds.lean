import NodeDB.ByteFrame

/-!
# Hard limits and checked framing of the codecs

A `usize` is 64 bits wide, so a `u32` read from a frame always fits one.
-/

namespace NodeDB.Codec

open ByteFrame

abbrev Bytes := List UInt8

/-- The errors of the codecs that are modelled here. -/
inductive CodecError where
  | truncated (expected actual : Nat)
  | corrupt (detail : String)
  | resourceLimit (resource : String) (requested limit : Nat)
  | decompressFailed (detail : String)
  deriving DecidableEq, Repr

def usizeBound : Nat := 2 ^ 64

def u32Bound : Nat := 2 ^ 32

def maxDecodedBytes : Nat := 64 * 1024 * 1024

def checkedAdd (left right : Nat) (context : String) : Except CodecError Nat :=
  if left + right < usizeBound then .ok (left + right)
  else .error (.corrupt s!"{context} overflows usize")

def checkedMul (left right : Nat) (context : String) : Except CodecError Nat :=
  if left * right < usizeBound then .ok (left * right)
  else .error (.corrupt s!"{context} overflows usize")

def checkedRange (data : Bytes) (start len : Nat) (context : String) :
    Except CodecError Bytes := do
  let stop ← checkedAdd start len context
  if stop ≤ data.length then .ok (slice data start len)
  else .error (.truncated stop data.length)

def decodedLen (value : Nat) (codec : String) : Except CodecError Nat :=
  if value > maxDecodedBytes then
    .error (.resourceLimit s!"{codec} decoded bytes" value maxDecodedBytes)
  else .ok value

/-- The checked count itself, for the one allocation it is checked for. -/
def checkedCapacity (count elementSize : Nat) (context : String) : Except CodecError Nat := do
  let bytes ← checkedMul count elementSize context
  let _ ← decodedLen bytes context
  return count

def encodeU32Len (value : Nat) (context : String) : Except CodecError Nat :=
  if value < u32Bound then .ok value
  else .error (.resourceLimit s!"{context} encoded length" value (u32Bound - 1))

def encodeInputLen (value : Nat) (codec : String) : Except CodecError Nat := do
  let _ ← decodedLen value codec
  encodeU32Len value codec

/-! ## When a check passes -/

variable {left right : Nat} {context : String} {value checked : Nat} {codec : String}
  {data before part : Bytes} {start len : Nat}

theorem checkedAdd_eq_ok {sum : Nat} :
    checkedAdd left right context = .ok sum ↔ left + right < usizeBound ∧ left + right = sum := by
  unfold checkedAdd
  split <;> simp_all

theorem checkedMul_eq_ok {product : Nat} :
    checkedMul left right context = .ok product ↔
      left * right < usizeBound ∧ left * right = product := by
  unfold checkedMul
  split <;> simp_all

theorem decodedLen_eq_ok :
    decodedLen value codec = .ok checked ↔ value ≤ maxDecodedBytes ∧ value = checked := by
  unfold decodedLen
  split <;> simp_all

theorem encodeU32Len_eq_ok :
    encodeU32Len value context = .ok checked ↔ value < u32Bound ∧ value = checked := by
  unfold encodeU32Len
  split <;> simp_all

theorem maxDecodedBytes_lt_u32Bound : maxDecodedBytes < u32Bound := by
  decide

theorem u32Bound_lt_usizeBound : u32Bound < usizeBound := by
  decide

theorem encodeInputLen_eq_ok :
    encodeInputLen value codec = .ok checked ↔ value ≤ maxDecodedBytes ∧ value = checked := by
  simp only [encodeInputLen, bind_eq_ok, decodedLen_eq_ok, encodeU32Len_eq_ok]
  constructor
  · rintro ⟨_, ⟨hle, -⟩, -, rfl⟩
    exact ⟨hle, rfl⟩
  · rintro ⟨hle, rfl⟩
    exact ⟨value, ⟨hle, rfl⟩, hle.trans_lt maxDecodedBytes_lt_u32Bound, rfl⟩

theorem checkedAdd_of_lt (context : String) (h : left + right < usizeBound) :
    checkedAdd left right context = .ok (left + right) :=
  checkedAdd_eq_ok.mpr ⟨h, rfl⟩

theorem checkedMul_of_lt (context : String) (h : left * right < usizeBound) :
    checkedMul left right context = .ok (left * right) :=
  checkedMul_eq_ok.mpr ⟨h, rfl⟩

theorem decodedLen_of_le (codec : String) (h : value ≤ maxDecodedBytes) :
    decodedLen value codec = .ok value :=
  decodedLen_eq_ok.mpr ⟨h, rfl⟩

theorem lt_usizeBound_of_le (h : value ≤ maxDecodedBytes) : value < usizeBound :=
  h.trans_lt (maxDecodedBytes_lt_u32Bound.trans u32Bound_lt_usizeBound)

theorem checkedCapacity_of_le {count elementSize : Nat} (context : String)
    (h : count * elementSize ≤ maxDecodedBytes) :
    checkedCapacity count elementSize context = .ok count := by
  rw [checkedCapacity, checkedMul_of_lt _ (lt_usizeBound_of_le h), ok_bind, decodedLen_of_le _ h]
  rfl

theorem checkedRange_of_eq {after : Bytes} (context : String)
    (hdata : data = before ++ (part ++ after)) (hstart : start = before.length)
    (hlen : len = part.length) (hfits : data.length < usizeBound) :
    checkedRange data start len context = .ok part := by
  subst hdata hstart hlen
  simp only [List.length_append] at hfits
  rw [checkedRange, checkedAdd_of_lt _ (by omega), ok_bind, if_pos, slice_append]
  simp only [List.length_append]
  omega

theorem checkedRange_last (context : String) (hdata : data = before ++ part)
    (hstart : start = before.length) (hlen : len = part.length) (hfits : data.length < usizeBound) :
    checkedRange data start len context = .ok part := by
  rw [← List.append_nil part] at hdata
  exact checkedRange_of_eq context hdata hstart hlen hfits

end NodeDB.Codec
