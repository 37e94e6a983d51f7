import Mathlib.Tactic

/-!
# Asymmetric numeral coding

A symbol that owns `freq` of `scale` slots, the first of them `start`, is
pushed onto a number and popped from it again.  Before a push the number is
spilled, lowest digits first, until the push keeps it below `lower * base`;
after the pop the same digits are taken back, last one first, until the number
reaches `lower`.
-/

namespace NumeralCoder

/-! ## Pushing and popping a symbol -/

def push (scale freq start state : Nat) : Nat :=
  state / freq * scale + state % freq + start

def pop (scale freq start state : Nat) : Nat :=
  freq * (state / scale) + state % scale - start

section Slots

variable {scale freq start : Nat} (hfreq : 0 < freq) (hslots : start + freq ≤ scale)
include hfreq hslots

theorem push_div (state : Nat) : push scale freq start state / scale = state / freq := by
  have hmod := Nat.mod_lt state hfreq
  have hslot : state % freq + start < scale := by omega
  rw [push, Nat.add_assoc, Nat.mul_comm, Nat.mul_add_div (by omega), Nat.div_eq_of_lt hslot,
    Nat.add_zero]

theorem push_mod (state : Nat) : push scale freq start state % scale = state % freq + start := by
  have hmod := Nat.mod_lt state hfreq
  rw [push, Nat.add_assoc, Nat.mul_comm, Nat.mul_add_mod, Nat.mod_eq_of_lt (by omega)]

theorem push_slot (state : Nat) :
    start ≤ push scale freq start state % scale ∧
      push scale freq start state % scale < start + freq := by
  have hmod := Nat.mod_lt state hfreq
  rw [push_mod hfreq hslots]
  omega

theorem pop_push (state : Nat) : pop scale freq start (push scale freq start state) = state := by
  rw [pop, push_div hfreq hslots, push_mod hfreq hslots, ← Nat.add_assoc, Nat.add_sub_cancel]
  exact Nat.div_add_mod state freq

end Slots

/-! ## Spilling and taking back digits -/

section Digits

variable {δ : Type}

/-- The digits that leave the state, lowest first, and what is left of it. -/
def spill (base limit : Nat) (toDigit : Nat → δ) (state : Nat) : List δ × Nat :=
  if limit ≤ state ∧ 0 < state ∧ 1 < base then
    (toDigit state :: (spill base limit toDigit (state / base)).1,
      (spill base limit toDigit (state / base)).2)
  else ([], state)
termination_by state
decreasing_by
  all_goals
    rename_i h
    exact Nat.div_lt_self h.2.1 h.2.2

/-- Takes digits from the head of the list while the state is below `lower`. -/
def refill (base lower : Nat) (ofDigit : δ → Nat) : List δ → Nat → Nat × List δ
  | [], state => (state, [])
  | digit :: digits, state =>
    if state < lower then refill base lower ofDigit digits (state * base + ofDigit digit)
    else (state, digit :: digits)

variable {lower : Nat} {ofDigit : δ → Nat} {state : Nat}

theorem refill_of_le {base : Nat} (digits : List δ) (h : lower ≤ state) :
    refill base lower ofDigit digits state = (state, digits) := by
  cases digits with
  | nil => rfl
  | cons digit digits => rw [refill, if_neg (Nat.not_lt.mpr h)]

variable {base limit : Nat}

theorem spill_lt (toDigit : Nat → δ) (hbase : 1 < base) (hlimit : 0 < limit) (state : Nat) :
    (spill base limit toDigit state).2 < limit := by
  fun_induction spill base limit toDigit state with
  | case1 state h ih => exact ih
  | case2 state h =>
    simp only
    by_contra hle
    exact h ⟨by omega, by omega, hbase⟩

variable {toDigit : Nat → δ}

theorem le_spill {low : Nat} (hlow : low * base ≤ limit) (hstate : low ≤ state) :
    low ≤ (spill base limit toDigit state).2 := by
  fun_induction spill base limit toDigit state with
  | case1 state h ih =>
    apply ih
    exact (Nat.le_div_iff_mul_le (by omega)).mpr (hlow.trans h.1)
  | case2 state h => exact hstate

theorem refill_spill_append (hdigit : ∀ state, ofDigit (toDigit state) = state % base)
    (below : List δ) (hstate : state < lower * base) :
    refill base lower ofDigit ((spill base limit toDigit state).1.reverse ++ below)
        (spill base limit toDigit state).2 =
      refill base lower ofDigit below state := by
  fun_induction spill base limit toDigit state generalizing below with
  | case1 state h ih =>
    have hdiv : state / base < lower := Nat.div_lt_of_lt_mul (by rwa [Nat.mul_comm] at hstate)
    have hstill : state / base < lower * base := by nlinarith
    rw [List.reverse_cons, List.append_assoc, List.singleton_append, ih _ hstill, refill,
      if_pos hdiv, hdigit, Nat.mul_comm, Nat.div_add_mod]
  | case2 state h => rfl

theorem refill_spill (hdigit : ∀ state, ofDigit (toDigit state) = state % base) (below : List δ)
    (hlower : lower ≤ state) (hstate : state < lower * base) :
    refill base lower ofDigit ((spill base limit toDigit state).1.reverse ++ below)
        (spill base limit toDigit state).2 = (state, below) := by
  rw [refill_spill_append hdigit below hstate, refill_of_le below hlower]

theorem length_spill_le (toDigit : Nat → δ) {digits : Nat} (h : state < limit * base ^ digits) :
    (spill base limit toDigit state).1.length ≤ digits := by
  fun_induction spill base limit toDigit state generalizing digits with
  | case1 state hspill ih =>
    cases digits with
    | zero =>
      rw [pow_zero, Nat.mul_one] at h
      omega
    | succ digits =>
      rw [pow_succ, ← Nat.mul_assoc, Nat.mul_comm] at h
      exact Nat.succ_le_succ (ih (Nat.div_lt_of_lt_mul h))
  | case2 state hspill => exact Nat.zero_le _

end Digits

/-! ## One coding step -/

section Step

variable {δ : Type} {base ratio scale freq start : Nat} {toDigit : Nat → δ}
  (hbase : 1 < base) (hratio : 0 < ratio) (hfreq : 0 < freq) (hslots : start + freq ≤ scale)
include hbase hratio hfreq hslots

/-- With `lower = ratio * scale` and the limit `ratio * base * freq`, a push
after the spill leads back into the interval from `lower` to `lower * base`. -/
theorem push_spill_bounds {state : Nat} (hlower : ratio * scale ≤ state) :
    ratio * scale ≤
        push scale freq start (spill base (ratio * base * freq) toDigit state).2 ∧
      push scale freq start (spill base (ratio * base * freq) toDigit state).2 <
        ratio * scale * base := by
  have hlimit : 0 < ratio * base * freq := by positivity
  have hhigh := spill_lt toDigit hbase hlimit state
  have hlow : ratio * freq ≤ (spill base (ratio * base * freq) toDigit state).2 := by
    refine le_spill (le_of_eq (by ring)) (le_trans ?_ hlower)
    exact Nat.mul_le_mul_left ratio (by omega)
  generalize (spill base (ratio * base * freq) toDigit state).2 = left at hhigh hlow
  have hquotient : ratio ≤ left / freq := (Nat.le_div_iff_mul_le hfreq).mpr hlow
  have hbelow : left / freq < ratio * base := (Nat.div_lt_iff_lt_mul hfreq).mpr hhigh
  have hmod := Nat.mod_lt left hfreq
  rw [push]
  constructor
  · calc ratio * scale ≤ left / freq * scale := Nat.mul_le_mul_right scale hquotient
      _ ≤ left / freq * scale + left % freq + start := by omega
  · calc left / freq * scale + left % freq + start < left / freq * scale + scale := by omega
      _ = (left / freq + 1) * scale := by ring
      _ ≤ ratio * base * scale := Nat.mul_le_mul_right scale hbelow
      _ = ratio * scale * base := by ring

end Step

end NumeralCoder
