import Mathlib.Tactic

/-!
# Bounding boxes on the globe

A box covers an arc of longitudes and an interval of latitudes.  An arc whose
least longitude is above its greatest wraps across the anti-meridian.

The tests of the code agree with the point sets.  The union does as long as
the boxes leave a gap between them: an arc that is extended past its own other
end turns into a plain one and leaves out most of the globe.
-/

namespace NodeDB.Spatial

open Set

/-! ## Arcs -/

section Arc

variable {K : Type*} [LinearOrder K] {lo hi lo' hi' x : K}

/-- The longitudes from `lo` on up to `hi`. -/
def arc (lo hi : K) : Set K :=
  if hi < lo then Ici lo ∪ Iic hi else Icc lo hi

theorem arc_of_le (h : lo ≤ hi) : arc lo hi = Icc lo hi :=
  if_neg h.not_gt

theorem arc_of_lt (h : hi < lo) : arc lo hi = Ici lo ∪ Iic hi :=
  if_pos h

theorem left_mem_arc : lo ∈ arc lo hi := by
  rcases le_or_gt lo hi with h | h
  · rw [arc_of_le h]
    exact left_mem_Icc.mpr h
  · rw [arc_of_lt h]
    exact .inl self_mem_Ici

theorem arc_inter_wrapped_plain (h : hi < lo) (h' : lo' ≤ hi') :
    (arc lo hi ∩ arc lo' hi').Nonempty ↔ lo ≤ hi' ∨ lo' ≤ hi := by
  rw [arc_of_lt h, arc_of_le h', union_inter_distrib_right, union_nonempty]
  refine or_congr ⟨?_, fun hle => ⟨hi', hle, h', le_rfl⟩⟩
    ⟨?_, fun hle => ⟨lo', hle, le_rfl, h'⟩⟩
  · rintro ⟨x, hx, -, hx'⟩
    exact hx.trans hx'
  · rintro ⟨x, hx, hx', -⟩
    exact hx'.trans hx

theorem arc_inter_wrapped (h : hi < lo) (h' : hi' < lo') : (arc lo hi ∩ arc lo' hi').Nonempty := by
  rw [arc_of_lt h, arc_of_lt h']
  exact ⟨max lo lo', .inl (le_max_left lo lo'), .inl (le_max_right lo lo')⟩

/-- A wrapping arc contains the arcs that start after it or end before it. -/
theorem arc_subset_of_wraps (h : hi < lo) (h' : lo' ≤ hi') (hside : lo ≤ lo' ∨ hi' ≤ hi) :
    arc lo' hi' ⊆ arc lo hi := by
  rw [arc_of_lt h, arc_of_le h']
  rintro x ⟨hx, hx'⟩
  exact hside.imp hx.trans' hx'.trans

theorem arc_subset_of_wider (h : hi < lo) (hlo : lo ≤ lo') (hhi : hi' ≤ hi) :
    arc lo' hi' ⊆ arc lo hi := by
  rcases le_or_gt lo' hi' with h' | h'
  · exact arc_subset_of_wraps h h' (.inl hlo)
  · rw [arc_of_lt h, arc_of_lt h']
    exact union_subset_union (Ici_subset_Ici.mpr hlo) (Iic_subset_Iic.mpr hhi)

theorem not_arc_subset_plain [NoMaxOrder K] (h : lo ≤ hi) (h' : hi' < lo') :
    ¬ arc lo' hi' ⊆ arc lo hi := by
  rw [arc_of_le h, arc_of_lt h']
  intro hsubset
  obtain ⟨x, hx⟩ := exists_gt (max hi lo')
  have hin : x ∈ Icc lo hi := hsubset (.inl ((le_max_right hi lo').trans hx.le))
  exact hx.not_ge (hin.2.trans (le_max_left hi lo'))

end Arc

/-! ## Boxes -/

inductive BboxSpace where
  | geographic
  | planar
  deriving DecidableEq, Repr

structure BoundingBox (K : Type*) where
  minLng : K
  minLat : K
  maxLng : K
  maxLat : K
  deriving DecidableEq, Repr

namespace BoundingBox

variable {K : Type*} [LinearOrder K] {a b : BoundingBox K}

def crossesAntimeridian (self : BoundingBox K) : Bool := self.minLng > self.maxLng

def containsPoint (self : BoundingBox K) (lng lat : K) : Bool :=
  if lat < self.minLat ∨ lat > self.maxLat then false
  else if self.crossesAntimeridian then lng ≥ self.minLng ∨ lng ≤ self.maxLng
  else lng ≥ self.minLng ∧ lng ≤ self.maxLng

def containsBbox (self other : BoundingBox K) : Bool :=
  if other.minLat < self.minLat ∨ other.maxLat > self.maxLat then false
  else
    match self.crossesAntimeridian, other.crossesAntimeridian with
    | false, false => other.minLng ≥ self.minLng ∧ other.maxLng ≤ self.maxLng
    | true, false => other.minLng ≥ self.minLng ∨ other.maxLng ≤ self.maxLng
    | false, true => false
    | true, true => other.minLng ≥ self.minLng ∧ other.maxLng ≤ self.maxLng

def intersects (self other : BoundingBox K) : Bool :=
  if self.maxLat < other.minLat ∨ self.minLat > other.maxLat then false
  else
    match self.crossesAntimeridian, other.crossesAntimeridian with
    | false, false => self.minLng ≤ other.maxLng ∧ self.maxLng ≥ other.minLng
    | true, false => other.maxLng ≥ self.minLng ∨ other.minLng ≤ self.maxLng
    | false, true => self.maxLng ≥ other.minLng ∨ self.minLng ≤ other.maxLng
    | true, true => true

theorem crosses_of_le (h : a.minLng ≤ a.maxLng) : a.crossesAntimeridian = false :=
  decide_eq_false h.not_gt

theorem crosses_of_lt (h : a.maxLng < a.minLng) : a.crossesAntimeridian = true :=
  decide_eq_true h

/-! ## What a box covers -/

def points (self : BoundingBox K) : Set (K × K) :=
  {point | self.containsPoint point.1 point.2 = true}

theorem points_eq (self : BoundingBox K) :
    self.points = arc self.minLng self.maxLng ×ˢ Icc self.minLat self.maxLat := by
  ext ⟨lng, lat⟩
  change self.containsPoint lng lat = true ↔ _
  unfold containsPoint
  by_cases hlat : lat < self.minLat ∨ lat > self.maxLat
  · rw [if_pos hlat]
    refine iff_of_false Bool.false_ne_true ?_
    rintro ⟨-, hmin, hmax⟩
    exact hlat.elim hmin.not_gt hmax.not_gt
  rw [if_neg hlat]
  rw [not_or, not_lt, not_lt] at hlat
  rw [mem_prod, mem_Icc, and_iff_left hlat]
  rcases le_or_gt self.minLng self.maxLng with h | h
  · rw [crosses_of_le h, arc_of_le h, if_neg Bool.false_ne_true]
    exact decide_eq_true_iff
  · rw [crosses_of_lt h, arc_of_lt h, if_pos rfl]
    exact decide_eq_true_iff

theorem points_subset_iff {outer inner : BoundingBox K} (hlat : inner.minLat ≤ inner.maxLat) :
    inner.points ⊆ outer.points ↔
      arc inner.minLng inner.maxLng ⊆ arc outer.minLng outer.maxLng ∧
        outer.minLat ≤ inner.minLat ∧ inner.maxLat ≤ outer.maxLat := by
  have harc : (arc inner.minLng inner.maxLng).Nonempty := ⟨_, left_mem_arc⟩
  rw [points_eq, points_eq, prod_subset_prod_iff, Icc_subset_Icc_iff hlat]
  simp [harc.ne_empty, (nonempty_Icc.mpr hlat).ne_empty]

theorem points_subset_of_containsBbox (hlat : b.minLat ≤ b.maxLat)
    (h : a.containsBbox b = true) : b.points ⊆ a.points := by
  rw [points_subset_iff hlat]
  unfold containsBbox at h
  split_ifs at h with hlats
  rw [not_or, not_lt, not_lt] at hlats
  refine ⟨?_, hlats⟩
  rcases le_or_gt a.minLng a.maxLng with ha | ha <;> rcases le_or_gt b.minLng b.maxLng with hb | hb
  · simp only [crosses_of_le ha, crosses_of_le hb, decide_eq_true_eq] at h
    rw [arc_of_le ha, arc_of_le hb]
    exact Icc_subset_Icc h.1 h.2
  · simp [crosses_of_le ha, crosses_of_lt hb] at h
  · simp only [crosses_of_lt ha, crosses_of_le hb, decide_eq_true_eq] at h
    exact arc_subset_of_wraps ha hb h
  · simp only [crosses_of_lt ha, crosses_of_lt hb, decide_eq_true_eq] at h
    exact arc_subset_of_wider ha h.1 h.2

theorem intersects_iff (hlatA : a.minLat ≤ a.maxLat) (hlatB : b.minLat ≤ b.maxLat) :
    a.intersects b = true ↔ (a.points ∩ b.points).Nonempty := by
  rw [points_eq, points_eq, prod_inter_prod, prod_nonempty_iff, Icc_inter_Icc, nonempty_Icc]
  unfold intersects
  split_ifs with hlats
  · refine iff_of_false not_false ?_
    rintro ⟨-, hlat⟩
    rw [max_le_iff, le_min_iff, le_min_iff] at hlat
    exact hlats.elim hlat.2.1.not_gt hlat.1.2.not_gt
  · rw [not_or, not_lt, not_lt] at hlats
    have hlat : max a.minLat b.minLat ≤ min a.maxLat b.maxLat :=
      max_le (le_min hlatA hlats.2) (le_min hlats.1 hlatB)
    rw [and_iff_left hlat]
    rcases le_or_gt a.minLng a.maxLng with ha | ha <;>
      rcases le_or_gt b.minLng b.maxLng with hb | hb
    · simp only [crosses_of_le ha, crosses_of_le hb, decide_eq_true_eq]
      rw [arc_of_le ha, arc_of_le hb, Icc_inter_Icc, nonempty_Icc, max_le_iff, le_min_iff,
        le_min_iff]
      constructor
      · rintro ⟨hmin, hmax⟩
        exact ⟨⟨ha, hmin⟩, hmax, hb⟩
      · rintro ⟨⟨-, hmin⟩, hmax, -⟩
        exact ⟨hmin, hmax⟩
    · simp only [crosses_of_le ha, crosses_of_lt hb, decide_eq_true_eq]
      rw [inter_comm, arc_inter_wrapped_plain hb ha]
    · simp only [crosses_of_lt ha, crosses_of_le hb, decide_eq_true_eq]
      rw [arc_inter_wrapped_plain ha hb]
    · simp only [crosses_of_lt ha, crosses_of_lt hb]
      exact iff_of_true trivial (arc_inter_wrapped ha hb)

end BoundingBox

/-! ## Unions -/

variable {K : Type*} [Field K] [LinearOrder K] {aMin aMax bMin bMax lo hi : K}

/-- The branch of the union for a wrapping arc `a` and a plain arc `b`. -/
def extendLongitude (aMin aMax bMin bMax : K) : K × K :=
  if bMin ≥ aMin ∨ bMax ≤ aMax then (aMin, aMax)
  else
    let extendEast := aMin - bMin
    let extendWest := bMax - aMax
    if extendEast ≤ extendWest then (bMin, aMax) else (aMin, bMax)

def unionLongitude (aMin aMax bMin bMax : K) : K × K :=
  match decide (aMin > aMax), decide (bMin > bMax) with
  | false, false =>
    let simpleMin := min aMin bMin
    let simpleMax := max aMax bMax
    let simpleSpan := simpleMax - simpleMin
    let gap := min (max (bMin - aMax) 0) (max (aMin - bMax) 0)
    if gap ≤ 0 then (simpleMin, simpleMax)
    else
      let wrapMin := max aMin bMin
      let wrapMax := min aMax bMax
      let wrapSpan := (180 - wrapMin) + (wrapMax + 180)
      if wrapSpan < simpleSpan then (wrapMin, wrapMax) else (simpleMin, simpleMax)
  | true, false => extendLongitude aMin aMax bMin bMax
  | false, true => extendLongitude bMin bMax aMin aMax
  | true, true => (min aMin bMin, max aMax bMax)

def BoundingBox.unionIn (self other : BoundingBox K) (space : BboxSpace) : BoundingBox K :=
  let longitude :=
    match space with
    | .geographic => unionLongitude self.minLng self.maxLng other.minLng other.maxLng
    | .planar => (min self.minLng other.minLng, max self.maxLng other.maxLng)
  { minLng := longitude.1
    minLat := min self.minLat other.minLat
    maxLng := longitude.2
    maxLat := max self.maxLat other.maxLat }

/-- The wrapping arc `a` covers `b` on one side already, or leaves a gap where
it is extended over `b`. -/
def ExtensionWraps (aMin aMax bMin bMax : K) : Prop :=
  bMin ≥ aMin ∨ bMax ≤ aMax ∨
    if aMin - bMin ≤ bMax - aMax then aMax < bMin else bMax < aMin

/-- The arcs are both plain, or leave a gap that their union does not close. -/
def LeavesGap (aMin aMax bMin bMax : K) : Prop :=
  (aMax < aMin → bMin ≤ bMax → ExtensionWraps aMin aMax bMin bMax) ∧
    (aMin ≤ aMax → bMax < bMin → ExtensionWraps bMin bMax aMin aMax) ∧
    (aMax < aMin → bMax < bMin → max aMax bMax < min aMin bMin)

theorem wraps_extendLongitude_iff (ha : aMax < aMin)
    (hextend : extendLongitude aMin aMax bMin bMax = (lo, hi)) :
    hi < lo ↔ ExtensionWraps aMin aMax bMin bMax := by
  unfold extendLongitude at hextend
  unfold ExtensionWraps
  dsimp only at hextend
  split_ifs at hextend with hside hnearer
  · cases hextend
    exact iff_of_true ha (hside.imp_right .inl)
  all_goals
    cases hextend
    rw [not_or] at hside
    rw [or_iff_right hside.1, or_iff_right hside.2]
  · rw [if_pos hnearer]
  · rw [if_neg hnearer]

theorem arc_extendLongitude (ha : aMax < aMin) (hb : bMin ≤ bMax)
    (hextend : extendLongitude aMin aMax bMin bMax = (lo, hi)) (hwraps : hi < lo) :
    arc aMin aMax ⊆ arc lo hi ∧ arc bMin bMax ⊆ arc lo hi := by
  unfold extendLongitude at hextend
  dsimp only at hextend
  split_ifs at hextend with hside
  · cases hextend
    exact ⟨subset_rfl, arc_subset_of_wraps ha hb hside⟩
  all_goals
    cases hextend
    rw [not_or, not_le, not_le] at hside
  · exact ⟨arc_subset_of_wider hwraps hside.1.le le_rfl,
      arc_subset_of_wraps hwraps hb (.inl le_rfl)⟩
  · exact ⟨arc_subset_of_wider hwraps le_rfl hside.2.le,
      arc_subset_of_wraps hwraps hb (.inr le_rfl)⟩

variable [IsStrictOrderedRing K]

/-- Two plain arcs never leave a gap on both sides. -/
theorem unionLongitude_plain (ha : aMin ≤ aMax) (hb : bMin ≤ bMax) :
    unionLongitude aMin aMax bMin bMax = (min aMin bMin, max aMax bMax) := by
  have hgap : min (max (bMin - aMax) 0) (max (aMin - bMax) 0) ≤ 0 := by
    rw [min_le_iff, max_le_iff, max_le_iff, sub_nonpos, sub_nonpos]
    rcases le_or_gt bMin aMax with h | h
    · exact .inl ⟨h, le_rfl⟩
    · exact .inr ⟨ha.trans (h.le.trans hb), le_rfl⟩
  simp [unionLongitude, ha.not_gt, hb.not_gt, hgap]

/-- The arcs are covered exactly when the union wraps where one of them does. -/
theorem arc_unionLongitude_iff (hunion : unionLongitude aMin aMax bMin bMax = (lo, hi)) :
    arc aMin aMax ⊆ arc lo hi ∧ arc bMin bMax ⊆ arc lo hi ↔ LeavesGap aMin aMax bMin bMax := by
  unfold LeavesGap
  rcases le_or_gt aMin aMax with ha | ha <;> rcases le_or_gt bMin bMax with hb | hb
  · cases (unionLongitude_plain ha hb).symm.trans hunion
    have hle : min aMin bMin ≤ max aMax bMax :=
      (min_le_left _ _).trans (ha.trans (le_max_left _ _))
    rw [arc_of_le ha, arc_of_le hb, arc_of_le hle]
    simp [Icc_subset_Icc, ha.not_gt, hb.not_gt]
  · have hextend : extendLongitude bMin bMax aMin aMax = (lo, hi) := by
      simpa [unionLongitude, ha.not_gt, hb] using hunion
    simp only [ha, hb, ha.not_gt, hb.not_ge, false_imp_iff, true_imp_iff, true_and, and_true]
    rw [← wraps_extendLongitude_iff hb hextend]
    refine ⟨fun hsubset => ?_, fun hwraps => (arc_extendLongitude hb ha hextend hwraps).symm⟩
    exact not_le.mp fun hplain => not_arc_subset_plain hplain hb hsubset.2
  · have hextend : extendLongitude aMin aMax bMin bMax = (lo, hi) := by
      simpa [unionLongitude, ha, hb.not_gt] using hunion
    simp only [ha, hb, hb.not_gt, ha.not_ge, false_imp_iff, true_imp_iff, and_true]
    rw [← wraps_extendLongitude_iff ha hextend]
    refine ⟨fun hsubset => ?_, arc_extendLongitude ha hb hextend⟩
    exact not_le.mp fun hplain => not_arc_subset_plain hplain ha hsubset.1
  · have hboth : (min aMin bMin, max aMax bMax) = (lo, hi) := by
      simpa [unionLongitude, ha, hb] using hunion
    cases hboth
    simp only [ha, hb, ha.not_ge, hb.not_ge, false_imp_iff, true_imp_iff, true_and]
    refine ⟨fun hsubset => ?_, fun hlt => ?_⟩
    · exact not_le.mp fun hplain => not_arc_subset_plain hplain ha hsubset.1
    · exact ⟨arc_subset_of_wider hlt (min_le_left _ _) (le_max_left _ _),
        arc_subset_of_wider hlt (min_le_right _ _) (le_max_right _ _)⟩

namespace BoundingBox

/-- The tests agree with the point sets.  The union covers both boxes exactly when they leave
a gap. -/
theorem point_sets_of_boxes (a b : BoundingBox K) (hlatA : a.minLat ≤ a.maxLat)
    (hlatB : b.minLat ≤ b.maxLat) :
    (a.intersects b = true ↔ (a.points ∩ b.points).Nonempty) ∧
      (a.containsBbox b = true → b.points ⊆ a.points) ∧
      (a.points ∪ b.points ⊆ (a.unionIn b .geographic).points ↔
        LeavesGap a.minLng a.maxLng b.minLng b.maxLng) := by
  refine ⟨intersects_iff hlatA hlatB, points_subset_of_containsBbox hlatB, ?_⟩
  have hlatsA : (a.unionIn b .geographic).minLat ≤ a.minLat ∧
      a.maxLat ≤ (a.unionIn b .geographic).maxLat := ⟨min_le_left _ _, le_max_left _ _⟩
  have hlatsB : (a.unionIn b .geographic).minLat ≤ b.minLat ∧
      b.maxLat ≤ (a.unionIn b .geographic).maxLat := ⟨min_le_right _ _, le_max_right _ _⟩
  rw [union_subset_iff, points_subset_iff hlatA, points_subset_iff hlatB, and_iff_left hlatsA,
    and_iff_left hlatsB]
  exact arc_unionLongitude_iff rfl

/-- A box across the antimeridian and a plain one that overlaps it from the
west. -/
theorem pacific_union_covers :
    let a : BoundingBox ℚ := ⟨170, -10, -170, 10⟩
    let b : BoundingBox ℚ := ⟨160, -5, 175, 5⟩
    a.points ∪ b.points ⊆ (a.unionIn b .geographic).points := by
  refine (point_sets_of_boxes _ _ (by norm_num) (by norm_num)).2.2.mpr ⟨?_, ?_, ?_⟩
  · norm_num [ExtensionWraps]
  · norm_num
  · norm_num

/-- The wrapping box reaches from 100 to -100, the plain one closes the gap between them, and
their union is the stretch from 100 to 120. -/
theorem closed_gap_leaves_points_out :
    let a : BoundingBox ℚ := ⟨100, -10, -100, 10⟩
    let b : BoundingBox ℚ := ⟨-150, -10, 120, 10⟩
    a.containsPoint 180 0 = true ∧ (a.unionIn b .geographic).containsPoint 180 0 = false := by
  decide +kernel

end BoundingBox

end NodeDB.Spatial
