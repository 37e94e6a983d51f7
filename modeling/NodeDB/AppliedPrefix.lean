import NodeDB.IntervalSet
import NodeDB.StepRuns

/-!
# Restart stamps

A core keeps the highest outcome floor it has read and the set of log
positions above it that it applied itself.  A checkpoint takes both as its
stamp, and restart replay skips exactly the records the stamp names.  The set
is dropped when it has too many ranges; then no stamp is given until the floor
has passed every position that was dropped.
-/

namespace NodeDB.AppliedPrefix

open Std KeyedFold IntervalSet List

def maxLsn : Nat := 2 ^ 64 - 1

def checkedSucc (lsn : Nat) : Option Nat :=
  if lsn < maxLsn then some (lsn + 1) else none

/-! ## Sets of positions -/

structure LsnRange where
  start : Nat
  stop : Nat
  deriving DecidableEq, Repr

/-- Positions as a map from the start of a range to its inclusive end. -/
structure LsnRanges where
  ranges : TreeMap Nat Nat

namespace LsnRanges

def empty : LsnRanges where
  ranges := ∅

def contains (set : LsnRanges) (lsn : Nat) : Bool :=
  (lastBelow set.ranges (lsn + 1)).any fun range => lsn ≤ range.2

/-- Takes out the range that ends right before the position; gives the start of
the range the position belongs to. -/
def absorbPrevious (ranges : TreeMap Nat Nat) (lsn : Nat) : Nat × TreeMap Nat Nat :=
  match lastBelow ranges lsn with
  | some (prevStart, prevEnd) =>
    if checkedSucc prevEnd = some lsn then (prevStart, ranges.erase prevStart)
    else (lsn, ranges)
  | none => (lsn, ranges)

def absorbNext (ranges : TreeMap Nat Nat) (lsn : Nat) : Nat × TreeMap Nat Nat :=
  match checkedSucc lsn with
  | some next =>
    match ranges[next]? with
    | some nextEnd => (nextEnd, ranges.erase next)
    | none => (lsn, ranges)
  | none => (lsn, ranges)

def insert (set : LsnRanges) (lsn : Nat) : LsnRanges :=
  if set.contains lsn then set
  else
    let (start, kept) := absorbPrevious set.ranges lsn
    let (stop, kept) := absorbNext kept lsn
    { ranges := kept.insert start stop }

def pruneThrough (set : LsnRanges) (floor : Nat) : LsnRanges :=
  match checkedSucc floor with
  | none => { ranges := ∅ }
  | some above =>
    let kept := set.ranges.filter fun start _ => above ≤ start
    match (lastBelow set.ranges above).filter fun range => above ≤ range.2 with
    | some (_, stop) => { ranges := kept.insert above stop }
    | none => { ranges := kept }

def max (set : LsnRanges) : Option Nat :=
  set.ranges.toList.getLast?.map Prod.snd

def rangeCount (set : LsnRanges) : Nat :=
  set.ranges.size

def toRanges (set : LsnRanges) : List LsnRange :=
  set.ranges.toList.map fun range =>
    { start := range.1
      stop := range.2 }

end LsnRanges

open LsnRanges

/-! ## Stamps -/

structure ReplayStamp where
  prefixLsn : Nat
  appliedAbove : List LsnRange
  deriving DecidableEq, Repr

inductive InvalidReplayStamp where
  | inverted (start stop : Nat)
  | notAbovePrefix (start stop prefixLsn : Nat)
  | outOfOrder (previousEnd start : Nat)
  deriving DecidableEq, Repr

namespace ReplayStamp

def through (prefixLsn : Nat) : ReplayStamp where
  prefixLsn := prefixLsn
  appliedAbove := []

def skips (stamp : ReplayStamp) (recordLsn : Nat) : Bool :=
  if recordLsn ≤ stamp.prefixLsn then true
  else
    let after := partitionPoint (fun range => range.start ≤ recordLsn) stamp.appliedAbove
    0 < after && stamp.appliedAbove[after - 1]?.any fun range => recordLsn ≤ range.stop

def validateFrom (prefixLsn : Nat) :
    Option Nat → List LsnRange → Except InvalidReplayStamp Unit
  | _, [] => .ok ()
  | previousEnd, range :: rest =>
    if range.stop < range.start then .error (.inverted range.start range.stop)
    else if range.start ≤ prefixLsn then
      .error (.notAbovePrefix range.start range.stop prefixLsn)
    else
      match previousEnd with
      | some last =>
        if range.start ≤ min (last + 1) maxLsn then .error (.outOfOrder last range.start)
        else validateFrom prefixLsn (some range.stop) rest
      | none => validateFrom prefixLsn (some range.stop) rest

def validate (stamp : ReplayStamp) : Except InvalidReplayStamp Unit :=
  validateFrom stamp.prefixLsn none stamp.appliedAbove

end ReplayStamp

/-! ## The tracker -/

def maxAppliedRanges : Nat := 65536

structure StampUnavailable where
  floor : Nat
  droppedThrough : Nat
  deriving DecidableEq, Repr

/-- `dropped` is the highest position applied since the set was dropped. -/
structure Tracker where
  outcomeFloor : Nat
  appliedAbove : LsnRanges
  dropped : Option Nat

namespace Tracker

def new : Tracker where
  outcomeFloor := 0
  appliedAbove := LsnRanges.empty
  dropped := none

def observeOutcomeFloor (tracker : Tracker) (floor : Nat) : Tracker :=
  if floor ≤ tracker.outcomeFloor then tracker
  else
    { outcomeFloor := floor
      appliedAbove := tracker.appliedAbove.pruneThrough floor
      dropped := tracker.dropped.filter fun dropped => floor < dropped }

def noteApplied (tracker : Tracker) (lsn : Nat) : Tracker :=
  if lsn ≤ tracker.outcomeFloor then tracker
  else
    match tracker.dropped with
    | some dropped => { tracker with dropped := some (max dropped lsn) }
    | none =>
      let applied := tracker.appliedAbove.insert lsn
      if maxAppliedRanges < applied.rangeCount then
        { tracker with
          dropped := some (max (applied.max.getD lsn) lsn)
          appliedAbove := LsnRanges.empty }
      else { tracker with appliedAbove := applied }

def stamp (tracker : Tracker) : Except StampUnavailable ReplayStamp :=
  match tracker.dropped with
  | some droppedThrough =>
    .error
      { floor := tracker.outcomeFloor
        droppedThrough := droppedThrough }
  | none =>
    .ok { ReplayStamp.through tracker.outcomeFloor with
          appliedAbove := tracker.appliedAbove.toRanges }

end Tracker

open Tracker

inductive Call where
  | noteApplied (lsn : UInt64)
  | observeOutcomeFloor (floor : UInt64)
  deriving DecidableEq, Repr

def Tracker.perform (tracker : Tracker) : Call → Tracker
  | .noteApplied lsn => tracker.noteApplied lsn.toNat
  | .observeOutcomeFloor floor => tracker.observeOutcomeFloor floor.toNat

def Tracker.run (calls : List Call) : Tracker :=
  calls.foldl Tracker.perform Tracker.new

def highestFloor (calls : List Call) : Nat :=
  calls.foldl (fun highest call =>
    match call with
    | .observeOutcomeFloor floor => max highest floor.toNat
    | .noteApplied _ => highest) 0

/-! ## What the set operations do -/

namespace LsnRanges

variable {ranges : TreeMap Nat Nat} {lsn : Nat}

section

variable (h : Separated maxLsn ranges)
include h

theorem contains_iff (lsn : Nat) : (LsnRanges.mk ranges).contains lsn = true ↔ Covers ranges lsn :=
  (h.covers_iff lsn).symm

theorem absorbPrevious_spec (hlsn : lsn ≤ maxLsn) (hnew : ¬ Covers ranges lsn) {start : Nat}
    {kept : TreeMap Nat Nat} (habsorb : absorbPrevious ranges lsn = (start, kept)) :
    Separated maxLsn kept ∧ start ≤ lsn ∧
      (∀ {low high : Nat}, kept[low]? = some high → high + 1 < start ∨ lsn < low) ∧
      ∀ number, Covers ranges number ↔ Covers kept number ∨ start ≤ number ∧ number < lsn := by
  have hlater : ∀ {low high : Nat}, ranges[low]? = some high → lsn ≤ low → lsn < low := by
    intro low high hrange hge
    refine hge.lt_of_ne ?_
    rintro rfl
    exact hnew ⟨lsn, high, hrange, le_rfl, h.ordered hrange⟩
  unfold absorbPrevious at habsorb
  rcases hlast : lastBelow ranges lsn with _ | ⟨prevStart, prevEnd⟩
  · rw [hlast] at habsorb
    obtain ⟨rfl, rfl⟩ := Prod.mk.inj habsorb
    exact ⟨h, le_rfl, fun hrange => .inr (hlater hrange (lastBelow_eq_none hlast hrange)),
      fun number => by simp⟩
  · obtain ⟨hprev, hbelow, hmax⟩ := lastBelow_eq_some hlast
    have hend : prevEnd < lsn := by
      by_contra hge
      exact hnew ⟨prevStart, prevEnd, hprev, hbelow.le, Nat.not_lt.mp hge⟩
    have hsucc : checkedSucc prevEnd = some (prevEnd + 1) := if_pos (by omega)
    have hcases : ∀ {low high : Nat}, ranges[low]? = some high →
        lsn < low ∨ high + 1 < prevStart ∨ low = prevStart ∧ high = prevEnd := by
      intro low high hrange
      rcases Nat.lt_or_ge low lsn with hlow | hge
      · exact .inr (h.apart_or_same hrange hprev (hmax low high hrange hlow))
      · exact .inl (hlater hrange hge)
    simp only [hlast, hsucc, Option.some.injEq] at habsorb
    by_cases htouch : prevEnd + 1 = lsn
    · rw [if_pos htouch] at habsorb
      obtain ⟨rfl, rfl⟩ := Prod.mk.inj habsorb
      refine ⟨h.erase prevStart, hbelow.le, fun {low high} hrange => ?_, fun number => ?_⟩
      · obtain ⟨hne, hrange⟩ := getElem?_erase_eq_some_iff.mp hrange
        have := hcases hrange
        omega
      · rw [covers_erase hprev number]
        exact or_congr_right (by omega)
    · rw [if_neg htouch] at habsorb
      obtain ⟨rfl, rfl⟩ := Prod.mk.inj habsorb
      refine ⟨h, le_rfl, fun {low high} hrange => ?_, fun number => by simp⟩
      have := hcases hrange
      omega

theorem absorbNext_spec (hlsn : lsn ≤ maxLsn) {stop : Nat} {kept : TreeMap Nat Nat}
    (habsorb : absorbNext ranges lsn = (stop, kept)) :
    Separated maxLsn kept ∧ lsn ≤ stop ∧ stop ≤ maxLsn ∧
      (∀ {low high : Nat}, kept[low]? = some high →
        ranges[low]? = some high ∧ (lsn < low → stop + 1 < low)) ∧
      ∀ number, Covers ranges number ↔ Covers kept number ∨ lsn < number ∧ number ≤ stop := by
  unfold absorbNext checkedSucc at habsorb
  by_cases hlast : lsn < maxLsn
  · simp only [if_pos hlast] at habsorb
    rcases hnext : ranges[lsn + 1]? with _ | nextEnd
    · rw [hnext] at habsorb
      obtain ⟨rfl, rfl⟩ := Prod.mk.inj habsorb
      refine ⟨h, le_rfl, hlsn, fun {low high} hrange => ⟨hrange, fun hlow => ?_⟩,
        fun number => by simp only [iff_self_or]; omega⟩
      have hne : low ≠ lsn + 1 := by
        rintro rfl
        simp [hnext] at hrange
      omega
    · rw [hnext] at habsorb
      obtain ⟨rfl, rfl⟩ := Prod.mk.inj habsorb
      have horder := h.ordered hnext
      refine ⟨h.erase _, by omega, h.bounded hnext, fun {low high} hrange => ?_, fun number => ?_⟩
      · obtain ⟨hne, hrange⟩ := getElem?_erase_eq_some_iff.mp hrange
        exact ⟨hrange, fun hlow => h.apart hnext hrange (by omega)⟩
      · rw [covers_erase hnext number]
        exact or_congr_right (by omega)
  · simp only [if_neg hlast] at habsorb
    obtain ⟨rfl, rfl⟩ := Prod.mk.inj habsorb
    refine ⟨h, le_rfl, hlsn, fun {low high} hrange => ⟨hrange, fun hlow => ?_⟩,
      fun number => by simp only [iff_self_or]; omega⟩
    have := h.ordered hrange
    have := h.bounded hrange
    omega

theorem insert_spec (hlsn : lsn ≤ maxLsn) :
    Separated maxLsn ((LsnRanges.mk ranges).insert lsn).ranges ∧
      ∀ number, Covers ((LsnRanges.mk ranges).insert lsn).ranges number ↔
        Covers ranges number ∨ number = lsn := by
  unfold insert
  by_cases hold : (LsnRanges.mk ranges).contains lsn = true
  · rw [if_pos hold]
    refine ⟨h, fun number => ⟨.inl, ?_⟩⟩
    rintro (hcovers | rfl)
    · exact hcovers
    · exact (contains_iff h _).mp hold
  · rw [if_neg hold]
    have hnew : ¬ Covers ranges lsn := mt (contains_iff h lsn).mpr hold
    rcases hprev : absorbPrevious ranges lsn with ⟨start, kept⟩
    obtain ⟨hkept, hstart, hbefore, hcovers⟩ := absorbPrevious_spec h hlsn hnew hprev
    rcases hnext : absorbNext kept lsn with ⟨stop, rest⟩
    obtain ⟨hrest, hstop, hbound, hafter, hcovers'⟩ := absorbNext_spec hkept hlsn hnext
    have hapart : ∀ {low high : Nat}, rest[low]? = some high →
        high + 1 < start ∨ stop + 1 < low := by
      intro low high hrange
      obtain ⟨hrange, hlater⟩ := hafter hrange
      exact (hbefore hrange).imp_right hlater
    simp only [hnext]
    refine ⟨hrest.insert (by omega) hbound hapart, fun number => ?_⟩
    rw [hrest.covers_insert (by omega) hapart, hcovers, hcovers', or_assoc, or_assoc]
    exact or_congr_right (by omega)

end

theorem pruneThrough_spec (h : Separated maxLsn ranges) (floor : Nat) :
    Separated maxLsn ((LsnRanges.mk ranges).pruneThrough floor).ranges ∧
      ∀ number, Covers ((LsnRanges.mk ranges).pruneThrough floor).ranges number ↔
        Covers ranges number ∧ floor < number := by
  unfold pruneThrough checkedSucc
  by_cases hfloor : floor < maxLsn
  · simp only [if_pos hfloor]
    set kept := ranges.filter fun start _ => decide (floor + 1 ≤ start) with hkeptDef
    have hiff : ∀ {low high : Nat}, kept[low]? = some high ↔
        ranges[low]? = some high ∧ floor + 1 ≤ low := by
      intro low high
      rw [hkeptDef, getElem?_filter_eq_some_iff, decide_eq_true_eq]
    have hkept : Separated maxLsn kept := h.of_subset fun hrange => (hiff.mp hrange).1
    have hsub : ∀ {number}, Covers kept number → Covers ranges number ∧ floor < number := by
      rintro number ⟨low, high, hrange, hin⟩
      obtain ⟨hrange, habove⟩ := hiff.mp hrange
      exact ⟨⟨low, high, hrange, hin⟩, by omega⟩
    have hall (hends : ∀ {low high : Nat}, ranges[low]? = some high → low ≤ floor →
        high ≤ floor) : Separated maxLsn kept ∧
          ∀ number, Covers kept number ↔ Covers ranges number ∧ floor < number := by
      refine ⟨hkept, fun number => ⟨hsub, ?_⟩⟩
      rintro ⟨⟨low, high, hrange, hin⟩, hnumber⟩
      refine ⟨low, high, hiff.mpr ⟨hrange, ?_⟩, hin⟩
      by_contra hlow
      have := hends hrange (by omega)
      omega
    rcases hlast : lastBelow ranges (floor + 1) with _ | ⟨start, stop⟩
    · -- every range starts above the floor
      exact hall fun hrange hlow =>
        absurd (lastBelow_eq_none hlast hrange) (Nat.not_le.mpr (Nat.lt_succ_of_le hlow))
    · obtain ⟨hrange, hbelow, hmax⟩ := lastBelow_eq_some hlast
      have hother : ∀ {low high : Nat}, ranges[low]? = some high → low ≤ floor →
          high + 1 < start ∨ low = start ∧ high = stop := fun hlow hlt =>
        h.apart_or_same hlow hrange (hmax _ _ hlow (Nat.lt_succ_of_le hlt))
      by_cases hstraddle : floor + 1 ≤ stop
      · simp only [Option.filter_some, decide_eq_true hstraddle, if_true]
        have hapart : ∀ {low high : Nat}, kept[low]? = some high →
            high + 1 < floor + 1 ∨ stop + 1 < low := by
          intro low high hlow
          obtain ⟨hlow, habove⟩ := hiff.mp hlow
          exact .inr (h.apart hrange hlow (by omega))
        refine ⟨hkept.insert hstraddle (h.bounded hrange) hapart, fun number => ?_⟩
        rw [hkept.covers_insert hstraddle hapart]
        constructor
        · rintro (hcovers | hin)
          · exact hsub hcovers
          · exact ⟨⟨start, stop, hrange, by omega, hin.2⟩, by omega⟩
        · rintro ⟨⟨low, high, hlow, hin⟩, hnumber⟩
          by_cases habove : floor + 1 ≤ low
          · exact .inl ⟨low, high, hiff.mpr ⟨hlow, habove⟩, hin⟩
          · have := hother hlow (by omega)
            exact .inr (by omega)
      · simp only [Option.filter_some, decide_eq_false hstraddle]
        refine hall fun hlow hle => ?_
        have := hother hlow hle
        omega
  · simp only [if_neg hfloor]
    refine ⟨separated_empty maxLsn, fun number => ⟨fun hcovers => ?_, ?_⟩⟩
    · exact absurd hcovers (not_covers_empty number)
    · rintro ⟨⟨low, high, hrange, hin⟩, hnumber⟩
      have := h.bounded hrange
      omega

theorem isGreatest_max (h : Separated maxLsn ranges) {number : Nat} (hcovers : Covers ranges number) :
    ∃ highest, (LsnRanges.mk ranges).max = some highest ∧
      IsGreatest {number | Covers ranges number} highest := by
  obtain ⟨start, stop, hrange, -⟩ := hcovers
  have hmem := TreeMap.mem_toList_iff_getElem?_eq_some.mpr hrange
  rcases hlast : ranges.toList.getLast? with _ | ⟨last, highest⟩
  · rw [getLast?_eq_none_iff] at hlast
    simp [hlast] at hmem
  · have hfinal := TreeMap.mem_toList_iff_getElem?_eq_some.mp (mem_of_getLast? hlast)
    have horder := h.ordered hfinal
    refine ⟨highest, by simp [max, hlast], ⟨last, highest, hfinal, horder, le_rfl⟩, ?_⟩
    rintro number ⟨start, stop, hrange, hstart, hstop⟩
    have hle : start ≤ last := le_of_getLast? (pairwise_toList ranges) hlast (start, stop)
      (TreeMap.mem_toList_iff_getElem?_eq_some.mpr hrange)
    have := h.apart_or_same hrange hfinal hle
    omega

theorem pairwise_toRanges (h : Separated maxLsn ranges) :
    (LsnRanges.mk ranges).toRanges.Pairwise fun one other => one.stop + 1 < other.start := by
  rw [toRanges, pairwise_map]
  refine (pairwise_toList ranges).imp_of_mem fun {one other} hone hother hlt => ?_
  exact h.apart (TreeMap.mem_toList_iff_getElem?_eq_some.mp hone)
    (TreeMap.mem_toList_iff_getElem?_eq_some.mp hother) hlt

theorem mem_toRanges {range : LsnRange} :
    range ∈ (LsnRanges.mk ranges).toRanges ↔ ranges[range.start]? = some range.stop := by
  rw [toRanges, mem_map]
  constructor
  · rintro ⟨⟨start, stop⟩, hmem, rfl⟩
    exact TreeMap.mem_toList_iff_getElem?_eq_some.mp hmem
  · intro hrange
    exact ⟨(range.start, range.stop), TreeMap.mem_toList_iff_getElem?_eq_some.mpr hrange, rfl⟩

theorem covers_iff_toRanges {number : Nat} :
    Covers ranges number ↔ ∃ range ∈ (LsnRanges.mk ranges).toRanges,
      range.start ≤ number ∧ number ≤ range.stop := by
  constructor
  · rintro ⟨start, stop, hrange, hin⟩
    exact ⟨⟨start, stop⟩, mem_toRanges.mpr hrange, hin⟩
  · rintro ⟨range, hmem, hin⟩
    exact ⟨range.start, range.stop, mem_toRanges.mp hmem, hin⟩

end LsnRanges

/-! ## What a stamp says -/

namespace ReplayStamp

theorem validateFrom_ok {prefixLsn : Nat} :
    ∀ {ranges : List LsnRange} {previousEnd : Option Nat},
      ranges.Pairwise (fun one other => one.stop + 1 < other.start) →
      (∀ range ∈ ranges, range.start ≤ range.stop ∧ prefixLsn < range.start) →
      (∀ last ∈ previousEnd, ∀ range ∈ ranges, last + 1 < range.start) →
      validateFrom prefixLsn previousEnd ranges = .ok () := by
  intro ranges
  induction ranges with
  | nil => intro previousEnd _ _ _; rfl
  | cons range rest ih =>
    intro previousEnd hpairwise hranges hprevious
    obtain ⟨hhead, htail⟩ := pairwise_cons.mp hpairwise
    obtain ⟨horder, habove⟩ := hranges range mem_cons_self
    have hrest : validateFrom prefixLsn (some range.stop) rest = .ok () := by
      refine ih htail (fun later hlater => hranges later (mem_cons_of_mem _ hlater)) ?_
      rintro last hlast later hlater
      rw [Option.mem_some_iff] at hlast
      exact hlast ▸ hhead later hlater
    have hinverted : ¬ range.stop < range.start := by omega
    have hbelow : ¬ range.start ≤ prefixLsn := by omega
    cases previousEnd with
    | none => rw [validateFrom.eq_def]; simp only [if_neg hinverted, if_neg hbelow, hrest]
    | some last =>
      have hgap : ¬ range.start ≤ min (last + 1) maxLsn := by
        have := hprevious last rfl range mem_cons_self
        omega
      rw [validateFrom.eq_def]
      simp only [if_neg hinverted, if_neg hbelow, if_neg hgap, hrest]

theorem skips_iff {stamp : ReplayStamp} {recordLsn : Nat}
    (hpairwise : stamp.appliedAbove.Pairwise fun one other => one.stop + 1 < other.start)
    (horder : ∀ range ∈ stamp.appliedAbove, range.start ≤ range.stop)
    (habove : stamp.prefixLsn < recordLsn) :
    stamp.skips recordLsn = true ↔
      ∃ range ∈ stamp.appliedAbove, range.start ≤ recordLsn ∧ recordLsn ≤ range.stop := by
  obtain ⟨prefixLsn, ranges⟩ := stamp
  dsimp only at hpairwise horder habove ⊢
  -- the ranges that start at or below the record come first
  have hclosed : ranges.Pairwise fun one other =>
      decide (other.start ≤ recordLsn) = true → decide (one.start ≤ recordLsn) = true :=
    hpairwise.imp_of_mem fun {one other} hone _ hlt hother => by
      have := horder one hone
      rw [decide_eq_true_iff] at hother ⊢
      omega
  obtain ⟨hpoint, hiff⟩ := lt_partitionPoint_iff hclosed
  rw [skips, if_neg (Nat.not_le.mpr habove)]
  set point := partitionPoint (fun range : LsnRange => decide (range.start ≤ recordLsn)) ranges
  simp only [decide_eq_true_iff] at hiff
  rw [Bool.and_eq_true, decide_eq_true_iff]
  constructor
  · rintro ⟨hpos, hany⟩
    have hlast : point - 1 < ranges.length := by omega
    rw [getElem?_eq_getElem hlast, Option.any_some, decide_eq_true_iff] at hany
    exact ⟨ranges[point - 1], getElem_mem _, (hiff _ hlast).mpr (by omega), hany⟩
  · rintro ⟨range, hmem, hstart, hstop⟩
    obtain ⟨place, hplace, rfl⟩ := getElem_of_mem hmem
    have hbefore := (hiff place hplace).mp hstart
    have hlast : point - 1 < ranges.length := by omega
    refine ⟨by omega, ?_⟩
    rw [getElem?_eq_getElem hlast, Option.any_some, decide_eq_true_iff]
    rcases Nat.lt_or_ge place (point - 1) with hlt | hge
    · have hgap := pairwise_iff_getElem.mp hpairwise place (point - 1) hplace hlast hlt
      have := (hiff _ hlast).mpr (by omega)
      omega
    · have heq : point - 1 = place := by omega
      simpa only [heq] using hstop

end ReplayStamp

/-! ## The tracker against its calls -/

theorem highestFloor_append (calls : List Call) (call : Call) :
    highestFloor (calls ++ [call]) =
      match call with
      | .observeOutcomeFloor floor => max (highestFloor calls) floor.toNat
      | .noteApplied _ => highestFloor calls := by
  rw [highestFloor, foldl_append]
  rfl

/-- What the tracker knows: the set is exact above the floor, or it was dropped
and every position noted lies at or below the mark. -/
structure Exact (calls : List Call) (tracker : Tracker) : Prop where
  floor : tracker.outcomeFloor = highestFloor calls
  separated : Separated maxLsn tracker.appliedAbove.ranges
  above : ∀ number, Covers tracker.appliedAbove.ranges number → tracker.outcomeFloor < number
  exact : tracker.dropped = none → ∀ lsn : UInt64, tracker.outcomeFloor < lsn.toNat →
    (Covers tracker.appliedAbove.ranges lsn.toNat ↔ .noteApplied lsn ∈ calls)
  marked : ∀ mark ∈ tracker.dropped, tracker.outcomeFloor < mark ∧
    (∃ lsn : UInt64, .noteApplied lsn ∈ calls ∧ lsn.toNat = mark) ∧
    (∀ lsn : UInt64, .noteApplied lsn ∈ calls → lsn.toNat ≤ mark) ∧
    ∀ number, ¬ Covers tracker.appliedAbove.ranges number

theorem exact_new : Exact [] Tracker.new where
  floor := rfl
  separated := separated_empty maxLsn
  above number hcovers := absurd hcovers (not_covers_empty number)
  exact _ lsn _ := by
    simpa [Tracker.new, LsnRanges.empty] using not_covers_empty lsn.toNat
  marked := by simp [Tracker.new]

theorem toNat_le_maxLsn (lsn : UInt64) : lsn.toNat ≤ maxLsn := by
  have := lsn.toNat_lt
  unfold maxLsn
  omega

theorem exists_word {ranges : TreeMap Nat Nat} (h : Separated maxLsn ranges) {number : Nat}
    (hcovers : Covers ranges number) : ∃ lsn : UInt64, lsn.toNat = number := by
  obtain ⟨start, stop, hrange, -, hstop⟩ := hcovers
  have hbound : number < UInt64.size :=
    Nat.lt_of_le_of_lt (hstop.trans (h.bounded hrange)) (by decide)
  exact ⟨UInt64.ofNat number, UInt64.toNat_ofNat_of_lt' hbound⟩

section Steps

variable {calls : List Call} {tracker : Tracker}

theorem Exact.observe (h : Exact calls tracker) (floor : UInt64) :
    Exact (calls ++ [.observeOutcomeFloor floor]) (tracker.observeOutcomeFloor floor.toNat) := by
  have hnoted : ∀ lsn, Call.noteApplied lsn ∈ calls ++ [.observeOutcomeFloor floor] ↔
      Call.noteApplied lsn ∈ calls := by simp
  have hhighest := highestFloor_append calls (.observeOutcomeFloor floor)
  unfold observeOutcomeFloor
  by_cases hle : floor.toNat ≤ tracker.outcomeFloor
  · rw [if_pos hle]
    exact
      { h with
        floor := by rw [hhighest, ← h.floor]; exact (max_eq_left hle).symm
        exact := fun hdropped lsn hlsn => (h.exact hdropped lsn hlsn).trans (hnoted lsn).symm
        marked := by simpa only [hnoted] using h.marked }
  · rw [if_neg hle]
    obtain ⟨hseparated, hcovers⟩ := pruneThrough_spec h.separated floor.toNat
    refine
      { floor := by rw [hhighest, ← h.floor]; exact (max_eq_right (Nat.le_of_not_le hle)).symm
        separated := hseparated
        above := fun number hnumber => ((hcovers number).mp hnumber).2
        exact := fun hdropped lsn hlsn => ?_
        marked := fun mark hmark => ?_ }
    · have hlsn : floor.toNat < lsn.toNat := hlsn
      rw [hnoted]
      rcases hold : tracker.dropped with _ | mark
      · refine (hcovers lsn.toNat).trans ?_
        rw [← h.exact hold lsn (by omega)]
        exact and_iff_left hlsn
      · -- the floor has passed the mark, so nothing above it was noted
        obtain ⟨-, -, hbelow, hempty⟩ := h.marked mark hold
        have hpassed : mark ≤ floor.toNat := by simpa [hold] using hdropped
        refine iff_of_false (fun hcov => ?_) (fun hmem => ?_)
        · exact hempty _ ((hcovers lsn.toNat).mp hcov).1
        · have := hbelow lsn hmem
          omega
    · obtain ⟨hold, hkept⟩ := Option.mem_filter_iff.mp hmark
      obtain ⟨-, hnotedAt, hbelow, hempty⟩ := h.marked mark hold
      rw [decide_eq_true_iff] at hkept
      simp only [hnoted]
      exact ⟨hkept, hnotedAt, hbelow, fun number hcov => hempty _ ((hcovers number).mp hcov).1⟩

theorem Exact.note (h : Exact calls tracker) (lsn : UInt64) :
    Exact (calls ++ [.noteApplied lsn]) (tracker.noteApplied lsn.toNat) := by
  have hnoted : ∀ other, Call.noteApplied other ∈ calls ++ [.noteApplied lsn] ↔
      Call.noteApplied other ∈ calls ∨ other = lsn := by simp
  have hfloor : tracker.outcomeFloor = highestFloor (calls ++ [.noteApplied lsn]) :=
    h.floor.trans (highestFloor_append calls (.noteApplied lsn)).symm
  unfold noteApplied
  by_cases hle : lsn.toNat ≤ tracker.outcomeFloor
  · rw [if_pos hle]
    refine
      { h with
        floor := hfloor
        exact := fun hdropped other hother => ?_
        marked := fun mark hmark => ?_ }
    · have hne : other ≠ lsn := by
        rintro rfl
        omega
      rw [h.exact hdropped other hother, hnoted, or_iff_left hne]
    · obtain ⟨hmarkFloor, ⟨place, hplace, hplaceMark⟩, hbelow, hempty⟩ := h.marked mark hmark
      refine ⟨hmarkFloor, ⟨place, (hnoted place).mpr (.inl hplace), hplaceMark⟩, fun other hother => ?_, hempty⟩
      rcases (hnoted other).mp hother with hother | rfl
      · exact hbelow other hother
      · omega
  · rw [if_neg hle]
    rcases hold : tracker.dropped with _ | mark
    · obtain ⟨hseparated, hcovers⟩ :=
        insert_spec h.separated (toNat_le_maxLsn lsn)
      have hcovered : ∀ other : UInt64, tracker.outcomeFloor < other.toNat →
          (Covers (tracker.appliedAbove.insert lsn.toNat).ranges other.toNat ↔
            Call.noteApplied other ∈ calls ++ [.noteApplied lsn]) := by
        intro other hother
        rw [hcovers, h.exact hold other hother, hnoted, UInt64.toNat_inj]
      have habove : ∀ number, Covers (tracker.appliedAbove.insert lsn.toNat).ranges number →
          tracker.outcomeFloor < number := fun number hnumber => by
        rcases (hcovers number).mp hnumber with hnumber | rfl
        · exact h.above number hnumber
        · exact Nat.not_le.mp hle
      dsimp only
      split_ifs with hmany
      · -- the highest position of the dropped set becomes the mark
        have hself := (hcovers lsn.toNat).mpr (.inr rfl)
        obtain ⟨highest, hmax, hhighest, hgreatest⟩ := LsnRanges.isGreatest_max hseparated hself
        have hmark : max ((tracker.appliedAbove.insert lsn.toNat).max.getD lsn.toNat) lsn.toNat =
            highest := by
          rw [hmax, Option.getD_some]
          exact max_eq_left (hgreatest hself)
        refine
          { floor := hfloor
            separated := separated_empty maxLsn
            above := fun number hnumber => absurd hnumber (not_covers_empty number)
            exact := by simp
            marked := fun mark hmarked => ?_ }
        rw [Option.mem_some_iff, hmark] at hmarked
        subst hmarked
        refine ⟨habove _ hhighest, ?_, fun other hother => ?_, not_covers_empty⟩
        · obtain ⟨word, hword⟩ := exists_word hseparated hhighest
          refine ⟨word, (hcovered word ?_).mp ?_, hword⟩
          · exact hword ▸ habove _ hhighest
          · exact hword ▸ hhighest
        · by_cases hbelow : other.toNat ≤ tracker.outcomeFloor
          · omega
          · exact hgreatest ((hcovered other (Nat.not_le.mp hbelow)).mpr hother)
      · exact
          { floor := hfloor
            separated := hseparated
            above := habove
            exact := fun _ => hcovered
            marked := by simp }
    · obtain ⟨hmarkFloor, ⟨word, hword, hwordMark⟩, hbelow, hempty⟩ := h.marked mark hold
      refine
        { h with
          floor := hfloor
          exact := by simp
          marked := fun mark' hmark' => ?_ }
      rw [Option.mem_some_iff] at hmark'
      subst hmark'
      refine ⟨lt_max_of_lt_left hmarkFloor, ?_, fun other hother => ?_, hempty⟩
      · rcases Nat.le_total mark lsn.toNat with hmore | hless
        · exact ⟨lsn, (hnoted lsn).mpr (.inr rfl), (max_eq_right hmore).symm⟩
        · exact ⟨word, (hnoted word).mpr (.inl hword), hwordMark.trans (max_eq_left hless).symm⟩
      · rcases (hnoted other).mp hother with hother | rfl
        · exact le_max_of_le_left (hbelow other hother)
        · exact le_max_right _ _

theorem Exact.perform (h : Exact calls tracker) (call : Call) :
    Exact (calls ++ [call]) (tracker.perform call) := by
  cases call with
  | noteApplied lsn => exact h.note lsn
  | observeOutcomeFloor floor => exact h.observe floor

end Steps

theorem exact_run (calls : List Call) : Exact calls (Tracker.run calls) :=
  StepRuns.history_foldl Exact (fun _ _ call h _ => h.perform call) exact_new
    (StepRuns.along_of_forall _ (fun _ _ => trivial) _)

/-- A stamp is well formed, holds the highest floor, and above it skips exactly the
positions that were noted.  One is given whenever all of these are at or below the floor. -/
theorem stamp_exact (calls : List Call) :
    (∀ stamp, (Tracker.run calls).stamp = .ok stamp →
      stamp.validate = .ok () ∧ stamp.prefixLsn = highestFloor calls ∧
        ∀ lsn : UInt64, stamp.prefixLsn < lsn.toNat →
          (stamp.skips lsn.toNat = true ↔ Call.noteApplied lsn ∈ calls)) ∧
    ((∀ lsn : UInt64, Call.noteApplied lsn ∈ calls → lsn.toNat ≤ highestFloor calls) →
      ∃ stamp, (Tracker.run calls).stamp = .ok stamp) := by
  have h := exact_run calls
  rcases hdropped : (run calls).dropped with _ | mark
  · have hstamp : (run calls).stamp =
        .ok { prefixLsn := (run calls).outcomeFloor
              appliedAbove := (run calls).appliedAbove.toRanges } := by
      rw [Tracker.stamp, hdropped]
      rfl
    refine ⟨fun stamp hok => ?_, fun _ => ⟨_, hstamp⟩⟩
    rw [hstamp] at hok
    obtain rfl := Except.ok.inj hok
    have hpairwise := pairwise_toRanges h.separated
    have horder : ∀ range ∈ (run calls).appliedAbove.toRanges,
        range.start ≤ range.stop := fun range hmem =>
      h.separated.ordered (mem_toRanges.mp hmem)
    refine ⟨?_, h.floor, fun lsn hlsn => ?_⟩
    · refine ReplayStamp.validateFrom_ok hpairwise (fun range hmem => ⟨horder range hmem, ?_⟩)
        (by simp)
      exact h.above _ (covers_iff_toRanges.mpr ⟨range, hmem, le_rfl, horder range hmem⟩)
    · rw [ReplayStamp.skips_iff hpairwise horder hlsn, ← h.exact hdropped lsn hlsn]
      exact covers_iff_toRanges.symm
  · obtain ⟨hmark, ⟨lsn, hlsn, rfl⟩, -⟩ := h.marked mark hdropped
    refine ⟨fun stamp hok => ?_, fun hall => ?_⟩
    · simp [Tracker.stamp, hdropped] at hok
    · have := hall lsn hlsn
      rw [h.floor] at hmark
      omega

/-- Out of order, merged, and pruned through the middle of a range. -/
theorem stamp_exact_pruned :
    ReplayStamp.validate ⟨6, [⟨7, 7⟩, ⟨9, 9⟩]⟩ = .ok () ∧
      ∃ stamp, (Tracker.run [.noteApplied 7, .observeOutcomeFloor 9]).stamp = .ok stamp := by
  refine ⟨((stamp_exact [.noteApplied 7, .noteApplied 5, .noteApplied 6, .noteApplied 9,
    .observeOutcomeFloor 6]).1 ⟨6, [⟨7, 7⟩, ⟨9, 9⟩]⟩ (by decide +kernel)).1, (stamp_exact _).2 fun lsn hlsn => ?_⟩
  have hseven : lsn = 7 := by simpa using hlsn
  subst hseven
  decide

end NodeDB.AppliedPrefix
