import Mathlib.Data.List.Induction
import Mathlib.Data.List.TakeWhile
import Mathlib.Tactic

/-!
# The map from commit times to log positions

A bounded list of time anchors, one for each committed batch.  When it is
full, anchors that share a millisecond with their successor are dropped, then
every other anchor of the older half.
-/

namespace NodeDB.Temporal

open List

def nanosPerMs : Nat := 1000000

def minAnchorCap : Nat := 4

def maxNs : Nat := 2 ^ 64 - 1

/-- Every record at or below `lsn` committed at or before `hlcWallNs`. -/
structure LsnTimeAnchor where
  lsn : Nat
  hlcWallNs : Nat
  le_max : hlcWallNs ≤ maxNs := by decide
  deriving DecidableEq

namespace LsnTimeAnchor

def ms (anchor : LsnTimeAnchor) : Nat :=
  anchor.hlcWallNs / nanosPerMs

def Before (anchor later : LsnTimeAnchor) : Prop :=
  anchor.lsn < later.lsn ∧ anchor.hlcWallNs < later.hlcWallNs

instance instIsTransBefore : IsTrans LsnTimeAnchor Before :=
  ⟨fun _ _ _ h h' => ⟨h.1.trans h'.1, h.2.trans h'.2⟩⟩

end LsnTimeAnchor

inductive LsnTimeError where
  | nonMonotonic (lastLsn lastNs newLsn newNs : Nat)
  | noAnchors
  | beforeFirstAnchor (targetNs firstAnchorNs : Nat)
  deriving DecidableEq

structure LsnTimeMap where
  anchors : List LsnTimeAnchor
  cap : Nat
  deriving DecidableEq

namespace LsnTimeMap

def withCap (cap : Nat) : LsnTimeMap :=
  ⟨[], if cap < minAnchorCap then minAnchorCap else cap⟩

/-- Keep an anchor only when the next one falls in a later millisecond. -/
def dropShared : List LsnTimeAnchor → List LsnTimeAnchor
  | [] => []
  | [anchor] => [anchor]
  | anchor :: next :: rest =>
    if anchor.ms = next.ms then
      dropShared (next :: rest)
    else
      anchor :: dropShared (next :: rest)

/-- Drop the anchors at odd positions below `half`; `read` is the position of
the first anchor. -/
def thinOlder (half : Nat) : Nat → List LsnTimeAnchor → List LsnTimeAnchor
  | _, [] => []
  | read, anchor :: rest =>
    if half ≤ read ∨ read % 2 = 0 then
      anchor :: thinOlder half (read + 1) rest
    else
      thinOlder half (read + 1) rest

def downsample (map : LsnTimeMap) : LsnTimeMap :=
  let anchors := dropShared map.anchors
  if anchors.length ≤ map.cap - map.cap / 4 then
    { map with anchors := anchors }
  else
    { map with anchors := thinOlder (anchors.length / 2) 0 anchors }

def accept (map : LsnTimeMap) (anchor : LsnTimeAnchor) : LsnTimeMap :=
  let map := { map with anchors := map.anchors ++ [anchor] }
  if map.cap < map.anchors.length then map.downsample else map

def push (map : LsnTimeMap) (anchor : LsnTimeAnchor) :
    Except LsnTimeError Bool × LsnTimeMap :=
  match map.anchors.getLast? with
  | none => (.ok true, map.accept anchor)
  | some last =>
    if anchor.lsn ≤ last.lsn then
      (.ok false, map)
    else if anchor.hlcWallNs ≤ last.hlcWallNs then
      (.error (.nonMonotonic last.lsn last.hlcWallNs anchor.lsn anchor.hlcWallNs), map)
    else
      (.ok true, map.accept anchor)

def partitionPoint (pred : LsnTimeAnchor → Bool) (anchors : List LsnTimeAnchor) : Nat :=
  (anchors.takeWhile pred).length

/-- The anchor before the first one past the target. -/
def lastAtOrBefore (anchors : List LsnTimeAnchor) (targetNs : Nat) : Option LsnTimeAnchor :=
  let idx := partitionPoint (fun anchor => decide (anchor.hlcWallNs ≤ targetNs)) anchors
  if idx = 0 then none else anchors[idx - 1]?

/-- The answer for a target before the oldest anchor. -/
def beforeFirst (first : LsnTimeAnchor) (targetNs : Nat) : Except LsnTimeError Nat :=
  if first.lsn = 0 then .ok 0 else .error (.beforeFirstAnchor targetNs first.hlcWallNs)

def lsnAtOrBefore (map : LsnTimeMap) (targetNs : Nat) : Except LsnTimeError Nat :=
  match map.anchors with
  | [] => .error .noAnchors
  | first :: _ =>
    match lastAtOrBefore map.anchors targetNs with
    | none => beforeFirst first targetNs
    | some anchor => .ok anchor.lsn

/-- The last nanosecond of a millisecond, as far as the clock counts. -/
def endOfMs (ms : Nat) : Nat :=
  min (min (ms * nanosPerMs) maxNs + (nanosPerMs - 1)) maxNs

def lsnAtOrBeforeMs (map : LsnTimeMap) : Int → Except LsnTimeError Nat
  | .ofNat ms => map.lsnAtOrBefore (endOfMs ms)
  | .negSucc _ =>
    match map.anchors with
    | [] => .error .noAnchors
    | first :: _ => beforeFirst first 0

def commitNsOf (map : LsnTimeMap) (lsn : Nat) : Option Nat :=
  map.anchors[partitionPoint (fun anchor => decide (anchor.lsn < lsn)) map.anchors]?.map
    LsnTimeAnchor.hlcWallNs

/-! ## Thinning -/

/-- Some anchors are dropped, but not the last. -/
def Thinned (anchors kept : List LsnTimeAnchor) : Prop :=
  kept.Sublist anchors ∧ kept.getLast? = anchors.getLast?

variable {anchors : List LsnTimeAnchor} {half : Nat} {map : LsnTimeMap} {targetNs : Nat}
  {anchor first : LsnTimeAnchor} {lsn : Nat}

theorem Thinned.trans {kept rest : List LsnTimeAnchor} (h : Thinned anchors kept)
    (h' : Thinned kept rest) : Thinned anchors rest :=
  ⟨h'.1.trans h.1, h'.2.trans h.2⟩

section

variable {anchor next : LsnTimeAnchor} {rest kept : List LsnTimeAnchor}
  (hthinned : Thinned (next :: rest) kept)
include hthinned

theorem Thinned.keep : Thinned (anchor :: next :: rest) (anchor :: kept) := by
  refine ⟨hthinned.1.cons_cons anchor, ?_⟩
  rw [getLast?_cons, hthinned.2, getLast?_cons_cons, getLast?_cons]
  simp

theorem Thinned.skip : Thinned (anchor :: next :: rest) kept :=
  ⟨hthinned.1.cons anchor, by rw [hthinned.2, getLast?_cons_cons]⟩

end

theorem thinned_dropShared (anchors : List LsnTimeAnchor) :
    Thinned anchors (dropShared anchors) := by
  induction anchors using dropShared.induct with
  | case1 => exact ⟨.refl _, rfl⟩
  | case2 anchor => exact ⟨.refl _, rfl⟩
  | case3 anchor next rest hshared ih =>
    rw [dropShared, if_pos hshared]
    exact ih.skip
  | case4 anchor next rest hshared ih =>
    rw [dropShared, if_neg hshared]
    exact ih.keep

theorem thinned_thinOlder {read : Nat} (hhalf : half < read + anchors.length) :
    Thinned anchors (thinOlder half read anchors) := by
  induction anchors generalizing read with
  | nil => exact ⟨.refl _, rfl⟩
  | cons anchor rest ih =>
    rw [length_cons] at hhalf
    cases rest with
    | nil =>
      rw [length_nil] at hhalf
      rw [thinOlder, if_pos (.inl (by omega))]
      exact ⟨.refl _, rfl⟩
    | cons next rest =>
      have hrest : Thinned _ (thinOlder half (read + 1) (next :: rest)) := ih (by omega)
      rw [thinOlder]
      split
      next => exact hrest.keep
      next => exact hrest.skip

theorem length_thinOlder_le (half read : Nat) (anchors : List LsnTimeAnchor) :
    (thinOlder half read anchors).length ≤ anchors.length := by
  induction anchors generalizing read with
  | nil => exact le_rfl
  | cons anchor rest ih =>
    have hrest := ih (read + 1)
    rw [thinOlder]
    split <;> simp only [length_cons] <;> omega

/-- The second anchor lies in the older half and is dropped. -/
theorem length_thinOlder_lt (hhalf : 2 ≤ half) (hlength : 2 ≤ anchors.length) :
    (thinOlder half 0 anchors).length < anchors.length := by
  rcases anchors with _ | ⟨first, _ | ⟨second, rest⟩⟩
  · simp at hlength
  · simp at hlength
  · have hrest := length_thinOlder_le half 2 rest
    simp only [thinOlder, show ¬ half ≤ 1 by omega, length_cons]
    simpa using hrest

theorem thinned_downsample (map : LsnTimeMap) :
    Thinned map.anchors map.downsample.anchors ∧ map.downsample.cap = map.cap := by
  have hshared := thinned_dropShared map.anchors
  unfold downsample
  dsimp only
  split
  next => exact ⟨hshared, rfl⟩
  next hmany =>
    have hthin : Thinned _ (thinOlder ((dropShared map.anchors).length / 2) 0 _) :=
      thinned_thinOlder (by omega : _ < 0 + (dropShared map.anchors).length)
    exact ⟨hshared.trans hthin, rfl⟩

theorem length_downsample_le (hroom : minAnchorCap ≤ map.cap)
    (hfull : map.anchors.length ≤ map.cap + 1) : map.downsample.anchors.length ≤ map.cap := by
  have hshared := (thinned_dropShared map.anchors).1.length_le
  unfold minAnchorCap at hroom
  unfold downsample
  dsimp only
  split
  next hfew => exact hfew.trans (Nat.sub_le _ _)
  next hmany =>
    have hthin : (thinOlder ((dropShared map.anchors).length / 2) 0 (dropShared map.anchors)).length
        < (dropShared map.anchors).length :=
      length_thinOlder_lt (by omega) (by omega)
    exact Nat.lt_succ_iff.mp (hthin.trans_le (hshared.trans hfull))

/-! ## Histories -/

/-- A map and the anchors it accepted. -/
structure LsnTimeRun where
  map : LsnTimeMap
  accepted : List LsnTimeAnchor

namespace LsnTimeRun

def start (cap : Nat) : LsnTimeRun :=
  ⟨withCap cap, []⟩

def push (run : LsnTimeRun) (anchor : LsnTimeAnchor) : LsnTimeRun :=
  match run.map.push anchor with
  | (.ok true, map) => ⟨map, run.accepted ++ [anchor]⟩
  | (_, map) => { run with map := map }

/-- The map keeps some of the ordered anchors it accepted, the last among
them. -/
structure Sound (run : LsnTimeRun) : Prop where
  ordered : run.accepted.Pairwise LsnTimeAnchor.Before
  thinned : Thinned run.accepted run.map.anchors
  room : minAnchorCap ≤ run.map.cap
  length_le : run.map.anchors.length ≤ run.map.cap

theorem sound_start (cap : Nat) : (start cap).Sound := by
  refine ⟨.nil, ⟨.refl _, rfl⟩, ?_, Nat.zero_le _⟩
  unfold start withCap
  dsimp only
  split <;> omega

variable {run : LsnTimeRun} {anchor : LsnTimeAnchor} (hsound : run.Sound)
include hsound

theorem Sound.ordered_concat
    (hafter : ∀ last ∈ run.map.anchors.getLast?, last.Before anchor) :
    (run.accepted ++ [anchor]).Pairwise LsnTimeAnchor.Before := by
  rw [hsound.thinned.2] at hafter
  rw [← isChain_iff_pairwise, isChain_append]
  exact ⟨hsound.ordered.isChain, isChain_singleton _, by simpa using hafter⟩

theorem Sound.accept (hafter : ∀ last ∈ run.map.anchors.getLast?, last.Before anchor) :
    Sound ⟨run.map.accept anchor, run.accepted ++ [anchor]⟩ := by
  have hthinned : Thinned (run.accepted ++ [anchor]) (run.map.anchors ++ [anchor]) :=
    ⟨hsound.thinned.1.append_right _, by simp⟩
  have hlength : (run.map.anchors ++ [anchor]).length ≤ run.map.cap + 1 := by
    simpa using hsound.length_le
  unfold LsnTimeMap.accept
  dsimp only
  split
  next =>
    obtain ⟨hdown, hcap⟩ := thinned_downsample ⟨run.map.anchors ++ [anchor], run.map.cap⟩
    refine ⟨hsound.ordered_concat hafter, hthinned.trans hdown, ?_, ?_⟩
    · rw [hcap]
      exact hsound.room
    · rw [hcap]
      exact length_downsample_le hsound.room hlength
  next hfew =>
    exact ⟨hsound.ordered_concat hafter, hthinned, hsound.room, not_lt.mp hfew⟩

theorem Sound.push (anchor : LsnTimeAnchor) : (run.push anchor).Sound := by
  unfold LsnTimeRun.push LsnTimeMap.push
  cases hlast : run.map.anchors.getLast? with
  | none => exact hsound.accept (by simp [hlast])
  | some last =>
    dsimp only
    by_cases hlsn : anchor.lsn ≤ last.lsn
    · rw [if_pos hlsn]
      exact hsound
    · rw [if_neg hlsn]
      by_cases hns : anchor.hlcWallNs ≤ last.hlcWallNs
      · rw [if_pos hns]
        exact hsound
      · rw [if_neg hns]
        refine hsound.accept ?_
        rw [hlast]
        rintro _ ⟨⟩
        exact ⟨not_le.mp hlsn, not_le.mp hns⟩

theorem Sound.find?_le {lsn : Nat} {first kept : LsnTimeAnchor}
    (hfirst : first ∈ run.accepted.find? (fun anchor => decide (lsn ≤ anchor.lsn)))
    (hkept : kept ∈ run.map.anchors) (hle : lsn ≤ kept.lsn) : first.hlcWallNs ≤ kept.hlcWallNs := by
  obtain ⟨-, before, after, hsplit, hbefore⟩ := find?_eq_some_iff_append.mp hfirst
  have hordered := hsound.ordered
  have hmem := hsound.thinned.1.subset hkept
  rw [hsplit, pairwise_append, pairwise_cons] at hordered
  rw [hsplit, mem_append, mem_cons] at hmem
  obtain hmem | rfl | hmem := hmem
  · simpa [hle] using hbefore kept hmem
  · exact le_rfl
  · exact (hordered.2.1.1 kept hmem).2.le

end LsnTimeRun

theorem sound_foldl_push (cap : Nat) (pushed : List LsnTimeAnchor) :
    (pushed.foldl LsnTimeRun.push (.start cap)).Sound :=
  List.foldlRecOn pushed _ (LsnTimeRun.sound_start cap) fun _ hsound anchor _ => hsound.push anchor

/-! ## Lookups -/

theorem lastAtOrBefore_eq (anchors : List LsnTimeAnchor) (targetNs : Nat) :
    lastAtOrBefore anchors targetNs =
      (anchors.takeWhile fun anchor => decide (anchor.hlcWallNs ≤ targetNs)).getLast? := by
  unfold lastAtOrBefore partitionPoint
  dsimp only
  generalize hfront : anchors.takeWhile (fun anchor => decide (anchor.hlcWallNs ≤ targetNs)) =
    front
  obtain ⟨rest, rfl⟩ : front <+: anchors := hfront ▸ takeWhile_prefix _
  split
  next hnil => simp [length_eq_zero_iff.mp hnil]
  next hsome => rw [getLast?_eq_getElem?, getElem?_append_left (by omega)]

theorem mem_of_lastAtOrBefore (hlast : lastAtOrBefore anchors targetNs = some anchor) :
    anchor ∈ anchors ∧ anchor.hlcWallNs ≤ targetNs := by
  rw [lastAtOrBefore_eq] at hlast
  have hmem := mem_of_getLast? hlast
  exact ⟨(takeWhile_sublist _).subset hmem, by simpa using mem_takeWhile_imp hmem⟩

theorem eq_zero_of_beforeFirst (hanswer : beforeFirst first targetNs = .ok lsn) : lsn = 0 := by
  unfold beforeFirst at hanswer
  split at hanswer
  next => exact (Except.ok.inj hanswer).symm
  next => simp at hanswer

theorem mem_of_lsnAtOrBefore (hanswer : map.lsnAtOrBefore targetNs = .ok lsn) :
    lsn = 0 ∨ ∃ anchor ∈ map.anchors, anchor.lsn = lsn ∧ anchor.hlcWallNs ≤ targetNs := by
  unfold lsnAtOrBefore at hanswer
  split at hanswer
  next => simp at hanswer
  next first rest hanchors =>
    split at hanswer
    next => exact .inl (eq_zero_of_beforeFirst hanswer)
    next anchor hlast =>
      obtain ⟨hmem, hle⟩ := mem_of_lastAtOrBefore hlast
      exact .inr ⟨anchor, hmem, Except.ok.inj hanswer, hle⟩

/-- The end of a millisecond is at or after exactly the times of that
millisecond and of the earlier ones. -/
theorem le_endOfMs_iff (anchor : LsnTimeAnchor) (ms : Nat) :
    anchor.hlcWallNs ≤ endOfMs ms ↔ anchor.ms ≤ ms := by
  have hmax := anchor.le_max
  unfold endOfMs LsnTimeAnchor.ms
  simp only [nanosPerMs, maxNs] at *
  omega

theorem of_getElem?_partitionPoint {pred : LsnTimeAnchor → Bool}
    (hget : anchors[partitionPoint pred anchors]? = some anchor) : ¬ pred anchor := by
  unfold partitionPoint at hget
  induction anchors with
  | nil => simp at hget
  | cons head tail ih =>
    by_cases hhead : pred head
    · rw [takeWhile_cons_of_pos hhead] at hget
      exact ih (by simpa using hget)
    · rw [takeWhile_cons_of_neg hhead] at hget
      rwa [← Option.some.inj hget]

theorem mem_of_commitNsOf {ns : Nat} (hcommit : map.commitNsOf lsn = some ns) :
    ∃ anchor ∈ map.anchors, lsn ≤ anchor.lsn ∧ anchor.hlcWallNs = ns := by
  obtain ⟨anchor, hget, hns⟩ := Option.map_eq_some_iff.mp hcommit
  have hpast := of_getElem?_partitionPoint hget
  exact ⟨anchor, mem_of_getElem? hget, by simpa using hpast, hns⟩

/-- Whether a target is in or after the millisecond of the oldest anchor. -/
def Reaches (anchors : List LsnTimeAnchor) (targetMs : Int) : Prop :=
  ∃ first ∈ anchors.head?, (first.ms : Int) ≤ targetMs

theorem lastAtOrBefore_dropShared (anchors : List LsnTimeAnchor) (ms : Nat) :
    lastAtOrBefore (dropShared anchors) (endOfMs ms) = lastAtOrBefore anchors (endOfMs ms) := by
  simp only [lastAtOrBefore_eq, le_endOfMs_iff]
  induction anchors using dropShared.induct with
  | case1 => rfl
  | case2 anchor => rfl
  | case3 anchor next rest hshared ih =>
    rw [dropShared, if_pos hshared, ih]
    by_cases hle : next.ms ≤ ms
    · rw [takeWhile_cons_of_pos (a := anchor) (by simpa [hshared] using hle),
        takeWhile_cons_of_pos (by simpa using hle), getLast?_cons_cons]
    · rw [takeWhile_cons_of_neg (a := anchor) (by simpa [hshared] using hle),
        takeWhile_cons_of_neg (by simpa using hle)]
  | case4 anchor next rest hshared ih =>
    rw [dropShared, if_neg hshared]
    by_cases hle : anchor.ms ≤ ms
    · rw [takeWhile_cons_of_pos (by simpa using hle),
        takeWhile_cons_of_pos (by simpa using hle), getLast?_cons, ih,
        getLast?_cons]
    · rw [takeWhile_cons_of_neg (by simpa using hle), takeWhile_cons_of_neg (by simpa using hle)]

theorem lastAtOrBefore_eq_none_iff (first : LsnTimeAnchor) (rest : List LsnTimeAnchor)
    (ms : Nat) : lastAtOrBefore (first :: rest) (endOfMs ms) = none ↔ ¬ first.ms ≤ ms := by
  rw [lastAtOrBefore_eq, getLast?_eq_none_iff, ← le_endOfMs_iff]
  by_cases hle : first.hlcWallNs ≤ endOfMs ms <;> simp [hle]

theorem exists_dropShared (first : LsnTimeAnchor) (rest : List LsnTimeAnchor) :
    ∃ oldest kept, dropShared (first :: rest) = oldest :: kept ∧ oldest ∈ first :: rest := by
  have hthinned := thinned_dropShared (first :: rest)
  cases hkept : dropShared (first :: rest) with
  | nil =>
    have hlast := hthinned.2
    rw [hkept, getLast?_cons] at hlast
    exact absurd hlast (by simp)
  | cons oldest kept =>
    rw [hkept] at hthinned
    exact ⟨oldest, kept, rfl, hthinned.1.subset mem_cons_self⟩

theorem beforeFirst_eq_iff {oldest : LsnTimeAnchor} (hlater : oldest = first ∨ first.Before oldest)
    (targetNs : Nat) :
    (beforeFirst oldest targetNs = beforeFirst first targetNs ↔ oldest = first) ∧
      ((beforeFirst oldest targetNs).toOption = (beforeFirst first targetNs).toOption ↔
        oldest = first ∨ first.lsn ≠ 0) := by
  obtain rfl | ⟨hlsn, hns⟩ := hlater
  · simp
  · have hne : oldest ≠ first := by
      rintro rfl
      omega
    have hpos : oldest.lsn ≠ 0 := by omega
    unfold beforeFirst
    by_cases hzero : first.lsn = 0
    · simp [hzero, hpos, hne, Except.toOption]
    · simp [hzero, hpos, hne, Except.toOption, hns.ne']

/-- Whether the two oldest anchors fall in one millisecond. -/
def SharesOldest : List LsnTimeAnchor → Prop
  | first :: second :: _ => first.ms = second.ms
  | _ => False

theorem head?_dropShared_iff (hordered : anchors.Pairwise LsnTimeAnchor.Before) :
    (dropShared anchors).head? = anchors.head? ↔ ¬ SharesOldest anchors := by
  cases anchors with
  | nil => simp [dropShared, SharesOldest]
  | cons first rest =>
    cases rest with
    | nil => simp [dropShared, SharesOldest]
    | cons second rest =>
      simp only [dropShared, SharesOldest, head?_cons]
      split_ifs with hshared
      · -- the oldest anchor kept is later than the first
        obtain ⟨oldest, kept, hkept, hmem⟩ := exists_dropShared second rest
        have hlater := (pairwise_cons.mp hordered).1 oldest hmem
        simp only [hkept, head?_cons, Option.some.injEq, hshared, not_true_eq_false, iff_false]
        rintro rfl
        exact lt_irrefl _ hlater.1
      · simp [hshared]

/-- Dropping shared milliseconds keeps the result of a millisecond target
exactly when the two oldest anchors do not share theirs or the target is not
before it.  The position answered, if any, is kept also when the oldest anchor
is not at 0. -/
def ThinnedAnswer (anchors : List LsnTimeAnchor) (cap : Nat) (targetMs : Int) : Prop :=
  let thinned := lsnAtOrBeforeMs ⟨dropShared anchors, cap⟩ targetMs
  let whole := lsnAtOrBeforeMs ⟨anchors, cap⟩ targetMs
  (thinned = whole ↔ ¬ SharesOldest anchors ∨ Reaches anchors targetMs) ∧
    (thinned.toOption = whole.toOption ↔ ¬ SharesOldest anchors ∨
      Reaches anchors targetMs ∨ ∃ first ∈ anchors.head?, first.lsn ≠ 0)

theorem lsnAtOrBeforeMs_dropShared_iff (hordered : anchors.Pairwise LsnTimeAnchor.Before)
    (cap : Nat) (targetMs : Int) : ThinnedAnswer anchors cap targetMs := by
  unfold ThinnedAnswer
  rw [← head?_dropShared_iff hordered]
  cases anchors with
  | nil => simp [dropShared]
  | cons first rest =>
    obtain ⟨oldest, kept, hkept, hmem⟩ := exists_dropShared first rest
    have hlater : oldest = first ∨ first.Before oldest := by
      rw [pairwise_cons] at hordered
      exact (mem_cons.mp hmem).imp_right (hordered.1 oldest)
    have hreaches : Reaches (first :: rest) targetMs ↔ (first.ms : Int) ≤ targetMs := by
      simp [Reaches]
    rw [hreaches, hkept]
    cases targetMs with
    | negSucc n =>
      have hearly : ¬ (first.ms : Int) ≤ Int.negSucc n := by omega
      simpa [lsnAtOrBeforeMs, hearly] using beforeFirst_eq_iff hlater 0
    | ofNat ms =>
      have hlast := lastAtOrBefore_dropShared (first :: rest) ms
      rw [hkept] at hlast
      have hnone := lastAtOrBefore_eq_none_iff first rest ms
      simp only [lsnAtOrBeforeMs, lsnAtOrBefore, hlast]
      cases hfound : lastAtOrBefore (first :: rest) (endOfMs ms) with
      | none =>
        have hearly := hnone.mp hfound
        simpa [hearly] using beforeFirst_eq_iff hlater (endOfMs ms)
      | some anchor =>
        have hlate : first.ms ≤ ms := by
          by_contra hearly
          rw [hnone.mpr hearly] at hfound
          simp at hfound
        simp [hlate]

end LsnTimeMap

open LsnTimeMap

/-- The map keeps at most `cap` anchors in order, answers with the position of
an anchor it was handed at or before the target, and places no commit before
the first anchor that covers it.  Thinning by milliseconds changes an answer
exactly when the two oldest anchors share one and the target lies before it. -/
theorem lsn_time_map_of_pushes (cap : Nat) (pushed : List LsnTimeAnchor) :
    let run := pushed.foldl LsnTimeRun.push (.start cap)
    run.map.anchors.Pairwise LsnTimeAnchor.Before ∧ run.map.anchors.length ≤ run.map.cap ∧
      (∀ targetNs lsn, run.map.lsnAtOrBefore targetNs = .ok lsn →
        lsn = 0 ∨ ∃ anchor ∈ run.accepted, anchor.lsn = lsn ∧ anchor.hlcWallNs ≤ targetNs) ∧
      (∀ targetMs lsn, run.map.lsnAtOrBeforeMs targetMs = .ok lsn →
        lsn = 0 ∨ ∃ anchor ∈ run.accepted, anchor.lsn = lsn ∧ (anchor.ms : Int) ≤ targetMs) ∧
      (∀ lsn ns, run.map.commitNsOf lsn = some ns →
        ∀ first ∈ run.accepted.find? (fun anchor => decide (lsn ≤ anchor.lsn)),
          first.hlcWallNs ≤ ns) ∧
      ∀ anchors : List LsnTimeAnchor, anchors.Pairwise LsnTimeAnchor.Before → ∀ targetMs,
        ThinnedAnswer anchors run.map.cap targetMs := by
  intro run
  have hsound := sound_foldl_push cap pushed
  refine ⟨hsound.ordered.sublist hsound.thinned.1, hsound.length_le, ?_, ?_, ?_, ?_⟩
  · intro targetNs lsn hanswer
    refine (mem_of_lsnAtOrBefore hanswer).imp_right ?_
    rintro ⟨anchor, hmem, hlsn, hle⟩
    exact ⟨anchor, hsound.thinned.1.subset hmem, hlsn, hle⟩
  · intro targetMs lsn hanswer
    cases targetMs with
    | negSucc n =>
      simp only [lsnAtOrBeforeMs] at hanswer
      split at hanswer
      next => simp at hanswer
      next => exact .inl (eq_zero_of_beforeFirst hanswer)
    | ofNat ms =>
      refine (mem_of_lsnAtOrBefore hanswer).imp_right ?_
      rintro ⟨anchor, hmem, hlsn, hle⟩
      exact ⟨anchor, hsound.thinned.1.subset hmem, hlsn,
        Int.ofNat_le.mpr ((le_endOfMs_iff anchor ms).mp hle)⟩
  · intro lsn ns hcommit first hfirst
    obtain ⟨anchor, hmem, hle, rfl⟩ := mem_of_commitNsOf hcommit
    exact hsound.find?_le hfirst hmem hle
  · intro anchors hordered targetMs
    exact lsnAtOrBeforeMs_dropShared_iff hordered _ targetMs

/-- The first anchor names position 0 and shares its millisecond with the
second.  The fifth anchor of a map of four drops it, and the state before
that millisecond is no longer found. -/
theorem zero_anchor_dropped : let anchors : List LsnTimeAnchor :=
      [⟨0, 5000000, by decide⟩, ⟨1, 5000001, by decide⟩, ⟨2, 6000000, by decide⟩,
        ⟨3, 7000000, by decide⟩, ⟨4, 8000000, by decide⟩]
    let run := anchors.foldl LsnTimeRun.push (.start 4)
    lsnAtOrBeforeMs ⟨anchors, 4⟩ 4 = .ok 0 ∧
      lsnAtOrBeforeMs ⟨dropShared anchors, 4⟩ 4 =
        .error (.beforeFirstAnchor 4999999 5000001) ∧
      run.map.lsnAtOrBeforeMs 4 = .error (.beforeFirstAnchor 4999999 5000001) := by
  decide

end NodeDB.Temporal
