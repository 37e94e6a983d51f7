import NodeDB.LockEntry
import NodeDB.KeyedFold
import NodeDB.StepRuns
import Mathlib.Order.WithBot

/-!
# The exactly-once gate of a vshard

The scheduler skips a position that was applied before.  The gate keeps the
applied positions above a watermark; every epoch up to the watermark counts as
applied.  An epoch delivered with the number of its positions folds into the
watermark when so many of them are applied.  One delivered without it folds
after a later epoch was seen, when as many positions are applied as were
delivered.
-/

namespace NodeDB.Calvin

open Std KeyedFold StepRuns List

def notYetAppliedEpoch : Nat := 2 ^ 64 - 1

structure AppliedGate where
  fullyAppliedEpoch : Nat
  appliedTail : TreeSet TxnId
  epochExpected : TreeMap Nat Nat
  deliveredUnknown : TreeMap Nat (TreeSet Nat)
  highestSeenEpoch : Nat

namespace AppliedGate

def new (fullyAppliedEpoch : Nat) (appliedTail : TreeSet TxnId) : AppliedGate :=
  { fullyAppliedEpoch := fullyAppliedEpoch, appliedTail := appliedTail, epochExpected := ∅,
    deliveredUnknown := ∅, highestSeenEpoch := notYetAppliedEpoch }

def isSentinel (gate : AppliedGate) : Bool :=
  decide (gate.fullyAppliedEpoch = notYetAppliedEpoch)

def isFolded (gate : AppliedGate) (epoch : Nat) : Bool :=
  !gate.isSentinel && decide (epoch ≤ gate.fullyAppliedEpoch)

/-- Record the number of positions of an epoch, or the position if the number
is not known. -/
def record (gate : AppliedGate) (epoch position count : Nat) : AppliedGate :=
  if count = 0 then
    { gate with
      deliveredUnknown := gate.deliveredUnknown.insert epoch
        (((gate.deliveredUnknown[epoch]?).getD ∅).insert position) }
  else
    { gate with epochExpected := gate.epochExpected.insertIfNew epoch count }

def see (gate : AppliedGate) (epoch : Nat) : AppliedGate :=
  if gate.highestSeenEpoch = notYetAppliedEpoch ∨ gate.highestSeenEpoch < epoch then
    { gate with highestSeenEpoch := epoch }
  else
    gate

def noteExpected (gate : AppliedGate) (epoch position count : Nat) : AppliedGate :=
  if gate.isFolded epoch then
    gate
  else
    (gate.record epoch position count).see epoch

def isApplied (gate : AppliedGate) (epoch position : Nat) : Bool :=
  gate.isFolded epoch || gate.appliedTail.contains ⟨epoch, position⟩

def epochAppliedCount (gate : AppliedGate) (epoch : Nat) : Nat :=
  (gate.appliedTail.toList.filter fun pair => decide (pair.epoch = epoch)).length % 2 ^ 32

def deliveredCount (gate : AppliedGate) (epoch : Nat) : Nat :=
  match gate.deliveredUnknown[epoch]? with
  | none => 0
  | some positions => positions.size % 2 ^ 32

def nextParticipating (gate : AppliedGate) (first : Nat) : Option Nat :=
  let known := gate.epochExpected.keys.find? fun epoch => decide (first ≤ epoch)
  let unknown := gate.deliveredUnknown.keys.find? fun epoch => decide (first ≤ epoch)
  match known, unknown with
  | some a, some b => some (min a b)
  | some a, none => some a
  | none, some b => some b
  | none, none => none

def pruneEpoch (gate : AppliedGate) (epoch : Nat) : TreeSet TxnId :=
  let doomed := gate.appliedTail.toList.filter fun pair => decide (pair.epoch = epoch)
  doomed.foldl (fun tail pair => tail.erase pair) gate.appliedTail

def foldEpoch (gate : AppliedGate) (epoch : Nat) : AppliedGate :=
  { gate with
    fullyAppliedEpoch := epoch
    epochExpected := gate.epochExpected.erase epoch
    deliveredUnknown := gate.deliveredUnknown.erase epoch
    appliedTail := gate.pruneEpoch epoch }

def nextEpoch (gate : AppliedGate) : Option Nat :=
  if gate.isSentinel then
    gate.nextParticipating 0
  else if gate.highestSeenEpoch < gate.fullyAppliedEpoch + 1 then
    none
  else
    some (gate.fullyAppliedEpoch + 1)

/-- The epoch does not touch this vshard: move the watermark in front of the
next one that does. -/
def passOver (gate : AppliedGate) (next : Nat) : AppliedGate × Bool :=
  match gate.nextParticipating next with
  | none => ({ gate with fullyAppliedEpoch := gate.highestSeenEpoch }, false)
  | some later =>
    if later ≤ gate.highestSeenEpoch then
      ({ gate with fullyAppliedEpoch := later - 1 }, true)
    else
      ({ gate with fullyAppliedEpoch := gate.highestSeenEpoch }, false)

def advanceOnce (gate : AppliedGate) : AppliedGate × Bool :=
  match gate.nextEpoch with
  | none => (gate, false)
  | some next =>
    match gate.epochExpected[next]? with
    | some expected =>
      if expected = 0 ∨ gate.epochAppliedCount next < expected then
        (gate, false)
      else
        (gate.foldEpoch next, true)
    | none =>
      if next ∈ gate.deliveredUnknown then
        if gate.highestSeenEpoch ≤ next ∨
            gate.epochAppliedCount next < gate.deliveredCount next then
          (gate, false)
        else
          (gate.foldEpoch next, true)
      else
        gate.passOver next

def walk : Nat → AppliedGate → AppliedGate
  | 0, gate => gate
  | fuel + 1, gate =>
    match gate.advanceOnce with
    | (gate, true) => walk fuel gate
    | (gate, false) => gate

/-- Every round folds a recorded epoch or moves the watermark in front of
one. -/
def rounds (gate : AppliedGate) : Nat :=
  2 * (gate.epochExpected.size + gate.deliveredUnknown.size) + 2

/-- Fold what can be folded.  Returns the new watermark if it moved. -/
def advance (gate : AppliedGate) : Option Nat × AppliedGate :=
  if gate.highestSeenEpoch = notYetAppliedEpoch then
    (none, gate)
  else
    let walked := walk gate.rounds gate
    if walked.fullyAppliedEpoch ≠ gate.fullyAppliedEpoch then
      (some walked.fullyAppliedEpoch, walked)
    else
      (none, walked)

def markApplied (gate : AppliedGate) (epoch position : Nat) : Option Nat × AppliedGate :=
  if gate.isFolded epoch then
    (none, gate)
  else
    advance { gate with appliedTail := gate.appliedTail.insert ⟨epoch, position⟩ }

def watermark (gate : AppliedGate) : WithBot Nat :=
  if gate.isSentinel then ⊥ else gate.fullyAppliedEpoch

/-! ## The lowest recorded epoch -/

def Recorded (gate : AppliedGate) (epoch : Nat) : Prop :=
  epoch ∈ gate.epochExpected ∨ epoch ∈ gate.deliveredUnknown

theorem isLeast_of_find? {ν : Type} {map : TreeMap Nat ν} {first epoch : Nat}
    (hfind : (map.keys.find? fun epoch => decide (first ≤ epoch)) = some epoch) :
    IsLeast {other | other ∈ map ∧ first ≤ other} epoch := by
  obtain ⟨hle, before, after, hkeys, hbefore⟩ := find?_eq_some_iff_append.mp hfind
  refine ⟨⟨TreeMap.mem_keys.mp (mem_of_find?_eq_some hfind), of_decide_eq_true hle⟩, ?_⟩
  rintro other ⟨hmem, hother⟩
  rw [← TreeMap.mem_keys, hkeys, mem_append, mem_cons] at hmem
  obtain hmem | rfl | hmem := hmem
  · have hnot := hbefore other hmem
    rw [Bool.not_eq_true', decide_eq_false_iff_not] at hnot
    exact absurd hother hnot
  · exact Nat.le_refl _
  · have hordered := TreeMap.ordered_keys (t := map)
    rw [hkeys, pairwise_append] at hordered
    have hlt := (pairwise_cons.mp hordered.2.1).1 other hmem
    exact (Nat.compare_eq_lt.mp hlt).le

theorem empty_of_find? {ν : Type} {map : TreeMap Nat ν} {first : Nat}
    (hfind : (map.keys.find? fun epoch => decide (first ≤ epoch)) = none) :
    {other | other ∈ map ∧ first ≤ other} = ∅ := by
  rw [Set.eq_empty_iff_forall_notMem]
  rintro other ⟨hmem, hother⟩
  have hnot := find?_eq_none.mp hfind other (TreeMap.mem_keys.mpr hmem)
  exact hnot (decide_eq_true hother)

theorem setOf_recorded (gate : AppliedGate) (first : Nat) :
    {epoch | gate.Recorded epoch ∧ first ≤ epoch} =
      {epoch | epoch ∈ gate.epochExpected ∧ first ≤ epoch} ∪
        {epoch | epoch ∈ gate.deliveredUnknown ∧ first ≤ epoch} :=
  Set.ext fun _ => or_and_right

theorem nextParticipating_eq_some {gate : AppliedGate} {first epoch : Nat}
    (hnext : gate.nextParticipating first = some epoch) :
    IsLeast {epoch | gate.Recorded epoch ∧ first ≤ epoch} epoch := by
  rw [setOf_recorded]
  unfold nextParticipating at hnext
  dsimp only at hnext
  split at hnext
  next hknown hunknown =>
    cases hnext
    exact (isLeast_of_find? hknown).union (isLeast_of_find? hunknown)
  next hknown hunknown =>
    cases hnext
    rw [empty_of_find? hunknown, Set.union_empty]
    exact isLeast_of_find? hknown
  next hknown hunknown =>
    cases hnext
    rw [empty_of_find? hknown, Set.empty_union]
    exact isLeast_of_find? hunknown
  next => cases hnext

theorem nextParticipating_eq_none {gate : AppliedGate} {first : Nat}
    (hnext : gate.nextParticipating first = none) {other : Nat} (hother : gate.Recorded other) :
    other < first := by
  unfold nextParticipating at hnext
  dsimp only at hnext
  split at hnext
  · cases hnext
  · cases hnext
  · cases hnext
  next hknown hunknown =>
    have hnone := setOf_recorded gate first
    rw [empty_of_find? hknown, empty_of_find? hunknown, Set.union_empty] at hnone
    exact Nat.not_le.mp fun hle => hnone.subset ⟨hother, hle⟩

end AppliedGate

open AppliedGate

/-! ## Deliveries -/

/-- The positions of each epoch that touch the vshard, and whether the epoch is
delivered with their number. -/
structure EpochPlan where
  positions : Nat → List Nat
  distinct : ∀ epoch, (positions epoch).Nodup
  fits : ∀ epoch, (positions epoch).length < 2 ^ 32
  counted : Nat → Bool

def EpochPlan.count (plan : EpochPlan) (epoch : Nat) : Nat :=
  if plan.counted epoch then (plan.positions epoch).length else 0

inductive GateCall where
  | noteExpected (epoch position count : Nat)
  | markApplied (epoch position : Nat)
  | advance
  deriving DecidableEq, Repr

/-- The gate, the positions delivered to it and those marked. -/
structure GateRun where
  gate : AppliedGate
  delivered : List TxnId
  marked : List TxnId

namespace GateRun

def start (recovered : TreeSet TxnId) : GateRun :=
  { gate := .new notYetAppliedEpoch recovered, delivered := [], marked := [] }

def perform (run : GateRun) : GateCall → GateRun
  | .noteExpected epoch position count =>
    { run with
      gate := run.gate.noteExpected epoch position count
      delivered := run.delivered ++ [⟨epoch, position⟩] }
  | .markApplied epoch position =>
    { run with
      gate := (run.gate.markApplied epoch position).2
      marked := run.marked ++ [⟨epoch, position⟩] }
  | .advance => { run with gate := run.gate.advance.2 }

/-- Epochs are delivered in order, each with its number of positions or with
none, and only delivered positions are marked. -/
def InOrder (plan : EpochPlan) (run : GateRun) : GateCall → Prop
  | .noteExpected epoch position count =>
    epoch < 2 ^ 64 ∧ position ∈ plan.positions epoch ∧ count = plan.count epoch ∧
      ∀ pair ∈ run.delivered, pair.epoch ≤ epoch
  | .markApplied epoch position => ⟨epoch, position⟩ ∈ run.delivered
  | .advance => True

/-- When an epoch is delivered, the tail holds no position of an earlier epoch
without a count that was not delivered itself. -/
def Redelivered (run : GateRun) : GateCall → Prop
  | .noteExpected epoch _ _ =>
    ∀ pair ∈ run.gate.appliedTail.toList, pair.epoch < epoch →
      ∀ positions ∈ run.gate.deliveredUnknown[pair.epoch]?, pair.position ∈ positions
  | .markApplied _ _ => True
  | .advance => True

instance (plan : EpochPlan) (run : GateRun) (call : GateCall) :
    Decidable (InOrder plan run call) := by
  cases call <;> dsimp only [InOrder] <;> infer_instance

instance (run : GateRun) (call : GateCall) : Decidable (Redelivered run call) := by
  cases call <;> dsimp only [Redelivered] <;> infer_instance

end GateRun

/-! ## What the gate knows -/

/-- The gate against the positions delivered and those applied. -/
structure Exact (plan : EpochPlan) (delivered : List TxnId) (applied : TxnId → Prop)
    (gate : AppliedGate) : Prop where
  planned : ∀ pair ∈ delivered, pair.position ∈ plan.positions pair.epoch
  real : ∀ pair, applied pair → pair.position ∈ plan.positions pair.epoch
  seen : ∀ pair ∈ delivered, pair.epoch ≤ gate.highestSeenEpoch
  top : (gate.highestSeenEpoch = notYetAppliedEpoch ∧ gate.isSentinel = true ∧
      delivered = []) ∨
    ∃ pair ∈ delivered, pair.epoch = gate.highestSeenEpoch
  bounded : gate.highestSeenEpoch ≤ notYetAppliedEpoch
  below : gate.isSentinel = false → gate.fullyAppliedEpoch ≤ gate.highestSeenEpoch
  recorded : ∀ pair ∈ delivered, gate.isFolded pair.epoch = false →
    if plan.counted pair.epoch then pair.epoch ∈ gate.epochExpected
    else ∃ positions, gate.deliveredUnknown[pair.epoch]? = some positions ∧
      pair.position ∈ positions
  expected : ∀ epoch count, gate.epochExpected[epoch]? = some count →
    plan.counted epoch = true ∧ count = (plan.positions epoch).length ∧
      gate.isFolded epoch = false ∧ ∃ pair ∈ delivered, pair.epoch = epoch
  unknown : ∀ epoch positions, gate.deliveredUnknown[epoch]? = some positions →
    plan.counted epoch = false ∧ (∀ position ∈ positions, ⟨epoch, position⟩ ∈ delivered) ∧
      gate.isFolded epoch = false ∧ ∃ pair ∈ delivered, pair.epoch = epoch
  tail : ∀ pair, gate.isFolded pair.epoch = false →
    (pair ∈ gate.appliedTail ↔ applied pair)
  folded : ∀ pair, gate.isFolded pair.epoch = true →
    pair ∈ delivered ∨
      (gate.highestSeenEpoch ≤ pair.epoch ∧ pair.position ∈ plan.positions pair.epoch) →
    applied pair
  redelivered : ∀ pair ∈ gate.appliedTail, pair.epoch < gate.highestSeenEpoch →
    gate.highestSeenEpoch ≠ notYetAppliedEpoch →
    ∀ positions, gate.deliveredUnknown[pair.epoch]? = some positions →
      pair.position ∈ positions

namespace Exact

variable {plan : EpochPlan} {delivered : List TxnId} {applied : TxnId → Prop}
  {gate : AppliedGate}

variable {pair : TxnId} {epoch next position : Nat}

theorem isFolded_iff (gate : AppliedGate) (epoch : Nat) :
    gate.isFolded epoch = true ↔
      gate.fullyAppliedEpoch ≠ notYetAppliedEpoch ∧ epoch ≤ gate.fullyAppliedEpoch := by
  unfold isFolded AppliedGate.isSentinel
  simp

theorem isFolded_eq_false_iff (gate : AppliedGate) (epoch : Nat) :
    gate.isFolded epoch = false ↔
      (gate.fullyAppliedEpoch ≠ notYetAppliedEpoch → gate.fullyAppliedEpoch < epoch) := by
  rw [← Bool.not_eq_true, isFolded_iff, not_and, Nat.not_le]

theorem lt_of_isFolded (hopen : gate.isFolded next = false)
    (hfolded : gate.isFolded epoch = true) : epoch < next := by
  rw [isFolded_iff] at hfolded
  exact Nat.lt_of_le_of_lt hfolded.2 ((isFolded_eq_false_iff gate next).mp hopen hfolded.1)

theorem watermark_le {gate after : AppliedGate}
    (hreal : after.fullyAppliedEpoch ≠ notYetAppliedEpoch)
    (hraised : ∀ epoch, gate.isFolded epoch = true → epoch ≤ after.fullyAppliedEpoch) :
    gate.watermark ≤ after.watermark := by
  unfold AppliedGate.watermark
  rw [if_neg (show ¬ after.isSentinel = true by simpa [AppliedGate.isSentinel] using hreal)]
  split
  · exact bot_le
  next hnot =>
    apply WithBot.coe_le_coe.mpr
    apply hraised
    rw [isFolded_iff]
    exact ⟨by simpa [AppliedGate.isSentinel] using hnot, Nat.le_refl _⟩

variable (hexact : Exact plan delivered applied gate)
include hexact

theorem isApplied_iff (hdelivered : pair ∈ delivered) :
    gate.isApplied pair.epoch pair.position = true ↔ applied pair := by
  unfold isApplied
  cases hfolded : gate.isFolded pair.epoch with
  | true =>
    simp only [Bool.true_or, true_iff]
    exact hexact.folded pair hfolded (.inl hdelivered)
  | false =>
    rw [Bool.false_or, TreeSet.contains_iff_mem]
    exact hexact.tail pair hfolded

theorem recorded_iff (hrecorded : gate.Recorded epoch) :
    gate.isFolded epoch = false ∧ ∃ pair ∈ delivered, pair.epoch = epoch := by
  obtain hmem | hmem := hrecorded
  · obtain ⟨count, hcount⟩ := (mem_iff_exists _ _).mp hmem
    exact (hexact.expected epoch count hcount).2.2
  · obtain ⟨positions, hpositions⟩ := (mem_iff_exists _ _).mp hmem
    exact (hexact.unknown epoch positions hpositions).2.2

theorem recorded_of_delivered (hdelivered : pair ∈ delivered)
    (hopen : gate.isFolded pair.epoch = false) : gate.Recorded pair.epoch := by
  have hrecorded := hexact.recorded pair hdelivered hopen
  split at hrecorded
  · exact .inl hrecorded
  · obtain ⟨positions, hpositions, -⟩ := hrecorded
    exact .inr (mem_of_getElem? hpositions)

theorem raise (after : AppliedGate)
    (hstarted : gate.highestSeenEpoch ≠ notYetAppliedEpoch)
    (hseen : after.highestSeenEpoch = gate.highestSeenEpoch)
    (hreal : after.fullyAppliedEpoch ≠ notYetAppliedEpoch)
    (hbelow : after.fullyAppliedEpoch ≤ gate.highestSeenEpoch)
    (hraised : ∀ epoch, gate.isFolded epoch = true → epoch ≤ after.fullyAppliedEpoch)
    (hlow : ∀ epoch, after.Recorded epoch → after.fullyAppliedEpoch < epoch)
    (hexpected : ∀ epoch, after.fullyAppliedEpoch < epoch →
      after.epochExpected[epoch]? = gate.epochExpected[epoch]?)
    (hunknown : ∀ epoch, after.fullyAppliedEpoch < epoch →
      after.deliveredUnknown[epoch]? = gate.deliveredUnknown[epoch]?)
    (hpruned : ∀ pair ∈ after.appliedTail, pair ∈ gate.appliedTail)
    (hkept : ∀ pair ∈ gate.appliedTail, after.fullyAppliedEpoch < pair.epoch →
      pair ∈ after.appliedTail)
    (hcomplete : ∀ pair, pair.epoch ≤ after.fullyAppliedEpoch →
      gate.isFolded pair.epoch = false →
      pair ∈ delivered ∨
        (gate.highestSeenEpoch ≤ pair.epoch ∧ pair.position ∈ plan.positions pair.epoch) →
      applied pair) : Exact plan delivered applied after ∧ gate.watermark ≤ after.watermark := by
  have hafter : ∀ epoch, after.isFolded epoch = false ↔ after.fullyAppliedEpoch < epoch := by
    intro epoch
    rw [isFolded_eq_false_iff]
    exact forall_prop_of_true hreal
  have hopen : ∀ epoch, after.fullyAppliedEpoch < epoch → gate.isFolded epoch = false := by
    intro epoch hlt
    rw [← Bool.not_eq_true]
    intro hfolded
    exact absurd (hraised epoch hfolded) (Nat.not_le.mpr hlt)
  have hunfolded : ∀ epoch positions, after.deliveredUnknown[epoch]? = some positions →
      after.fullyAppliedEpoch < epoch := fun epoch positions hpositions =>
    hlow epoch (.inr (mem_of_getElem? hpositions))
  refine ⟨⟨hexact.planned, hexact.real, hseen ▸ hexact.seen, ?_, hseen ▸ hexact.bounded,
    fun _ => hseen ▸ hbelow, ?_, ?_, ?_, ?_, ?_, ?_⟩, watermark_le hreal hraised⟩
  · rw [hseen]
    exact .inr (hexact.top.resolve_left fun hnone => hstarted hnone.1)
  · intro pair hdelivered hnot
    have hlt := (hafter pair.epoch).mp hnot
    have hrecorded := hexact.recorded pair hdelivered (hopen _ hlt)
    rw [hunknown _ hlt, mem_iff_exists, hexpected _ hlt, ← mem_iff_exists]
    exact hrecorded
  · intro epoch count hcount
    have hlt := hlow epoch (.inl (mem_of_getElem? hcount))
    rw [hexpected epoch hlt] at hcount
    obtain ⟨hcounted, hlength, -, hdelivered⟩ := hexact.expected epoch count hcount
    exact ⟨hcounted, hlength, (hafter epoch).mpr hlt, hdelivered⟩
  · intro epoch positions hpositions
    have hlt := hunfolded epoch positions hpositions
    rw [hunknown epoch hlt] at hpositions
    obtain ⟨hcounted, hall, -, hdelivered⟩ := hexact.unknown epoch positions hpositions
    exact ⟨hcounted, hall, (hafter epoch).mpr hlt, hdelivered⟩
  · intro pair hnot
    have hlt := (hafter pair.epoch).mp hnot
    rw [← hexact.tail pair (hopen _ hlt)]
    exact ⟨hpruned pair, fun hmem => hkept pair hmem hlt⟩
  · intro pair hfolded hcan
    rw [hseen] at hcan
    have hle := ((isFolded_iff after pair.epoch).mp hfolded).2
    cases hold : gate.isFolded pair.epoch with
    | true => exact hexact.folded pair hold hcan
    | false => exact hcomplete pair hle hold hcan
  · intro pair hmem hlt hne positions hpositions
    rw [hseen] at hlt hne
    rw [hunknown _ (hunfolded pair.epoch positions hpositions)] at hpositions
    exact hexact.redelivered pair (hpruned pair hmem) hlt hne positions hpositions

/-! ## One round of the walk -/

/-- The epoch looked at next is open, was reached, and nothing open below it
was delivered. -/
structure LooksAt (gate : AppliedGate) (delivered : List TxnId) (next : Nat) : Prop where
  isOpen : gate.isFolded next = false
  reached : next ≤ gate.highestSeenEpoch
  lowest : ∀ epoch, epoch < next → gate.isFolded epoch = false → ¬ gate.Recorded epoch

theorem looksAt (hnext : gate.nextEpoch = some next) : LooksAt gate delivered next := by
  unfold nextEpoch at hnext
  split at hnext
  next hsentinel =>
    obtain ⟨⟨hrecorded, -⟩, hlowest⟩ := nextParticipating_eq_some hnext
    obtain ⟨hopen, pair, hdelivered, rfl⟩ := hexact.recorded_iff hrecorded
    refine ⟨hopen, hexact.seen pair hdelivered, ?_⟩
    intro epoch hlt _ hother
    exact absurd (hlowest ⟨hother, Nat.zero_le _⟩) (Nat.not_le.mpr hlt)
  next hreal =>
    split at hnext
    · cases hnext
    next hle =>
      cases hnext
      refine ⟨?_, Nat.not_lt.mp hle, ?_⟩
      · exact (isFolded_eq_false_iff gate _).mpr fun _ => Nat.lt_succ_self _
      · intro epoch hlt hnot _
        have := (isFolded_eq_false_iff gate epoch).mp hnot
          (by simpa [AppliedGate.isSentinel] using hreal)
        omega

def tailOf (gate : AppliedGate) (epoch : Nat) : List Nat :=
  (gate.appliedTail.toList.filter fun pair => decide (pair.epoch = epoch)).map TxnId.position

section

omit hexact

theorem mem_tailOf (gate : AppliedGate) (epoch position : Nat) :
    position ∈ tailOf gate epoch ↔ ⟨epoch, position⟩ ∈ gate.appliedTail := by
  unfold tailOf
  rw [mem_map]
  constructor
  · rintro ⟨⟨other, found⟩, hfound, rfl⟩
    obtain ⟨hmem, hepoch⟩ := mem_filter.mp hfound
    obtain rfl : other = epoch := of_decide_eq_true hepoch
    exact TreeSet.mem_toList.mp hmem
  · intro hmem
    exact ⟨⟨epoch, position⟩,
      mem_filter.mpr ⟨TreeSet.mem_toList.mpr hmem, decide_eq_true rfl⟩, rfl⟩

theorem nodup_tailOf (gate : AppliedGate) (epoch : Nat) : (tailOf gate epoch).Nodup := by
  refine List.Nodup.map_on ?_ ((nodup_set_toList gate.appliedTail).filter _)
  rintro ⟨a, p⟩ ha ⟨b, q⟩ hb heq
  have hepoch := of_decide_eq_true (mem_filter.mp ha).2
  have hepoch' := of_decide_eq_true (mem_filter.mp hb).2
  dsimp only at hepoch hepoch' heq
  rw [hepoch, hepoch', heq]

end

theorem applied_of_count (hopen : gate.isFolded epoch = false) (all : List Nat)
    (hfits : all.length < 2 ^ 32) (hsub : ∀ position ∈ tailOf gate epoch, position ∈ all)
    (hcount : all.length ≤ gate.epochAppliedCount epoch) :
    ∀ position ∈ all, applied ⟨epoch, position⟩ := by
  have hdistinct := nodup_tailOf gate epoch
  have hlength : gate.epochAppliedCount epoch = (tailOf gate epoch).length := by
    have hle := (hdistinct.subperm hsub).length_le
    rw [tailOf, length_map] at hle ⊢
    exact Nat.mod_eq_of_lt (by omega)
  rw [hlength] at hcount
  intro position hmem
  have htail := (mem_tailOf gate epoch position).mp (mem_of_length_le hdistinct hsub hcount hmem)
  exact (hexact.tail ⟨epoch, position⟩ hopen).mp htail

section

variable (hlooks : LooksAt gate delivered next) (hseen : gate.highestSeenEpoch ≠ notYetAppliedEpoch)
include hlooks hseen

theorem foldEpoch (hcomplete : ∀ position, ⟨next, position⟩ ∈ delivered ∨
      (gate.highestSeenEpoch ≤ next ∧ position ∈ plan.positions next) →
      applied ⟨next, position⟩) :
    Exact plan delivered applied (gate.foldEpoch next) ∧
      gate.watermark ≤ (gate.foldEpoch next).watermark := by
  have hbounded := hexact.bounded
  have hreached := hlooks.reached
  have hlow : ∀ epoch, gate.Recorded epoch → next ≤ epoch := by
    intro epoch hrecorded
    by_contra hlt
    exact hlooks.lowest epoch (Nat.not_le.mp hlt) (hexact.recorded_iff hrecorded).1 hrecorded
  apply hexact.raise (gate.foldEpoch next) hseen
  · rfl
  · change next ≠ _
    omega
  · exact hreached
  · exact fun epoch hfolded => (lt_of_isFolded hlooks.isOpen hfolded).le
  · intro epoch hrecorded
    obtain ⟨hne, hold⟩ : epoch ≠ next ∧ gate.Recorded epoch := by
      obtain hmem | hmem := hrecorded
      · exact (mem_erase_iff.mp hmem).imp_right .inl
      · exact (mem_erase_iff.mp hmem).imp_right .inr
    exact Nat.lt_of_le_of_ne (hlow epoch hold) hne.symm
  · exact fun epoch hlt => getElem?_erase_ne _ (Nat.ne_of_gt hlt)
  · exact fun epoch hlt => getElem?_erase_ne _ (Nat.ne_of_gt hlt)
  · intro pair hmem
    exact ((mem_foldl_erase _ _ _).mp hmem).1
  · intro pair hmem hlt
    refine (mem_foldl_erase _ _ _).mpr ⟨hmem, ?_⟩
    intro hdoomed
    exact absurd (of_decide_eq_true (mem_filter.mp hdoomed).2) (Nat.ne_of_gt hlt)
  · rintro ⟨epoch, position⟩ hle hopen hcan
    change epoch ≤ next at hle
    by_cases heq : epoch = next
    · subst heq
      exact hcomplete position hcan
    · obtain hdelivered | ⟨hhigh, -⟩ := hcan
      · have := hlow epoch (hexact.recorded_of_delivered hdelivered hopen)
        omega
      · dsimp only at hhigh
        omega

theorem passOver_eq (hne : ¬ gate.Recorded next) :
    ∃ later, next < later ∧ later ≤ gate.highestSeenEpoch ∧ gate.Recorded later ∧
      (∀ epoch, next ≤ epoch → epoch < later → ¬ gate.Recorded epoch) ∧
      gate.passOver next = ({ gate with fullyAppliedEpoch := later - 1 }, true) := by
  -- the highest epoch seen is recorded, so the walk never runs past it
  obtain ⟨pair, hdelivered, hhighest⟩ := hexact.top.resolve_left fun hnone => hseen hnone.1
  have hreached := hlooks.reached
  have htop : gate.Recorded gate.highestSeenEpoch := by
    rw [← hhighest]
    apply hexact.recorded_of_delivered hdelivered
    have hlow := (isFolded_eq_false_iff gate next).mp hlooks.isOpen
    rw [isFolded_eq_false_iff, hhighest]
    exact fun hreal => Nat.lt_of_lt_of_le (hlow hreal) hreached
  unfold passOver
  cases hlater : gate.nextParticipating next with
  | none => exact absurd (nextParticipating_eq_none hlater htop) (by omega)
  | some later =>
    obtain ⟨⟨hrecorded, hle⟩, hlowest⟩ := nextParticipating_eq_some hlater
    have hmax := hlowest ⟨htop, hreached⟩
    have hdiffers : later ≠ next := by
      rintro rfl
      exact hne hrecorded
    refine ⟨later, by omega, hmax, hrecorded, ?_, if_pos hmax⟩
    intro epoch hfirst hlt hother
    exact absurd (hlowest ⟨hother, hfirst⟩) (Nat.not_le.mpr hlt)

end

theorem passOver (hnext : gate.nextEpoch = some next)
    (hseen : gate.highestSeenEpoch ≠ notYetAppliedEpoch) (hne : ¬ gate.Recorded next) :
    Exact plan delivered applied (gate.passOver next).1 ∧
      gate.watermark ≤ (gate.passOver next).1.watermark := by
  have hlooks := hexact.looksAt hnext
  obtain ⟨later, hlt, hmax, -, hgap, heq⟩ := hexact.passOver_eq hlooks hseen hne
  rw [heq]
  have hbounded := hexact.bounded
  have hunrecorded : ∀ epoch, epoch ≤ later - 1 → ¬ gate.Recorded epoch := by
    intro epoch hle hrecorded
    by_cases hfirst : next ≤ epoch
    · exact hgap epoch hfirst (by omega) hrecorded
    · exact hlooks.lowest epoch (Nat.not_le.mp hfirst) (hexact.recorded_iff hrecorded).1 hrecorded
  apply hexact.raise { gate with fullyAppliedEpoch := later - 1 } hseen
  · rfl
  · dsimp only
    omega
  · dsimp only
    omega
  · intro epoch hfolded
    have := lt_of_isFolded hlooks.isOpen hfolded
    dsimp only
    omega
  · exact fun epoch hrecorded => Nat.not_le.mp fun hle => hunrecorded epoch hle hrecorded
  · exact fun _ _ => rfl
  · exact fun _ _ => rfl
  · exact fun pair hmem => hmem
  · exact fun pair hmem _ => hmem
  · intro pair hle hopen hcan
    dsimp only at hle
    obtain hdelivered | ⟨hhigh, -⟩ := hcan
    · exact absurd (hexact.recorded_of_delivered hdelivered hopen) (hunrecorded _ hle)
    · omega

theorem applied_of_expected {expected : Nat} (hopen : gate.isFolded next = false)
    (hexpected : gate.epochExpected[next]? = some expected)
    (hcount : expected ≤ gate.epochAppliedCount next) :
    ∀ position ∈ plan.positions next, applied ⟨next, position⟩ := by
  obtain ⟨-, rfl, -⟩ := hexact.expected next expected hexpected
  apply hexact.applied_of_count hopen (plan.positions next) (plan.fits next)
  · intro position hmem
    exact hexact.real _ ((hexact.tail ⟨next, position⟩ hopen).mp ((mem_tailOf _ _ _).mp hmem))
  · exact hcount

theorem applied_of_delivered (hopen : gate.isFolded next = false)
    (hseen : gate.highestSeenEpoch ≠ notYetAppliedEpoch) (hlater : next < gate.highestSeenEpoch)
    (hmem : next ∈ gate.deliveredUnknown)
    (hcount : gate.deliveredCount next ≤ gate.epochAppliedCount next) :
    ∀ position, ⟨next, position⟩ ∈ delivered → applied ⟨next, position⟩ := by
  obtain ⟨positions, hpositions⟩ := (mem_iff_exists _ _).mp hmem
  obtain ⟨hcounted, hdelivered, -, -⟩ := hexact.unknown next positions hpositions
  have hsize : positions.toList.length ≤ (plan.positions next).length := by
    exact ((nodup_set_toList positions).subperm fun position hposition =>
      hexact.planned _ (hdelivered position (TreeSet.mem_toList.mp hposition))).length_le
  have hfits := plan.fits next
  have hlength : gate.deliveredCount next = positions.toList.length := by
    unfold deliveredCount
    rw [hpositions]
    dsimp only
    rw [← TreeSet.length_toList]
    exact Nat.mod_eq_of_lt (by omega)
  have hall : ∀ position ∈ positions.toList, applied ⟨next, position⟩ := by
    apply hexact.applied_of_count hopen positions.toList (by omega)
    · intro position hposition
      exact TreeSet.mem_toList.mpr (hexact.redelivered ⟨next, position⟩
        ((mem_tailOf _ _ _).mp hposition) hlater hseen positions hpositions)
    · omega
  intro position hpair
  have hrecorded := hexact.recorded _ hpair hopen
  simp only [hcounted, Bool.false_eq_true, if_false] at hrecorded
  obtain ⟨found, hfound, hin⟩ := hrecorded
  obtain rfl : positions = found := Option.some.inj (hpositions.symm.trans hfound)
  exact hall position (TreeSet.mem_toList.mpr hin)

/-- A round that goes on folds a recorded epoch or moves in front of one; any
other leaves the gate. -/
inductive Round (gate : AppliedGate) : AppliedGate × Bool → Prop
  | done : Round gate (gate, false)
  | fold (next : Nat) (hrecorded : gate.Recorded next) : Round gate (gate.foldEpoch next, true)
  | pass (later : Nat) (hpos : 0 < later) (hreached : later ≤ gate.highestSeenEpoch)
      (hrecorded : gate.Recorded later) (hnext : ∃ next, gate.nextEpoch = some next ∧
        ¬ gate.Recorded next) :
      Round gate ({ gate with fullyAppliedEpoch := later - 1 }, true)

theorem advanceOnce (hseen : gate.highestSeenEpoch ≠ notYetAppliedEpoch) :
    Exact plan delivered applied gate.advanceOnce.1 ∧
      gate.watermark ≤ gate.advanceOnce.1.watermark ∧ Round gate gate.advanceOnce := by
  unfold AppliedGate.advanceOnce
  split
  · exact ⟨hexact, le_rfl, .done⟩
  next next hnext =>
    have hlooks := hexact.looksAt hnext
    split
    next expected hexpected =>
      split
      · exact ⟨hexact, le_rfl, .done⟩
      next hcount =>
        rw [not_or, Nat.not_lt] at hcount
        have hall := hexact.applied_of_expected hlooks.isOpen hexpected hcount.2
        have hrecorded : gate.Recorded next := .inl (mem_of_getElem? hexpected)
        have hfold := hexact.foldEpoch hlooks hseen (by
          rintro position (hdelivered | ⟨-, hplanned⟩)
          · exact hall position (hexact.planned _ hdelivered)
          · exact hall position hplanned)
        exact ⟨hfold.1, hfold.2, .fold next hrecorded⟩
    next hnone =>
      split
      next hmem =>
        split
        · exact ⟨hexact, le_rfl, .done⟩
        next hcount =>
          rw [not_or, Nat.not_le, Nat.not_lt] at hcount
          have hall := hexact.applied_of_delivered hlooks.isOpen hseen hcount.1 hmem hcount.2
          have hfold := hexact.foldEpoch hlooks hseen (by
            rintro position (hdelivered | ⟨hhigh, -⟩)
            · exact hall position hdelivered
            · omega)
          exact ⟨hfold.1, hfold.2, .fold next (.inr hmem)⟩
      next hunrecorded =>
        have hne : ¬ gate.Recorded next := by
          rintro (hrecorded | hrecorded)
          · rw [TreeMap.mem_iff_isSome_getElem?, hnone] at hrecorded
            cases hrecorded
          · exact hunrecorded hrecorded
        have hpass := hexact.passOver hnext hseen hne
        obtain ⟨later, hlt, hmax, hrecorded, -, heq⟩ := hexact.passOver_eq hlooks hseen hne
        refine ⟨hpass.1, hpass.2, ?_⟩
        rw [heq]
        exact .pass later (by omega) hmax hrecorded ⟨next, hnext, hne⟩

/-! ## The walk -/

theorem walk (fuel : Nat) (hseen : gate.highestSeenEpoch ≠ notYetAppliedEpoch) :
    Exact plan delivered applied (AppliedGate.walk fuel gate) ∧
      gate.watermark ≤ (AppliedGate.walk fuel gate).watermark := by
  induction fuel generalizing gate with
  | zero => exact ⟨hexact, le_rfl⟩
  | succ fuel ih =>
    obtain ⟨hround, hmark, hcase⟩ := hexact.advanceOnce hseen
    unfold walk
    generalize gate.advanceOnce = round at *
    cases hcase with
    | done => exact ⟨hround, hmark⟩
    | fold next hrecorded | pass later hpos hreached hrecorded hnext =>
      have hrest := ih hround hseen
      exact ⟨hrest.1, hmark.trans hrest.2⟩

theorem advance :
    Exact plan delivered applied gate.advance.2 ∧
      gate.watermark ≤ gate.advance.2.watermark := by
  unfold AppliedGate.advance
  split
  · exact ⟨hexact, le_rfl⟩
  next hseen =>
    have hwalk := hexact.walk gate.rounds hseen
    dsimp only
    split
    · exact hwalk
    · exact hwalk

/-! ## Calls -/

theorem highest_le (horder : ∀ pair ∈ delivered, pair.epoch ≤ epoch) (hstarted : delivered ≠ []) :
    gate.highestSeenEpoch ≤ epoch := by
  obtain ⟨pair, hdelivered, hhighest⟩ := hexact.top.resolve_left fun hnone => hstarted hnone.2.2
  rw [← hhighest]
  exact horder pair hdelivered

theorem noteFolded (hplanned : position ∈ plan.positions epoch)
    (horder : ∀ pair ∈ delivered, pair.epoch ≤ epoch) (hfolded : gate.isFolded epoch = true) :
    Exact plan (delivered ++ [⟨epoch, position⟩]) applied gate := by
  have hfold := (isFolded_iff gate epoch).mp hfolded
  have hreal : gate.isSentinel = false := by
    exact decide_eq_false hfold.1
  have hhighest : gate.highestSeenEpoch ≤ epoch := by
    apply hexact.highest_le horder
    rintro rfl
    obtain ⟨-, hsentinel, -⟩ | ⟨pair, hnone, -⟩ := hexact.top
    · rw [hreal] at hsentinel
      cases hsentinel
    · cases hnone
  have hbelow := hexact.below hreal
  refine ⟨forall_mem_concat.mpr ⟨hexact.planned, hplanned⟩, hexact.real,
    forall_mem_concat.mpr ⟨hexact.seen, hfold.2.trans hbelow⟩, ?_, hexact.bounded, hexact.below,
    forall_mem_concat.mpr ⟨hexact.recorded, fun hopen => ?_⟩, ?_, ?_, hexact.tail, ?_,
    hexact.redelivered⟩
  · refine .inr ⟨⟨epoch, position⟩, mem_append_right _ mem_cons_self, ?_⟩
    exact Nat.le_antisymm (hfold.2.trans hbelow) hhighest
  · rw [hfolded] at hopen
    cases hopen
  · intro other count hcount
    obtain ⟨hcounted, hlength, hopen, pair, hmem, heq⟩ := hexact.expected other count hcount
    exact ⟨hcounted, hlength, hopen, pair, mem_append_left _ hmem, heq⟩
  · intro other positions hpositions
    obtain ⟨hcounted, hall, hopen, pair, hmem, heq⟩ := hexact.unknown other positions hpositions
    exact ⟨hcounted, fun found hfound => mem_append_left _ (hall found hfound), hopen, pair,
      mem_append_left _ hmem, heq⟩
  · rintro pair hpair (hmem | hcan)
    · rw [mem_append, mem_singleton] at hmem
      obtain hmem | rfl := hmem
      · exact hexact.folded pair hpair (.inl hmem)
      · exact hexact.folded _ hpair (.inr ⟨hhighest, hplanned⟩)
    · exact hexact.folded pair hpair (.inr hcan)

/-- What noting a delivered position changes. -/
structure Notes (plan : EpochPlan) (gate after : AppliedGate) (epoch position : Nat) :
    Prop where
  watermark : after.fullyAppliedEpoch = gate.fullyAppliedEpoch
  tail : after.appliedTail = gate.appliedTail
  highest : after.highestSeenEpoch = epoch
  expected : ∀ other, after.epochExpected[other]? =
    if other = epoch ∧ plan.counted epoch = true then some (plan.positions epoch).length
    else gate.epochExpected[other]?
  unknown : ∀ other, after.deliveredUnknown[other]? =
    if other = epoch ∧ plan.counted epoch = false then
      some (((gate.deliveredUnknown[epoch]?).getD ∅).insert position)
    else gate.deliveredUnknown[other]?

theorem notes (hplanned : position ∈ plan.positions epoch)
    (horder : ∀ pair ∈ delivered, pair.epoch ≤ epoch) (hopen : gate.isFolded epoch = false) :
    Notes plan gate (gate.noteExpected epoch position (plan.count epoch)) epoch position := by
  have hpos : (plan.positions epoch).length ≠ 0 := (length_pos_of_mem hplanned).ne'
  have hhighest : gate.highestSeenEpoch = notYetAppliedEpoch ∨ gate.highestSeenEpoch ≤ epoch := by
    by_cases hstarted : delivered = []
    · obtain hnone | ⟨pair, hmem, -⟩ := hexact.top
      · exact .inl hnone.1
      · rw [hstarted] at hmem
        cases hmem
    · exact .inr (hexact.highest_le horder hstarted)
  have hsee : ∀ after : AppliedGate, after.highestSeenEpoch = gate.highestSeenEpoch →
      after.see epoch = { after with highestSeenEpoch := epoch } := by
    intro after hseen
    unfold AppliedGate.see
    split
    · rfl
    next hnot =>
      rw [not_or, Nat.not_lt, hseen] at hnot
      have heq := Nat.le_antisymm (hhighest.resolve_left hnot.1) hnot.2
      rw [← heq, ← hseen]
  unfold AppliedGate.noteExpected AppliedGate.record EpochPlan.count
  rw [hopen, if_neg Bool.false_ne_true]
  cases hcounted : plan.counted epoch with
  | false =>
    rw [if_neg Bool.false_ne_true, if_pos rfl, hsee]
    · refine ⟨rfl, rfl, rfl, ?_, ?_⟩
      · intro other
        rw [hcounted, if_neg fun hboth => Bool.false_ne_true hboth.2]
      · intro other
        by_cases heq : other = epoch
        · subst heq
          rw [TreeMap.getElem?_insert_self, if_pos ⟨rfl, hcounted⟩]
        · rw [getElem?_insert_ne _ heq, if_neg fun hboth => heq hboth.1]
    · rfl
  | true =>
    rw [if_pos rfl, if_neg hpos, hsee]
    · refine ⟨rfl, rfl, rfl, ?_, ?_⟩
      · intro other
        dsimp only
        rw [getElem?_insertIfNew]
        by_cases heq : other = epoch
        · subst heq
          rw [if_pos (⟨rfl, hcounted⟩ : other = other ∧ plan.counted other = true)]
          split
          · rfl
          next hnot =>
            obtain ⟨count, hcount⟩ :=
              Option.ne_none_iff_exists'.mp fun hnone => hnot ⟨rfl, hnone⟩
            rw [hcount, (hexact.expected other count hcount).2.1]
        · rw [if_neg fun hboth => heq hboth.1, if_neg fun hboth => heq hboth.1]
      · intro other
        rw [hcounted, if_neg fun hboth => Bool.false_ne_true hboth.2.symm]
    · rfl

omit hexact in
theorem Notes.recorded {after : AppliedGate} (hnotes : Notes plan gate after epoch position)
    (hrecorded : pair = ⟨epoch, position⟩ ∨
      if plan.counted pair.epoch then pair.epoch ∈ gate.epochExpected
      else ∃ positions, gate.deliveredUnknown[pair.epoch]? = some positions ∧
      pair.position ∈ positions) :
    if plan.counted pair.epoch then pair.epoch ∈ after.epochExpected
    else ∃ positions, after.deliveredUnknown[pair.epoch]? = some positions ∧
      pair.position ∈ positions := by
  cases hcounted : plan.counted pair.epoch with
  | true =>
    simp only [hcounted, if_true] at hrecorded ⊢
    rw [mem_iff_exists, hnotes.expected]
    split
    · exact ⟨_, rfl⟩
    next hnot =>
      obtain rfl | hrecorded := hrecorded
      · exact absurd ⟨rfl, hcounted⟩ hnot
      · exact (mem_iff_exists _ _).mp hrecorded
  | false =>
    simp only [hcounted, Bool.false_eq_true, if_false] at hrecorded ⊢
    rw [hnotes.unknown]
    split
    next hboth =>
      refine ⟨_, rfl, ?_⟩
      obtain rfl | ⟨positions, hpositions, hin⟩ := hrecorded
      · exact mem_set_insert_iff.mpr (.inl rfl)
      · rw [← hboth.1, hpositions]
        exact mem_set_insert_iff.mpr (.inr hin)
    next hnot =>
      obtain rfl | hrecorded := hrecorded
      · exact absurd ⟨rfl, hcounted⟩ hnot
      · exact hrecorded

theorem noteOpen (hplanned : position ∈ plan.positions epoch) (hfits : epoch < 2 ^ 64)
    (horder : ∀ pair ∈ delivered, pair.epoch ≤ epoch) (hopen : gate.isFolded epoch = false)
    (hredelivered : ∀ pair ∈ gate.appliedTail, pair.epoch < epoch →
      ∀ positions, gate.deliveredUnknown[pair.epoch]? = some positions →
      pair.position ∈ positions) :
    Exact plan (delivered ++ [⟨epoch, position⟩]) applied
      (gate.noteExpected epoch position (plan.count epoch)) := by
  have hnotes := hexact.notes hplanned horder hopen
  generalize gate.noteExpected epoch position (plan.count epoch) = after at hnotes
  have hsame : ∀ other, after.isFolded other = gate.isFolded other := by
    intro other
    rw [Bool.eq_iff_iff, isFolded_iff, isFolded_iff, hnotes.watermark]
  have hmem : ∀ pair : TxnId, pair ∈ delivered ++ [⟨epoch, position⟩] ↔
      pair ∈ delivered ∨ pair = ⟨epoch, position⟩ := by
    intro pair
    rw [mem_append, mem_singleton]
  refine ⟨?_, hexact.real, ?_, ?_, ?_, ?_, ?_, ?_, ?_, ?_, ?_, ?_⟩
  · exact forall_mem_concat.mpr ⟨hexact.planned, hplanned⟩
  · rw [hnotes.highest]
    exact forall_mem_concat.mpr ⟨horder, Nat.le_refl _⟩
  · exact .inr ⟨_, (hmem _).mpr (.inr rfl), hnotes.highest.symm⟩
  · rw [hnotes.highest]
    unfold notYetAppliedEpoch
    omega
  · intro hreal
    rw [hnotes.highest, hnotes.watermark]
    apply (lt_of_isFolded hopen _).le
    rw [isFolded_iff, ← hnotes.watermark]
    exact ⟨of_decide_eq_false hreal, Nat.le_refl _⟩
  · intro pair hpair hnot
    rw [hsame] at hnot
    apply hnotes.recorded
    obtain hpair | rfl := (hmem pair).mp hpair
    · exact .inr (hexact.recorded pair hpair hnot)
    · exact .inl rfl
  · intro other count hcount
    rw [hnotes.expected] at hcount
    rw [hsame]
    split at hcount
    next hboth =>
      obtain ⟨rfl, hcounted⟩ := hboth
      exact ⟨hcounted, (Option.some.inj hcount).symm, hopen, _, (hmem _).mpr (.inr rfl), rfl⟩
    next =>
      obtain ⟨hcounted, hlength, hnot, pair, hpair, heq⟩ := hexact.expected other count hcount
      exact ⟨hcounted, hlength, hnot, pair, (hmem pair).mpr (.inl hpair), heq⟩
  · intro other positions hpositions
    rw [hnotes.unknown] at hpositions
    rw [hsame]
    split at hpositions
    next hboth =>
      obtain ⟨rfl, hcounted⟩ := hboth
      refine ⟨hcounted, ?_, hopen, _, (hmem _).mpr (.inr rfl), rfl⟩
      intro found hfound
      rw [← Option.some.inj hpositions, mem_set_insert_iff] at hfound
      obtain rfl | hfound := hfound
      · exact (hmem _).mpr (.inr rfl)
      · cases hbefore : gate.deliveredUnknown[other]? with
        | none =>
          rw [hbefore] at hfound
          simp at hfound
        | some before =>
          rw [hbefore] at hfound
          exact (hmem _).mpr (.inl ((hexact.unknown other before hbefore).2.1 found hfound))
    next =>
      obtain ⟨hcounted, hall, hnot, pair, hpair, heq⟩ :=
        hexact.unknown other positions hpositions
      exact ⟨hcounted, fun found hfound => (hmem _).mpr (.inl (hall found hfound)), hnot, pair,
        (hmem pair).mpr (.inl hpair), heq⟩
  · intro pair hnot
    rw [hsame] at hnot
    rw [hnotes.tail]
    exact hexact.tail pair hnot
  · intro pair hfolded hcan
    rw [hsame] at hfolded
    have hless := lt_of_isFolded hopen hfolded
    rw [hnotes.highest] at hcan
    obtain hpair | ⟨hhigh, -⟩ := hcan
    · obtain hpair | rfl := (hmem pair).mp hpair
      · exact hexact.folded pair hfolded (.inl hpair)
      · exact absurd hless (Nat.lt_irrefl _)
    · exact absurd hless (Nat.not_lt.mpr hhigh)
  · intro pair hpair hless _ positions hpositions
    rw [hnotes.highest] at hless
    rw [hnotes.tail] at hpair
    rw [hnotes.unknown, if_neg fun hboth => absurd hboth.1 (Nat.ne_of_lt hless)] at hpositions
    exact hredelivered pair hpair hless positions hpositions

theorem markApplied {marked : TxnId} (hdelivered : marked ∈ delivered) :
    Exact plan delivered (fun pair => applied pair ∨ pair = marked)
        (gate.markApplied marked.epoch marked.position).2 ∧
      gate.watermark ≤ (gate.markApplied marked.epoch marked.position).2.watermark := by
  have hreal : ∀ pair, applied pair ∨ pair = marked →
      pair.position ∈ plan.positions pair.epoch := by
    rintro pair (happlied | rfl)
    · exact hexact.real pair happlied
    · exact hexact.planned pair hdelivered
  unfold AppliedGate.markApplied
  split
  next hfolded =>
    refine ⟨{ hexact with real := hreal, tail := ?_, folded := ?_ }, le_rfl⟩
    · intro pair hnot
      rw [hexact.tail pair hnot]
      refine ⟨.inl, ?_⟩
      rintro (happlied | rfl)
      · exact happlied
      · rw [hfolded] at hnot
        cases hnot
    · intro pair hpair hcan
      exact .inl (hexact.folded pair hpair hcan)
  next hopen =>
    rw [Bool.not_eq_true] at hopen
    have hmarked : Exact plan delivered (fun pair => applied pair ∨ pair = marked)
        { gate with appliedTail := gate.appliedTail.insert marked } := by
      refine { hexact with real := hreal, tail := ?_, folded := ?_, redelivered := ?_ }
      · intro pair hnot
        rw [mem_set_insert_iff, hexact.tail pair hnot, or_comm]
      · intro pair hpair hcan
        exact .inl (hexact.folded pair hpair hcan)
      · intro pair hpair hless hseen positions hpositions
        obtain rfl | hpair := mem_set_insert_iff.mp hpair
        · have hrecorded := hexact.recorded pair hdelivered hopen
          obtain ⟨hcounted, -⟩ := hexact.unknown pair.epoch positions hpositions
          simp only [hcounted, Bool.false_eq_true, if_false] at hrecorded
          obtain ⟨found, hfound, hin⟩ := hrecorded
          obtain rfl : positions = found := Option.some.inj (hpositions.symm.trans hfound)
          exact hin
        · exact hexact.redelivered pair hpair hless hseen positions hpositions
    exact hmarked.advance

end Exact

/-! ## The walk ends -/

namespace AppliedGate

/-- The rounds that are left: two for each recorded epoch, and one more while
the walk stands at an epoch that is not recorded. -/
def roundsLeft (gate : AppliedGate) : Nat :=
  2 * (gate.epochExpected.size + gate.deliveredUnknown.size) +
    match gate.nextEpoch with
    | none => 0
    | some next =>
      if next ∈ gate.epochExpected ∨ next ∈ gate.deliveredUnknown then 0 else 1

theorem roundsLeft_le (gate : AppliedGate) :
    gate.roundsLeft ≤ 2 * (gate.epochExpected.size + gate.deliveredUnknown.size) + 1 := by
  unfold roundsLeft
  split
  · omega
  · split <;> omega

theorem size_erase_lt {ν : Type} {map : TreeMap Nat ν} {key : Nat} (hmem : key ∈ map) :
    (map.erase key).size < map.size := by
  have hpos : 0 < map.size := by
    rw [← TreeMap.length_keys]
    exact length_pos_of_mem (TreeMap.mem_keys.mpr hmem)
  rw [TreeMap.size_erase, if_pos (TreeMap.contains_iff_mem.mpr hmem)]
  omega

theorem roundsLeft_foldEpoch {gate : AppliedGate} {next : Nat}
    (hrecorded : gate.Recorded next) : (gate.foldEpoch next).roundsLeft < gate.roundsLeft := by
  have hle := (gate.foldEpoch next).roundsLeft_le
  have hsizes : (gate.foldEpoch next).epochExpected.size +
      (gate.foldEpoch next).deliveredUnknown.size <
      gate.epochExpected.size + gate.deliveredUnknown.size := by
    change (gate.epochExpected.erase next).size + (gate.deliveredUnknown.erase next).size < _
    have hexpected := TreeMap.size_erase_le (t := gate.epochExpected) (k := next)
    have hunknown := TreeMap.size_erase_le (t := gate.deliveredUnknown) (k := next)
    obtain hmem | hmem := hrecorded
    · have := size_erase_lt hmem
      omega
    · have := size_erase_lt hmem
      omega
  have hbefore : 2 * (gate.epochExpected.size + gate.deliveredUnknown.size) ≤
      gate.roundsLeft := Nat.le_add_right _ _
  omega

theorem roundsLeft_pass {gate : AppliedGate} {later : Nat} (hpos : 0 < later)
    (hreached : later ≤ gate.highestSeenEpoch)
    (hbounded : gate.highestSeenEpoch ≤ notYetAppliedEpoch)
    (hrecorded : gate.Recorded later)
    (hnext : ∃ next, gate.nextEpoch = some next ∧ ¬ gate.Recorded next) :
    roundsLeft { gate with fullyAppliedEpoch := later - 1 } < gate.roundsLeft := by
  obtain ⟨next, hnext, hne⟩ := hnext
  have hmoved : nextEpoch { gate with fullyAppliedEpoch := later - 1 } = some later := by
    have hreal : later - 1 ≠ notYetAppliedEpoch := by omega
    unfold nextEpoch isSentinel
    dsimp only
    rw [if_neg (by simpa using hreal), if_neg (by omega), Nat.sub_add_cancel hpos]
  unfold roundsLeft
  rw [hnext, hmoved]
  dsimp only
  have hin : later ∈ gate.epochExpected ∨ later ∈ gate.deliveredUnknown := hrecorded
  have hout : ¬ (next ∈ gate.epochExpected ∨ next ∈ gate.deliveredUnknown) := hne
  rw [if_pos hin, if_neg hout]
  omega

theorem walk_ends {plan : EpochPlan} {delivered : List TxnId} {applied : TxnId → Prop}
    (fuel : Nat) {gate : AppliedGate} (hexact : Exact plan delivered applied gate)
    (hseen : gate.highestSeenEpoch ≠ notYetAppliedEpoch) (hfuel : gate.roundsLeft < fuel) :
    (walk fuel gate).advanceOnce = (walk fuel gate, false) := by
  induction fuel generalizing gate with
  | zero => omega
  | succ fuel ih =>
    obtain ⟨hround, -, hcase⟩ := hexact.advanceOnce hseen
    unfold walk
    generalize hadvance : gate.advanceOnce = round at *
    cases hcase with
    | done => exact hadvance
    | fold next hrecorded =>
      have := roundsLeft_foldEpoch hrecorded
      exact ih hround hseen (by omega)
    | pass later hpos hreached hrecorded hnext =>
      have := roundsLeft_pass hpos hreached hexact.bounded hrecorded hnext
      exact ih hround hseen (by omega)

end AppliedGate

/-! ## Runs -/

theorem exact_start (plan : EpochPlan) (recovered : TreeSet TxnId)
    (hrecovered : ∀ pair ∈ recovered, pair.position ∈ plan.positions pair.epoch) :
    Exact plan [] (fun pair => pair ∈ recovered ∨ pair ∈ ([] : List TxnId))
      (GateRun.start recovered).gate := by
  have hopen : ∀ epoch, (GateRun.start recovered).gate.isFolded epoch = false := fun _ => rfl
  refine ⟨?_, ?_, ?_, .inl ⟨rfl, rfl, rfl⟩, Nat.le_refl _, ?_, ?_, ?_, ?_, ?_, ?_, ?_⟩
  · simp
  · rintro pair (hmem | hmem)
    · exact hrecovered pair hmem
    · cases hmem
  · simp
  · intro hreal
    cases hreal
  · simp
  · simp [GateRun.start, new]
  · simp [GateRun.start, new]
  · simp [GateRun.start, new]
  · intro pair hfolded
    cases hfolded
  · intro pair _ _ hseen
    exact absurd rfl hseen

theorem exact_perform {plan : EpochPlan} {recovered : TreeSet TxnId} {run : GateRun}
    (hexact : Exact plan run.delivered (fun pair => pair ∈ recovered ∨ pair ∈ run.marked)
      run.gate) {call : GateCall} (horder : run.InOrder plan call)
    (hredelivered : run.Redelivered call) :
    Exact plan (run.perform call).delivered
        (fun pair => pair ∈ recovered ∨ pair ∈ (run.perform call).marked)
        (run.perform call).gate ∧
      run.gate.watermark ≤ (run.perform call).gate.watermark := by
  cases call with
  | noteExpected epoch position count =>
    obtain ⟨hfits, hplanned, rfl, horder⟩ := horder
    cases hfolded : run.gate.isFolded epoch with
    | true =>
      have hsame : run.gate.noteExpected epoch position (plan.count epoch) = run.gate := by
        unfold AppliedGate.noteExpected
        rw [hfolded, if_pos rfl]
      simp only [GateRun.perform, hsame]
      exact ⟨hexact.noteFolded hplanned horder hfolded, le_rfl⟩
    | false =>
      have hnotes := hexact.notes hplanned horder hfolded
      refine ⟨hexact.noteOpen hplanned hfits horder hfolded ?_, ?_⟩
      · intro pair hpair hless positions hpositions
        exact hredelivered pair (TreeSet.mem_toList.mpr hpair) hless positions hpositions
      · change _ ≤ (run.gate.noteExpected epoch position (plan.count epoch)).watermark
        unfold AppliedGate.watermark AppliedGate.isSentinel
        rw [hnotes.watermark]
  | markApplied epoch position =>
    have hmarked := hexact.markApplied horder
    have happlied : (fun pair => pair ∈ recovered ∨ pair ∈ run.marked ++ [⟨epoch, position⟩]) =
        fun pair => (pair ∈ recovered ∨ pair ∈ run.marked) ∨ pair = ⟨epoch, position⟩ := by
      funext pair
      rw [mem_append, mem_singleton, or_assoc]
    simp only [GateRun.perform, happlied]
    exact hmarked
  | advance => exact hexact.advance

/-- In every run that delivers the epochs in order and delivers again what the
tail holds of epochs without a count, the gate answers exactly for the
positions that were recovered or marked, and its watermark does not
decrease. -/
theorem isApplied_iff_of_run (plan : EpochPlan) (recovered : TreeSet TxnId)
    (hrecovered : ∀ pair ∈ recovered.toList, pair.position ∈ plan.positions pair.epoch)
    (calls : List GateCall)
    (horder : Along GateRun.perform (GateRun.InOrder plan) (.start recovered) calls)
    (hredelivered : Along GateRun.perform GateRun.Redelivered (.start recovered)
      calls) :
    let run := calls.foldl GateRun.perform (.start recovered)
    (∀ pair ∈ run.delivered, run.gate.isApplied pair.epoch pair.position = true ↔
      pair ∈ recovered ∨ pair ∈ run.marked) ∧
    ∀ before after, calls = before ++ after →
      (before.foldl GateRun.perform (.start recovered)).gate.watermark ≤ run.gate.watermark := by
  have hrule : ∀ (run : GateRun) (calls : List GateCall),
      Exact plan run.delivered (fun pair => pair ∈ recovered ∨ pair ∈ run.marked) run.gate →
      Along GateRun.perform
        (fun run call => run.InOrder plan call ∧ run.Redelivered call) run calls →
      Exact plan (calls.foldl GateRun.perform run).delivered
        (fun pair => pair ∈ recovered ∨ pair ∈ (calls.foldl GateRun.perform run).marked)
        (calls.foldl GateRun.perform run).gate ∧
      run.gate.watermark ≤ (calls.foldl GateRun.perform run).gate.watermark := by
    intro run calls hexact halong
    induction calls generalizing run with
    | nil => exact ⟨hexact, le_rfl⟩
    | cons call rest ih =>
      obtain ⟨⟨hcall, hagain⟩, hrest⟩ := halong
      obtain ⟨hstep, hmark⟩ := exact_perform hexact hcall hagain
      obtain ⟨hend, hmarks⟩ := ih _ hstep hrest
      exact ⟨hend, hmark.trans hmarks⟩
  have hstart := exact_start plan recovered fun pair hmem =>
    hrecovered pair (TreeSet.mem_toList.mpr hmem)
  have halong := horder.and hredelivered
  refine ⟨fun pair hmem => (hrule _ calls hstart halong).1.isApplied_iff hmem, ?_⟩
  rintro before after rfl
  obtain ⟨hbefore, hafter⟩ := (along_append _ _ _ _ _).mp halong
  rw [foldl_append]
  exact (hrule _ after (hrule _ before hstart hbefore).1 hafter).2

/-- A counted epoch, one without a count and a gap between them. -/
theorem isApplied_iff_of_run_gap :
    let recovered : TreeSet TxnId := (∅ : TreeSet TxnId).insert ⟨7, 1⟩
    let calls : List GateCall :=
      [.noteExpected 3 0 2, .markApplied 3 0, .noteExpected 3 4 2, .markApplied 3 4,
        .noteExpected 7 1 0, .noteExpected 7 2 0, .noteExpected 9 5 0, .advance]
    let run := calls.foldl GateRun.perform (.start recovered)
    run.gate.watermark = (6 : Nat) ∧
      (run.gate.isApplied 7 2 = true ↔ (⟨7, 2⟩ : TxnId) ∈ recovered ∨ ⟨7, 2⟩ ∈ run.marked) := by
  intro recovered calls run
  let plan : EpochPlan :=
    { positions := fun epoch => if epoch = 3 then [0, 4] else if epoch = 7 then [1, 2] else [5]
      distinct := by intro epoch; split <;> [decide; split <;> decide]
      fits := by intro epoch; split <;> [decide; split <;> decide]
      counted := fun epoch => decide (epoch = 3) }
  refine ⟨by decide, ?_⟩
  exact (isApplied_iff_of_run plan recovered (by decide) calls (by decide) (by decide)).1
    ⟨7, 2⟩ (by decide)

/-- The walk of the watermark ends, and only where no round can move it. -/
theorem advance_settles_of_run (plan : EpochPlan) (recovered : TreeSet TxnId)
    (hrecovered : ∀ pair ∈ recovered, pair.position ∈ plan.positions pair.epoch)
    (calls : List GateCall)
    (hcalls : Along GateRun.perform (fun run call => run.InOrder plan call ∧ run.Redelivered call)
      (.start recovered) calls) :
    let gate := (calls.foldl GateRun.perform (.start recovered)).gate
    gate.highestSeenEpoch ≠ notYetAppliedEpoch →
      gate.advance.2.advanceOnce = (gate.advance.2, false) := by
  intro gate hseen
  have hexact := invariant_foldl
    (fun run => Exact plan run.delivered (fun pair => pair ∈ recovered ∨ pair ∈ run.marked)
      run.gate)
    (fun run call hexact hcall => (exact_perform hexact hcall.1 hcall.2).1)
    (exact_start plan recovered hrecovered) hcalls
  have hwalk := walk_ends gate.rounds hexact hseen (Nat.lt_succ_of_le gate.roundsLeft_le)
  unfold AppliedGate.advance
  rw [if_neg hseen]
  dsimp only
  split <;> exact hwalk

/-- The last epoch waits for its only position. -/
theorem advance_settles_of_run_gap :
    let calls : List GateCall :=
      [.noteExpected 3 0 1, .markApplied 3 0, .noteExpected 9 0 1, .advance]
    let gate := (calls.foldl GateRun.perform (.start ∅)).gate
    gate.watermark = (8 : Nat) ∧ gate.advance.2.advanceOnce = (gate.advance.2, false) := by
  let plan : EpochPlan := ⟨fun _ => [0], fun _ => by decide, fun _ => by decide, fun _ => true⟩
  exact ⟨by decide, advance_settles_of_run plan ∅ (by simp) _ (by decide) (by decide)⟩

/-- A recovered position that is not delivered again stands in for one that is
delivered and was never applied. -/
theorem isApplied_without_mark : let plan : EpochPlan :=
      { positions := fun epoch => if epoch = 5 then [1, 2] else [0]
        distinct := by intro epoch; split <;> decide
        fits := by intro epoch; split <;> decide
        counted := fun _ => false }
    let recovered : TreeSet TxnId := (∅ : TreeSet TxnId).insert ⟨5, 1⟩
    let calls : List GateCall := [.noteExpected 5 2 0, .noteExpected 6 0 0, .advance]
    let run := calls.foldl GateRun.perform (.start recovered)
    Along GateRun.perform (GateRun.InOrder plan) (.start recovered) calls ∧
      (⟨5, 2⟩ : TxnId) ∈ run.delivered ∧ run.gate.isApplied 5 2 = true ∧
      (⟨5, 2⟩ : TxnId) ∉ recovered ∧ (⟨5, 2⟩ : TxnId) ∉ run.marked := by
  decide

end NodeDB.Calvin
