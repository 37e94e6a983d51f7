import NodeDB.BatchValidator
import NodeDB.CycleVictims

/-!
# Which candidates of a batch are rejected

A batch loses candidates only to cycles of reorder edges, but the victim is
the latest candidate left.  It may wait behind a cycle without being on one,
and is then rejected in vain: the cycle is still there.
-/

namespace NodeDB.Sequencer

open Calvin CycleBreaking List

/-- The candidates that a sorted batch loses, in the order it loses them. -/
def rejections (batch : List (List FlatKey × List FlatKey)) : List Nat :=
  victims (reorderGraph batch) batch.length
    (start batch.length (ConflictIndex.ofKeys batch).edges.inDegree)

theorem mem_rejections_iff {batch : List (List FlatKey × List FlatKey)} {idx : Nat}
    (hbound : idx < batch.length) :
    idx ∈ rejections batch ↔ (emitPositions batch).emittedPosition idx = none := by
  have hrejected : (emitPositions batch).rejected idx = true ↔ idx ∈ rejections batch := by
    rw [emitPositions, rejected_run_iff]
    simp [start, rejections]
  rw [← hrejected]
  obtain ⟨hplaced, hdone⟩ := run_start (inDegree_reorderGraph batch)
  refine ⟨hplaced.once, fun hposition => ?_⟩
  -- the run ends when no candidate is left
  have hleft : (emitPositions batch).isLeft idx = false := by
    unfold step at hdone
    split at hdone
    · cases hdone
    · split at hdone
      · cases hdone
      next hnone =>
        have hsettled := find?_eq_none.mp hnone idx
          (mem_reverse.mpr (mem_range.mpr hbound))
        exact Bool.eq_false_iff.mpr hsettled
  simpa [State.isLeft, hposition] using hleft

section Rejected

variable (xxh3 : List UInt8 → Nat) (epoch : Nat)

theorem rejected_eq (candidates : List AdmittedTx) :
    (validateBatchWithAssignments xxh3 epoch candidates).2.map (·.admitted) =
      ((candidates.mergeSort (sortKeyLe xxh3)).zipIdx.filter fun item =>
        item.2 ∈ rejections (flattenBatch (candidates.mergeSort (sortKeyLe xxh3)))).map
          Prod.fst := by
  rw [validateBatch_eq]
  dsimp only
  rw [rejectedOutput_eq]
  congr 1
  refine filter_congr fun item hitem => ?_
  have hbound : item.2 < (flattenBatch (candidates.mergeSort (sortKeyLe xxh3))).length := by
    rw [flattenBatch, List.length_map]
    exact (List.getElem?_eq_some_iff.mp (List.mem_zipIdx_iff_getElem?.mp hitem)).1
  rw [Bool.eq_iff_iff, decide_eq_true_iff, mem_rejections_iff hbound]
  simp

theorem adj_reorderGraph (sorted : List AdmittedTx) :
    (reorderGraph (flattenBatch sorted)).Adj = Precedes sorted :=
  funext₂ fun _ _ => propext mem_reorderGraph_iff_precedes

/-- Every candidate rejected is on a cycle of conflicts among those not rejected
before it exactly if every candidate that a cycle of candidates up to it
reaches is on such a cycle. -/
theorem rejected_on_cycle_iff (candidates : List AdmittedTx) :
    let sorted := candidates.mergeSort (sortKeyLe xxh3)
    let lost := rejections (flattenBatch sorted)
    (validateBatchWithAssignments xxh3 epoch candidates).2.map (·.admitted) =
        (sorted.zipIdx.filter fun item => item.2 ∈ lost).map Prod.fst ∧
      ((∀ gone idx rest, lost = gone ++ idx :: rest →
          OnCycle (Precedes sorted) {other | other ∉ gone} idx) ↔
        ∀ idx, BehindCycle (Precedes sorted) (Set.Iic idx) idx →
          OnCycle (Precedes sorted) (Set.Iic idx) idx) := by
  intro sorted lost
  refine ⟨rejected_eq xxh3 epoch candidates, ?_⟩
  have hcycles := onCycle_victims_iff (inDegree_reorderGraph (flattenBatch sorted))
  rwa [adj_reorderGraph] at hcycles

/-- A batch loses a candidate exactly if its conflicts have a cycle, and one
without a cycle is admitted whole. -/
theorem nothing_rejected_iff (candidates : List AdmittedTx) :
    let sorted := candidates.mergeSort (sortKeyLe xxh3)
    let validated := validateBatchWithAssignments xxh3 epoch candidates
    (validated.2 = [] ↔ ∀ idx, ¬ OnCycle (Precedes sorted) Set.univ idx) ∧
      ((∀ idx, ¬ OnCycle (Precedes sorted) Set.univ idx) →
        (validated.1.map fun entry => AdmittedTx.mk entry.1 entry.2.txClass).Perm
          candidates) := by
  intro sorted validated
  have hiff : validated.2 = [] ↔ ∀ idx, ¬ OnCycle (Precedes sorted) Set.univ idx := by
    have hlost := rejected_eq xxh3 epoch candidates
    obtain ⟨hall, hend⟩ := breaks_start (inDegree_reorderGraph (flattenBatch sorted))
    rw [← map_eq_nil_iff (f := (·.admitted)), hlost, map_eq_nil_iff, rejections,
      ← adj_reorderGraph]
    have hwhole : (Set.univ : Set Nat) = without [] := by simp [without]
    generalize victims _ _ _ = lost at *
    rcases lost with _ | ⟨first, rest⟩
    · refine iff_of_true (by simp) fun idx hcycle => hend idx ?_
      rw [hwhole] at hcycle
      exact ⟨idx, hcycle, .refl⟩
    · have hbehind := (hall.split (nil_append _).symm).2.1
      have hbound := hbehind.lt
      rw [flattenBatch, length_map] at hbound
      obtain ⟨member, hcycle, -⟩ := hbehind
      refine iff_of_false (ne_nil_of_mem (a := (sorted[first], first)) ?_) fun hnone =>
        hnone member (hwhole ▸ hcycle)
      exact mem_filter.mpr ⟨mk_mem_zipIdx_iff_getElem?.mpr (getElem?_eq_getElem hbound),
        decide_eq_true mem_cons_self⟩
  refine ⟨hiff, fun hacyclic => ?_⟩
  have hperm := outputs_perm xxh3 epoch candidates
  rwa [hiff.mpr hacyclic, map_nil, append_nil] at hperm

end Rejected

namespace Sample

/-- A candidate that reads and writes keys of one collection. -/
def candidate (inboxSeq : Nat) (reads writes : List (List UInt8)) : AdmittedTx :=
  { inboxSeq := inboxSeq,
    txClass :=
      { readSet := [.kv "c" reads],
        writeSet := [.kv "c" writes],
        plans := [],
        tenantId := 0,
        databaseId := 0,
        passiveVshards := [],
        lockOwner := none,
        multiPart := none } }

/-- The first two candidates exclude each other; the third writes what the
second reads. -/
def batch : List AdmittedTx :=
  [candidate 0 [[0]] [[1]], candidate 1 [[1], [2]] [[0]], candidate 2 [] [[2]]]

end Sample

/-- The third candidate waits for a cycle of the first two, and is rejected
first. -/
theorem rejected_behind_cycle :
    let sorted := Sample.batch.mergeSort (sortKeyLe fun _ => 0)
    (∃ rest, rejections (flattenBatch sorted) = 2 :: rest) ∧
      ¬ OnCycle (Precedes sorted) Set.univ 2 := by
  have hsorted : Sample.batch.mergeSort (sortKeyLe fun _ => 0) = Sample.batch :=
    mergeSort_of_pairwise (by decide +kernel)
  rw [hsorted]
  constructor
  · have hedge {node succ : Nat} (hnode : node ≤ 2) (hsucc : succ ≤ 2)
        (hout : succ ∈ (reorderGraph (flattenBatch Sample.batch)).out node) :
        Within (reorderGraph (flattenBatch Sample.batch)).Adj (Set.Iic 2) node succ :=
      ⟨hnode, hsucc, hout⟩
    have hthere : Within _ _ 0 1 := hedge (by decide) (by decide) (by decide +kernel)
    have hback : Within _ _ 1 0 := hedge (by decide) (by decide) (by decide +kernel)
    have hbehind : Within _ _ 1 2 := hedge (by decide) (by decide) (by decide +kernel)
    obtain ⟨hall, hend⟩ := breaks_start (inDegree_reorderGraph (flattenBatch Sample.batch))
    obtain ⟨before, after, hsplit, hbefore⟩ := hall.exists_split hend
      ⟨1, .head hback (.single hthere), .single hbehind⟩ [] _ rfl (by simp)
    cases before with
    | nil => exact ⟨after, hsplit⟩
    | cons first rest =>
      -- there is no candidate above the third
      have hfirst : _ = [] ++ first :: (rest ++ 2 :: after) := hsplit
      have hlt : first < 3 := (hall.split hfirst).2.1.lt
      have hgt := hbefore first mem_cons_self
      omega
  · intro hcycle
    obtain ⟨succ, hfirst, -⟩ := Relation.TransGen.head'_iff.mp hcycle
    have hnone : (reorderGraph (flattenBatch Sample.batch)).out 2 = [] := by decide +kernel
    have hout := mem_reorderGraph_iff_precedes.mpr hfirst.out
    rw [hnone] at hout
    cases hout

end NodeDB.Sequencer
