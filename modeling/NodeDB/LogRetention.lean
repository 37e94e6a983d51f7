import NodeDB.ArrayOpLog
import NodeDB.StepRuns

/-!
# No operation is lost to collection

In a run in which no operation arrives below the latest snapshot and no
replica that is new acknowledges below it, every operation that was appended
is in the log or in the latest snapshot, and a request is served all of them
from its clock on.
-/

namespace NodeDB.ArraySync

open Std KeyedFold ArrayEngine ByteFrame StepRuns List TreeMap Option Function AckVector Origin

section Runs

variable {ν : Type}

inductive Step (ν : Type) where
  | append (databaseId tenantId : Nat) (op : ArrayOp ν)
  | ack (scope : Scope) (replica : Nat) (hlc : Hlc)
  | gc (shuffle : Shuffle Scope)

def Origin.perform (origin : Origin ν) : Step ν → Origin ν
  | .append databaseId tenantId op => (origin.append databaseId tenantId op).1
  | .ack scope replica hlc => origin.record scope replica hlc
  | .gc shuffle => runGc shuffle origin

def Origin.run (steps : List (Step ν)) : Origin ν :=
  steps.foldl Origin.perform Origin.empty

def Step.Appends (scope : Scope) (op : ArrayOp ν) : Step ν → Prop
  | .append databaseId tenantId other =>
    other = op ∧ scopeOf databaseId tenantId op = scope ∧
      op.header.array.utf8ByteSize ≤ Origin.maxArrayNameBytes
  | _ => False

/-- An operation comes with a valid clock of its own, not below the latest snapshot; the
first acknowledgement of a replica is not below it either. -/
def Step.AboveSnapshot (origin : Origin ν) : Step ν → Prop
  | .append databaseId tenantId op =>
    let scope := scopeOf databaseId tenantId op
    op.header.hlc ≤ Hlc.top ∧
      (∀ snapshot ∈ origin.latestForArray scope, snapshot.snapshotHlc ≤ op.header.hlc) ∧
      ∀ stored ∈ (origin.opLog scope)[op.header.hlc]?, stored = op
  | .ack scope replica hlc =>
    ∀ snapshot ∈ origin.latestForArray scope,
      snapshot.snapshotHlc ≤ hlc ∨ replica ∈ origin.acks.getD scope ∅
  | .gc _ => True

instance [DecidableEq ν] (scope : Scope) (op : ArrayOp ν) (step : Step ν) :
    Decidable (step.Appends scope op) := by
  cases step <;> dsimp only [Step.Appends] <;> infer_instance

instance [DecidableEq ν] (origin : Origin ν) :
    (step : Step ν) → Decidable (step.AboveSnapshot origin)
  | .append databaseId tenantId op =>
    inferInstanceAs (Decidable (op.header.hlc ≤ Hlc.top ∧
      (∀ snapshot ∈ origin.latestForArray (scopeOf databaseId tenantId op),
        snapshot.snapshotHlc ≤ op.header.hlc) ∧
      ∀ stored ∈ (origin.opLog (scopeOf databaseId tenantId op))[op.header.hlc]?,
        stored = op))
  | .ack scope replica hlc =>
    inferInstanceAs (Decidable (∀ snapshot ∈ origin.latestForArray scope,
      snapshot.snapshotHlc ≤ hlc ∨ replica ∈ origin.acks.getD scope ∅))
  | .gc _ => isTrue trivial

/-! ## The stores -/

variable {vector : AckVector} {fromHlc : Hlc} {step : Step ν}

theorem AckVector.minAckHlc_eq_some {hlc : Hlc} (h : vector.minAckHlc = some hlc) :
    (∃ replica : Nat, vector[replica]? = some hlc) ∧
      ∀ (replica : Nat) (ack : Hlc), vector[replica]? = some ack → hlc ≤ ack := by
  obtain ⟨hmem, hmin⟩ := min?_eq_some_iff.mp h
  obtain ⟨⟨replica, ack⟩, hentry, hack⟩ := mem_map.mp hmem
  subst hack
  refine ⟨⟨replica, mem_toList_iff_getElem?_eq_some.mp hentry⟩, fun other ack' hother => ?_⟩
  exact hmin ack' (mem_map.mpr
    ⟨(other, ack'), mem_toList_iff_getElem?_eq_some.mpr hother, rfl⟩)

theorem AckVector.minAckHlc_eq_none (h : vector.minAckHlc = none) (replica : Nat) :
    vector[replica]? = none := by
  rw [minAckHlc, min?_eq_none_iff, map_eq_nil_iff] at h
  rw [eq_none_iff_forall_not_mem]
  intro ack hack
  have hmem := mem_toList_iff_getElem?_eq_some.mpr hack
  simp [h] at hmem

theorem minAckHlc_eq (origin : Origin ν) (scope : Scope) :
    origin.minAckHlc scope = (origin.acks.getD scope ∅).minAckHlc := by
  rw [Origin.minAckHlc, getD_eq_getD_getElem?]
  rcases origin.acks[scope]? with _ | vector
  · rfl
  · rfl

variable {origin : Origin ν} {scope : Scope} {op : ArrayOp ν} {logged : List (Step ν)}

theorem mem_scanRange {low high : Hlc}
    (hop : (origin.opLog scope)[op.header.hlc]? = some op) (hlow : low ≤ op.header.hlc)
    (hhigh : op.header.hlc ≤ high) : op ∈ origin.scanRange scope low high := by
  refine mem_map.mpr ⟨(op.header.hlc, op), mem_filter.mpr ⟨?_, ?_⟩, rfl⟩
  · exact mem_toList_iff_getElem?_eq_some.mpr hop
  · exact decide_eq_true ⟨hlow, hhigh⟩

theorem flatten_batchesFrom (pending ops : List (ArrayOp ν)) :
    (batchesFrom pending ops).flatten = pending ++ ops := by
  induction ops generalizing pending with
  | nil =>
    unfold batchesFrom
    split_ifs with hempty
    · simp [hempty]
    · simp
  | cons op rest ih =>
    unfold batchesFrom
    split_ifs
    · simp [ih]
    · simp [ih]

/-! ## What is kept of one array -/

/-- Every operation appended is in the log or in the latest snapshot below its clock. -/
structure Kept (scope : Scope) (past : List (Step ν)) (origin : Origin ν) : Prop where
  logged : ∀ (hlc : Hlc) (op : ArrayOp ν), (origin.opLog scope)[hlc]? = some op →
    op.header.hlc = hlc
  stored : ∀ (hlc : Hlc) (snapshot : TileSnapshot ν),
    (origin.snapshots scope)[hlc]? = some snapshot →
      snapshot.snapshotHlc = hlc ∧ snapshot.array = scope.array ∧
        snapshot.ops.Pairwise fun one other => one.header.hlc ≠ other.header.hlc
  acked : ∀ snapshot ∈ origin.latestForArray scope,
    (origin.minAckHlc scope).isSome ∧
      ∀ (replica : Nat) (ack : Hlc), (origin.acks.getD scope ∅)[replica]? = some ack →
        snapshot.snapshotHlc ≤ ack
  above : ∀ snapshot ∈ origin.latestForArray scope, ∀ (hlc : Hlc) (op : ArrayOp ν),
    (origin.opLog scope)[hlc]? = some op → snapshot.snapshotHlc ≤ hlc
  kept : ∀ op : ArrayOp ν, (∃ step ∈ past, step.Appends scope op) →
    op.header.hlc ≤ Hlc.top ∧
      ((origin.opLog scope)[op.header.hlc]? = some op ∨
        ∃ snapshot ∈ origin.latestForArray scope, op ∈ snapshot.ops ∧
          op.header.hlc < snapshot.snapshotHlc)

theorem latestForArray_empty (scope : Scope) :
    (Origin.empty : Origin ν).latestForArray scope = none := by
  have hnone : lastEntry (∅ : TreeMap Hlc (TileSnapshot ν)) = none :=
    lastEntry_eq_none_iff.mpr fun key => by simp
  rw [Origin.latestForArray, Origin.empty, hnone]
  rfl

theorem kept_empty (scope : Scope) : Kept scope [] (Origin.empty : Origin ν) where
  logged := by simp [Origin.empty]
  stored := by simp [Origin.empty]
  acked := by simp [latestForArray_empty]
  above := by simp [latestForArray_empty]
  kept := by simp

theorem Kept.mem_serve {past : List (Step ν)} (h : Kept scope past origin)
    (happended : ∃ step ∈ past, step.Appends scope op) (hfrom : fromHlc ≤ op.header.hlc) :
    op ∈ (serve origin scope fromHlc).ops := by
  obtain ⟨htop, hkept⟩ := h.kept op happended
  have hstream : ∀ low, low ≤ op.header.hlc →
      (origin.opLog scope)[op.header.hlc]? = some op →
      op ∈ (streamOps origin scope low).flatten := by
    intro low hlow hop
    rw [streamOps, flatten_batchesFrom]
    exact mem_scanRange hop hlow htop
  unfold serve
  dsimp only
  rcases hlatest : origin.latestForArray scope with _ | snapshot
  · -- nothing was collected yet
    rcases hkept with hop | ⟨snapshot, hsnapshot, _⟩
    · have hnone : ((origin.minAckHlc scope).filter fun boundary => decide (fromHlc < boundary)).bind
          (fun _ => (none : Option (TileSnapshot ν))) = none := by
        cases (origin.minAckHlc scope).filter fun boundary => decide (fromHlc < boundary) <;> rfl
      rw [hnone]
      simpa [Served.ops] using hstream fromHlc hfrom hop
    · simp [hlatest] at hsnapshot
  · obtain ⟨hsome, hfloor⟩ := h.acked snapshot hlatest
    obtain ⟨boundary, hboundary⟩ := isSome_iff_exists.mp hsome
    rw [hboundary]
    by_cases hbelow : fromHlc < boundary
    · -- the snapshot and what follows it
      simp only [filter_some, decide_eq_true hbelow, if_true, bind_some]
      rcases hkept with hop | ⟨other, hother, hmem, _⟩
      · have := hstream snapshot.snapshotHlc (h.above snapshot hlatest _ op hop) hop
        simp [Served.ops, this]
      · rw [hlatest, mem_some_iff] at hother
        subst hother
        simp [Served.ops, hmem]
    · simp only [filter_some, decide_eq_false hbelow]
      rcases hkept with hop | ⟨other, hother, _, hlt⟩
      · have := hstream fromHlc hfrom hop
        simp [Served.ops, this]
      · -- the boundary is not below the snapshot
        rw [hlatest, mem_some_iff] at hother
        subst hother
        rw [minAckHlc_eq] at hboundary
        obtain ⟨⟨replica, hreplica⟩, -⟩ := minAckHlc_eq_some hboundary
        have hle := hfloor replica boundary hreplica
        exact absurd ((hle.trans (le_of_not_gt hbelow)).trans hfrom) hlt.not_ge

/-! ## One step -/

section Steps

variable {scope : Scope} {past : List (Step ν)} {origin : Origin ν}

variable {other : Origin ν} {ops : TreeMap Hlc (ArrayOp ν)}

theorem latestForArray_congr (h : other.snapshots scope = origin.snapshots scope) :
    other.latestForArray scope = origin.latestForArray scope := by
  rw [Origin.latestForArray, Origin.latestForArray, h]

theorem Kept.frame (h : Kept scope past origin) {past' : List (Step ν)}
    (hpast : ∀ op, (∃ step ∈ past', step.Appends scope op) → ∃ step ∈ past, step.Appends scope op)
    (hlog : other.opLog scope = origin.opLog scope)
    (hsnapshots : other.snapshots scope = origin.snapshots scope)
    (hacks : other.acks.getD scope ∅ = origin.acks.getD scope ∅) : Kept scope past' other := by
  have hlatest := latestForArray_congr hsnapshots
  have hmin : other.minAckHlc scope = origin.minAckHlc scope := by
    rw [minAckHlc_eq, minAckHlc_eq, hacks]
  exact
    { logged := by rw [hlog]; exact h.logged
      stored := by rw [hsnapshots]; exact h.stored
      acked := by rw [hlatest, hmin, hacks]; exact h.acked
      above := by rw [hlatest, hlog]; exact h.above
      kept := fun op hop => by rw [hlog, hlatest]; exact h.kept op (hpast op hop) }

variable {op : ArrayOp ν} {databaseId tenantId : Nat} {hlc frontier : Hlc}
  {snapshot : TileSnapshot ν}

theorem exists_appends_append {step : Step ν}
    (h : ∃ other ∈ past ++ [step], other.Appends scope op) :
    (∃ other ∈ past, other.Appends scope op) ∨ step.Appends scope op := by
  obtain ⟨other, hmem, happends⟩ := h
  rcases mem_append.mp hmem with hmem | hmem
  · exact .inl ⟨other, hmem, happends⟩
  · exact .inr (mem_singleton.mp hmem ▸ happends)

theorem opLog_append (hshort : op.header.array.utf8ByteSize ≤ Origin.maxArrayNameBytes)
    (hsame : ∀ stored ∈ (origin.opLog (scopeOf databaseId tenantId op))[op.header.hlc]?,
      stored = op) {other : ArrayOp ν} :
    ((origin.append databaseId tenantId op).1.opLog scope)[hlc]? = some other ↔
      (origin.opLog scope)[hlc]? = some other ∨
        scope = scopeOf databaseId tenantId op ∧ hlc = op.header.hlc ∧ other = op := by
  rw [append, if_neg (Nat.not_lt.mpr hshort)]
  by_cases hscope : scope = scopeOf databaseId tenantId op
  · subst hscope
    simp only [true_and]
    change (Function.update origin.opLog (scopeOf databaseId tenantId op) _ _)[hlc]? = some other ↔ _
    rw [update_self]
    exact getElem?_insertIfNew_eq_some_iff hsame
  · simp only [hscope, false_and, or_false]
    change (Function.update origin.opLog (scopeOf databaseId tenantId op) _ _)[hlc]? = some other ↔ _
    rw [update_of_ne hscope]

theorem append_of_long (hlong : Origin.maxArrayNameBytes < op.header.array.utf8ByteSize) :
    (origin.append databaseId tenantId op).1 = origin := by
  rw [append, if_pos hlong]

theorem append_fields (origin : Origin ν) (databaseId tenantId : Nat) (op : ArrayOp ν) :
    (origin.append databaseId tenantId op).1.snapshots = origin.snapshots ∧
      (origin.append databaseId tenantId op).1.acks = origin.acks := by
  rw [append]
  split_ifs
  · exact ⟨rfl, rfl⟩
  · exact ⟨rfl, rfl⟩

theorem Kept.append (h : Kept scope past origin)
    (hok : (Step.append databaseId tenantId op).AboveSnapshot origin) :
    Kept scope (past ++ [.append databaseId tenantId op])
      (origin.append databaseId tenantId op).1 := by
  obtain ⟨htop, habove, hsame⟩ := hok
  rcases Nat.lt_or_ge maxArrayNameBytes op.header.array.utf8ByteSize with hlong | hshort
  · rw [append_of_long hlong]
    refine h.frame (fun other hother => ?_) rfl rfl rfl
    refine (exists_appends_append hother).resolve_right ?_
    rintro ⟨rfl, -, hshort⟩
    omega
  · obtain ⟨hsnapshots, hacks⟩ := append_fields origin databaseId tenantId op
    have hlatest : (origin.append databaseId tenantId op).1.latestForArray scope =
        origin.latestForArray scope := latestForArray_congr (by rw [hsnapshots])
    refine
      { logged := ?_
        stored := by rw [hsnapshots]; exact h.stored
        acked := by rw [hlatest, minAckHlc_eq, hacks, ← minAckHlc_eq]; exact h.acked
        above := ?_
        kept := ?_ }
    · intro hlc other hother
      rcases (opLog_append hshort hsame).mp hother with hother | ⟨-, rfl, rfl⟩
      · exact h.logged hlc other hother
      · rfl
    · rw [hlatest]
      intro snapshot hsnapshot hlc other hother
      rcases (opLog_append hshort hsame).mp hother with hother | ⟨rfl, rfl, -⟩
      · exact h.above snapshot hsnapshot hlc other hother
      · exact habove snapshot hsnapshot
    · rw [hlatest]
      intro other hother
      rcases exists_appends_append hother with hold | ⟨rfl, hscope, -⟩
      · refine (h.kept other hold).imp_right (Or.imp_left fun hin => ?_)
        exact (opLog_append hshort hsame).mpr (.inl hin)
      · exact ⟨htop, .inl ((opLog_append hshort hsame).mpr (.inr ⟨hscope.symm, rfl, rfl⟩))⟩

theorem Kept.ack (h : Kept scope past origin) {target : Scope} {replica : Nat}
    (hok : (Step.ack target replica hlc).AboveSnapshot origin) :
    Kept scope (past ++ [.ack target replica hlc]) (origin.record target replica hlc) := by
  have hpast : ∀ op, (∃ step ∈ past ++ [Step.ack target replica hlc], step.Appends scope op) →
      ∃ step ∈ past, step.Appends scope op := fun op hop =>
    (exists_appends_append hop).resolve_right id
  unfold Origin.record
  dsimp only
  split_ifs with hknown
  · exact h.frame hpast rfl rfl rfl
  · by_cases hscope : target = scope
    · -- a vector that only grows, or a new replica above the snapshot
      subst hscope
      have hvector : ∀ (other : Nat) (ack : Hlc),
          ((origin.acks.insert target ((origin.acks.getD target ∅).record replica hlc)).getD
              target ∅)[other]? = some ack ↔
            other = replica ∧ ack = max ((origin.acks.getD target ∅).getD replica Hlc.zero) hlc ∨
              other ≠ replica ∧ (origin.acks.getD target ∅)[other]? = some ack := by
        intro other ack
        rw [getD_insert_self]
        exact getElem?_insert_eq_some_iff
      refine { h with acked := ?_, kept := fun op hop => h.kept op (hpast op hop) }
      intro snapshot hlatest
      obtain ⟨-, hfloor⟩ := h.acked snapshot hlatest
      refine ⟨?_, fun other ack hack => ?_⟩
      · rw [minAckHlc_eq, isSome_iff_ne_none]
        intro hnone
        have habsent := minAckHlc_eq_none hnone replica
        have hpresent := (hvector replica _).mpr (.inl ⟨rfl, rfl⟩)
        rw [habsent] at hpresent
        cases hpresent
      · rcases (hvector other ack).mp hack with ⟨-, rfl⟩ | ⟨-, hack⟩
        · rcases hok snapshot hlatest with hle | hmem
          · exact hle.trans (le_max_right _ _)
          · obtain ⟨current, hcurrent⟩ := (mem_iff_exists _ _).mp hmem
            rw [getD_eq_getD_getElem?, hcurrent]
            exact (hfloor replica current hcurrent).trans (le_max_left _ _)
        · exact hfloor other ack hack
    · refine h.frame hpast rfl rfl ?_
      rw [getD_insert, if_neg]
      rw [LawfulEqOrd.compare_eq_iff_eq]
      exact hscope

/-! ## Collection -/

theorem carryPrior_ok {array : String} {latest : Option (TileSnapshot ν)}
    {coordRange : Option CoordRange} {schemaHlc : Hlc} {carried : List (ArrayOp ν)}
    (h : carryPrior array frontier latest = .ok (coordRange, schemaHlc, carried)) :
    carried = ((latest.map TileSnapshot.ops).getD []).filter
      fun op => op.header.hlc ≤ frontier := by
  rcases latest with _ | snapshot
  · cases h
    rfl
  · obtain ⟨-, -, h⟩ := bind_eq_ok.mp h
    obtain ⟨-, -, h⟩ := bind_eq_ok.mp h
    cases h
    rfl

def gathered (origin : Origin ν) (scope : Scope) (frontier : Hlc) : TreeMap Hlc (ArrayOp ν) :=
  insertOps
    (insertOps ∅ ((((origin.latestForArray scope).map TileSnapshot.ops).getD []).filter
      fun op => op.header.hlc ≤ frontier))
    (origin.scanRange scope Hlc.zero frontier)

theorem buildSnapshot_ok (h : buildSnapshotThroughFrontier origin scope frontier = .ok snapshot) :
    snapshot.array = scope.array ∧ snapshot.snapshotHlc = frontier ∧
      snapshot.ops = (gathered origin scope frontier).toList.map Prod.snd := by
  obtain ⟨⟨coordRange, schemaHlc, carried⟩, hcarry, h⟩ := bind_eq_ok.mp h
  obtain ⟨-, -, h⟩ := bind_eq_ok.mp h
  obtain ⟨-, -, h⟩ := bind_eq_ok.mp h
  obtain ⟨merged, -, h⟩ := bind_eq_ok.mp h
  cases merged with
  | none => cases h
  | some range =>
    cases h
    refine ⟨rfl, rfl, ?_⟩
    rw [carryPrior_ok hcarry]
    rfl

theorem mem_toList_map_snd : op ∈ ops.toList.map Prod.snd ↔ ∃ hlc : Hlc, ops[hlc]? = some op := by
  constructor
  · intro hop
    obtain ⟨⟨hlc, other⟩, hentry, rfl⟩ := mem_map.mp hop
    exact ⟨hlc, mem_toList_iff_getElem?_eq_some.mp hentry⟩
  · rintro ⟨hlc, hop⟩
    exact mem_map.mpr ⟨(hlc, op), mem_toList_iff_getElem?_eq_some.mpr hop, rfl⟩

theorem mem_scanRange_iff (h : Kept scope past origin) {low high : Hlc} :
    op ∈ origin.scanRange scope low high ↔
      (origin.opLog scope)[op.header.hlc]? = some op ∧ low ≤ op.header.hlc ∧
        op.header.hlc ≤ high := by
  constructor
  · intro hop
    obtain ⟨⟨hlc, other⟩, hentry, rfl⟩ := mem_map.mp hop
    obtain ⟨hentry, hrange⟩ := mem_filter.mp hentry
    have hother := mem_toList_iff_getElem?_eq_some.mp hentry
    have hhlc := h.logged hlc other hother
    subst hhlc
    exact ⟨hother, of_decide_eq_true hrange⟩
  · rintro ⟨hop, hlow, hhigh⟩
    exact mem_scanRange hop hlow hhigh

theorem pairwise_hlc
    (hown : ∀ (hlc : Hlc) (op : ArrayOp ν), ops[hlc]? = some op → op.header.hlc = hlc) :
    ops.toList.Pairwise fun one other => one.2.header.hlc ≠ other.2.header.hlc := by
  refine (pairwise_toList ops).imp_of_mem ?_
  rintro ⟨hlc, op⟩ ⟨hlc', op'⟩ hmem hmem' hlt
  have hone := hown hlc op (mem_toList_iff_getElem?_eq_some.mp hmem)
  have hother := hown hlc' op' (mem_toList_iff_getElem?_eq_some.mp hmem')
  exact fun heq => hlt.ne (hone.symm.trans (heq.trans hother))

theorem Kept.pairwise_scanRange (h : Kept scope past origin) (low high : Hlc) :
    (origin.scanRange scope low high).Pairwise
      fun one other => one.header.hlc ≠ other.header.hlc :=
  pairwise_map.mpr ((pairwise_hlc h.logged).filter _)

theorem gathered_hlc
    (h : (gathered origin scope frontier)[hlc]? = some op) : op.header.hlc = hlc := by
  rcases getElem?_foldl_insert_eq_some h with h | ⟨-, hhlc⟩
  · rcases getElem?_foldl_insert_eq_some h with h | ⟨-, hhlc⟩
    · simp at h
    · exact hhlc
  · exact hhlc

theorem pairwise_gathered : ((gathered origin scope frontier).toList.map Prod.snd).Pairwise
      fun one other => one.header.hlc ≠ other.header.hlc :=
  pairwise_map.mpr (pairwise_hlc fun _ _ => gathered_hlc)

theorem Kept.gathered_of_logged (h : Kept scope past origin)
    (hop : (origin.opLog scope)[op.header.hlc]? = some op) (hle : op.header.hlc ≤ frontier) :
    (gathered origin scope frontier)[op.header.hlc]? = some op :=
  getElem?_foldl_insert_of_mem (fun op : ArrayOp ν => op.header.hlc) _
    (h.pairwise_scanRange Hlc.zero frontier) (mem_scanRange hop (Hlc.zero_le _) hle)

theorem latest_mem (h : snapshot ∈ origin.latestForArray scope) :
    ∃ hlc : Hlc, (origin.snapshots scope)[hlc]? = some snapshot ∧
      ∀ (other : Hlc) (held : TileSnapshot ν), (origin.snapshots scope)[other]? = some held →
        other ≤ hlc := by
  obtain ⟨hlast, -⟩ := filter_eq_some_iff.mp h
  obtain ⟨⟨hlc, held⟩, hentry, hheld⟩ := map_eq_some_iff.mp hlast
  subst hheld
  exact ⟨hlc, lastEntry_eq_some_iff.mp hentry⟩

section

variable (h : Kept scope past origin)
include h

theorem Kept.gathered_of_stored (hlatest : snapshot ∈ origin.latestForArray scope)
    (hfrontier : snapshot.snapshotHlc ≤ frontier) (hop : op ∈ snapshot.ops)
    (hlt : op.header.hlc < snapshot.snapshotHlc) :
    (gathered origin scope frontier)[op.header.hlc]? = some op := by
  obtain ⟨hlc, hstored, -⟩ := latest_mem hlatest
  obtain ⟨-, -, hdistinct⟩ := h.stored hlc snapshot hstored
  rw [gathered, insertOps, getElem?_foldl_insert_of_notMem]
  · rw [hlatest]
    exact getElem?_foldl_insert_of_mem (fun op : ArrayOp ν => op.header.hlc) _
      (hdistinct.filter _) (mem_filter.mpr
        ⟨hop, decide_eq_true (hlt.le.trans hfrontier)⟩)
  · -- the log begins at the snapshot
    intro logged hlogged heq
    obtain ⟨hin, -, -⟩ := (mem_scanRange_iff h).mp hlogged
    exact (h.above snapshot hlatest _ logged hin).not_gt (heq ▸ hlt)

section

variable (hfrontier : (origin.acks.getD scope ∅).minAckHlc = some frontier)
include hfrontier

theorem Kept.stored_le (hstored : (origin.snapshots scope)[hlc]? = some snapshot) :
    hlc ≤ frontier := by
  rcases hlast : lastEntry (origin.snapshots scope) with _ | ⟨last, latest⟩
  · rw [lastEntry_eq_none_iff] at hlast
    simp [hlast] at hstored
  · obtain ⟨hlatest, hmax⟩ := lastEntry_eq_some_iff.mp hlast
    obtain ⟨hclock, harray, -⟩ := h.stored last latest hlatest
    have hmem : latest ∈ origin.latestForArray scope := by
      rw [Origin.latestForArray, hlast]
      exact filter_eq_some_iff.mpr ⟨rfl, decide_eq_true harray⟩
    obtain ⟨⟨replica, hreplica⟩, -⟩ := minAckHlc_eq_some hfrontier
    have hfloor := (h.acked latest hmem).2 replica frontier hreplica
    exact (hmax hlc snapshot hstored).trans (hclock ▸ hfloor)

theorem Kept.latest_le
    (hlatest : snapshot ∈ origin.latestForArray scope) : snapshot.snapshotHlc ≤ frontier := by
  obtain ⟨hlc, hstored, -⟩ := latest_mem hlatest
  rw [(h.stored hlc snapshot hstored).1]
  exact h.stored_le hfrontier hstored

theorem Kept.collect (hbuilt : buildSnapshotThroughFrontier origin scope frontier = .ok snapshot) :
    Kept scope past (((origin.putSnapshot scope snapshot).dropArrayBelow scope
      frontier).deleteOlderThan scope frontier) := by
  obtain ⟨harray, hclock, hops⟩ := buildSnapshot_ok hbuilt
  subst hclock
  set after := ((origin.putSnapshot scope snapshot).dropArrayBelow scope
    snapshot.snapshotHlc).deleteOlderThan scope snapshot.snapshotHlc with hafter
  have hlog : ∀ (hlc : Hlc) (op : ArrayOp ν), (after.opLog scope)[hlc]? = some op ↔
      (origin.opLog scope)[hlc]? = some op ∧ snapshot.snapshotHlc ≤ hlc := by
    intro hlc op
    simp only [hafter, deleteOlderThan, dropArrayBelow, putSnapshot,
      update_self, getElem?_filter_eq_some_iff, decide_eq_true_eq]
    exact and_congr_right fun _ => Std.not_lt
  have hsnapshots : ∀ (hlc : Hlc) (held : TileSnapshot ν),
      (after.snapshots scope)[hlc]? = some held ↔
        hlc = snapshot.snapshotHlc ∧ held = snapshot := by
    intro hlc held
    simp only [hafter, deleteOlderThan, dropArrayBelow, putSnapshot,
      update_self, getElem?_filter_eq_some_iff, getElem?_insert_eq_some_iff,
      decide_eq_true_eq]
    constructor
    · rintro ⟨⟨hkey, hheld⟩ | ⟨hne, hold⟩, hge⟩
      · exact ⟨hkey, hheld⟩
      · -- an older snapshot lies below the frontier
        exact absurd ((h.stored_le hfrontier hold).lt_of_ne hne) hge
    · rintro ⟨rfl, rfl⟩
      exact ⟨.inl ⟨rfl, rfl⟩, lt_irrefl _⟩
  have hlatest : after.latestForArray scope = some snapshot := by
    have hlast : lastEntry (after.snapshots scope) = some (snapshot.snapshotHlc, snapshot) :=
      lastEntry_eq_some_iff.mpr ⟨(hsnapshots _ _).mpr ⟨rfl, rfl⟩,
        fun other held hheld => ((hsnapshots other held).mp hheld).1.le⟩
    rw [Origin.latestForArray, hlast]
    exact filter_eq_some_iff.mpr ⟨rfl, decide_eq_true harray⟩
  obtain ⟨⟨replica, hreplica⟩, hmin⟩ := minAckHlc_eq_some hfrontier
  refine
    { logged := fun hlc op hop => h.logged hlc op ((hlog hlc op).mp hop).1
      stored := ?_
      acked := ?_
      above := ?_
      kept := ?_ }
  · intro hlc held hheld
    obtain ⟨rfl, rfl⟩ := (hsnapshots hlc held).mp hheld
    exact ⟨rfl, harray, hops ▸ pairwise_gathered⟩
  · intro held hheld
    rw [hlatest, mem_some_iff] at hheld
    subst hheld
    refine ⟨?_, hmin⟩
    rw [minAckHlc_eq, isSome_iff_exists]
    exact ⟨_, hfrontier⟩
  · intro held hheld hlc op hop
    rw [hlatest, mem_some_iff] at hheld
    subst hheld
    exact ((hlog hlc op).mp hop).2
  · intro op hop
    refine (h.kept op hop).imp_right fun hkept => ?_
    rw [hlatest]
    by_cases hbelow : op.header.hlc < snapshot.snapshotHlc
    · -- what is dropped is in the snapshot
      refine .inr ⟨snapshot, rfl, ?_, hbelow⟩
      rw [hops, mem_toList_map_snd]
      refine ⟨op.header.hlc, ?_⟩
      rcases hkept with hin | ⟨old, hold, hmem, hlt⟩
      · exact h.gathered_of_logged hin hbelow.le
      · exact h.gathered_of_stored hold (h.latest_le hfrontier hold) hmem hlt
    · rcases hkept with hin | ⟨old, hold, hmem, hlt⟩
      · exact .inl ((hlog _ op).mpr ⟨hin, le_of_not_gt hbelow⟩)
      · exact absurd (hlt.trans_le (h.latest_le hfrontier hold)) hbelow

end

theorem Kept.gcScope (target : Scope) : Kept scope past (gcScope origin target) := by
  unfold ArraySync.gcScope
  split
  · exact h
  · rename_i frontier hfrontier
    split
    · exact h
    · rename_i snapshot hbuilt
      by_cases hscope : scope = target
      · subst hscope
        exact h.collect hfrontier hbuilt
      · exact h.frame (fun _ => id) (update_of_ne hscope _ _)
          ((update_of_ne hscope _ _).trans (update_of_ne hscope _ _)) rfl

theorem Kept.runGc (shuffle : Shuffle Scope) :
    Kept scope (past ++ [.gc shuffle]) (runGc shuffle origin) := by
  have hfold : Kept scope past (ArraySync.runGc shuffle origin) :=
    invariant_foldl (Kept scope past) (fun _ target hkept _ => hkept.gcScope target) h
      (along_of_forall _ (fun _ _ => trivial) _)
  exact hfold.frame (fun op hop => (exists_appends_append hop).resolve_right id) rfl rfl rfl

theorem Kept.perform {step : Step ν} (hok : step.AboveSnapshot origin) :
    Kept scope (past ++ [step]) (origin.perform step) := by
  cases step with
  | append databaseId tenantId op => exact h.append hok
  | ack target replica hlc => exact h.ack hok
  | gc shuffle => exact h.runGc shuffle

end

end Steps

/-- In every run in which operations and new replicas come above the latest snapshot, a
request from any clock is served every operation from that clock on. -/
theorem serve_complete {steps : List (Step ν)}
    (halong : Along Origin.perform (fun origin step => step.AboveSnapshot origin)
      Origin.empty steps)
    {scope : Scope} {op : ArrayOp ν} (happended : ∃ step ∈ steps, step.Appends scope op)
    {fromHlc : Hlc} (hfrom : fromHlc ≤ op.header.hlc) :
    op ∈ (serve (Origin.run steps) scope fromHlc).ops :=
  (history_foldl (Kept scope) (fun _ _ _ h hok => h.perform hok) (kept_empty scope)
    halong).mem_serve happended hfrom

/-! ## Before any collection -/

/-- Operations with valid clocks of their own, of which nothing has been collected. -/
structure Uncollected (logged : List (Step ν)) : Prop where
  kept : ∀ shuffle, .gc shuffle ∉ logged
  valid : ∀ databaseId tenantId op, .append databaseId tenantId op ∈ logged →
    op.header.hlc ≤ Hlc.top
  distinct : ∀ databaseId tenantId one other, .append databaseId tenantId one ∈ logged →
    .append databaseId tenantId other ∈ logged → one.header.array = other.header.array →
      one.header.hlc = other.header.hlc → one = other

/-- All that is in the log was appended, and there is no snapshot. -/
structure OnlyLogged (logged : List (Step ν)) (origin : Origin ν) : Prop where
  snapshots : ∀ scope, origin.latestForArray scope = none
  appended : ∀ databaseId tenantId array (hlc : Hlc) (op : ArrayOp ν),
    (origin.opLog ⟨databaseId, tenantId, array⟩)[hlc]? = some op →
      op.header.hlc = hlc ∧ op.header.array = array ∧ .append databaseId tenantId op ∈ logged

theorem OnlyLogged.aboveSnapshot (hlogged : Uncollected logged) (h : OnlyLogged logged origin)
    (hstep : step ∈ logged) : step.AboveSnapshot origin := by
  cases step with
  | append databaseId tenantId op =>
    refine ⟨hlogged.valid databaseId tenantId op hstep, ?_, fun stored hstored => ?_⟩
    · simp [h.snapshots]
    · obtain ⟨hhlc, harray, hother⟩ := h.appended _ _ _ _ stored hstored
      exact hlogged.distinct databaseId tenantId stored op hother hstep harray hhlc
  | ack scope replica hlc => simp [Step.AboveSnapshot, h.snapshots]
  | gc shuffle => trivial

theorem OnlyLogged.perform (hlogged : Uncollected logged) (h : OnlyLogged logged origin)
    (hstep : step ∈ logged) : OnlyLogged logged (origin.perform step) := by
  cases step with
  | append databaseId tenantId op =>
    have hsame := (h.aboveSnapshot hlogged hstep).2.2
    rcases Nat.lt_or_ge maxArrayNameBytes op.header.array.utf8ByteSize with hlong | hshort
    · rw [Origin.perform, append_of_long hlong]
      exact h
    · refine { snapshots := fun scope => ?_, appended := ?_ }
      · have hsnapshots := (append_fields origin databaseId tenantId op).1
        exact (latestForArray_congr (by rw [Origin.perform, hsnapshots])).trans (h.snapshots scope)
      · intro database tenant array hlc stored hstored
        rcases (opLog_append hshort hsame).mp hstored with hold | ⟨hscope, rfl, rfl⟩
        · exact h.appended database tenant array hlc stored hold
        · obtain ⟨rfl, rfl, rfl⟩ := Scope.mk.inj hscope
          exact ⟨rfl, rfl, hstep⟩
  | ack scope replica hlc =>
    simp only [Origin.perform, Origin.record]
    split_ifs
    · exact h
    · exact { snapshots := h.snapshots, appended := h.appended }
  | gc shuffle => exact absurd hstep (hlogged.kept shuffle)

theorem Uncollected.mem_serve (hlogged : Uncollected logged)
    (happended : ∃ step ∈ logged, step.Appends scope op) (hfrom : fromHlc ≤ op.header.hlc) :
    op ∈ (serve (Origin.run logged) scope fromHlc).ops := by
  have hrun := history_foldl
    (fun past origin => Kept scope past origin ∧ OnlyLogged logged origin)
    (fun past origin step h hstep => ⟨h.1.perform (h.2.aboveSnapshot hlogged hstep),
      h.2.perform hlogged hstep⟩)
    ⟨kept_empty scope, { snapshots := latestForArray_empty, appended := by simp [Origin.empty] }⟩
    (along_of_forall Origin.perform (fun _ => id) Origin.empty)
  exact hrun.1.mem_serve happended hfrom

end Runs

/-! ## Runs of one array -/

namespace Sample

def clock (physicalMs : UInt64) : Hlc where
  physicalMs := physicalMs
  logical := 0
  replicaId := 1

def putAt (physicalMs : UInt64) : ArrayOp Nat where
  header :=
    { array := "a"
      hlc := clock physicalMs
      schemaHlc := Hlc.zero
      validFromMs := 0
      validUntilMs := openUpper
      systemFromMs := 0 }
  kind := .put
  coord := [.int64 0]
  attrs := some [7]

def scopeA : Scope where
  databaseId := 0
  tenantId := 0
  array := "a"

def inOrder : Shuffle Scope where
  order := id
  perm := fun _ => .rfl

/-- The operation was collected at 100; a replica first heard of afterwards acknowledges 50
and lowers the boundary, so a request from 60 is streamed a log that no longer has it. -/
def lateReplica : List (Step Nat) :=
  [.append 0 0 (putAt 60), .ack scopeA 1 (clock 100), .gc inOrder, .ack scopeA 2 (clock 50)]

def knownReplicas : List (Step Nat) :=
  [.append 0 0 (putAt 60), .append 0 0 (putAt 100), .ack scopeA 2 (clock 50),
    .ack scopeA 1 (clock 100), .gc inOrder, .ack scopeA 2 (clock 90), .gc inOrder,
    .append 0 0 (putAt 90)]

end Sample

open Sample in
/-- The operation the request asks for is not among those served. -/
theorem lateReplica_loses :
    (∃ step ∈ lateReplica, step.Appends scopeA (putAt 60)) ∧
      clock 60 ≤ (putAt 60).header.hlc ∧
      putAt 60 ∉ (serve (Origin.run lateReplica) scopeA (clock 60)).ops := by
  decide +kernel

open Sample in
/-- Both replicas acknowledged before the log was collected. -/
theorem serve_complete_collected :
    (serve (Origin.run knownReplicas) scopeA (clock 60)).snapshot.isSome ∧
      putAt 60 ∈ (serve (Origin.run knownReplicas) scopeA (clock 60)).ops :=
  ⟨by decide +kernel, serve_complete (by decide +kernel) (by decide +kernel) le_rfl⟩

end NodeDB.ArraySync
