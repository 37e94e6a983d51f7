import NodeDB.RowIndex

/-!
# One live row per primary key

A batch that fails is undone, and then the index and the bitmaps are what they
were.  With the single writes and the flush this keeps the live rows and the
index in agreement in every state.  The index keys a row by the values it was
given, while the column may store another form of a value.  Two live rows then
read equal keys only if two forms of one stored value have different key
bytes.
-/

namespace NodeDB.Columnar

open Std KeyedFold StepRuns List

variable {runtime : Runtime} {schema : ColumnarSchema} {written : List Value → Prop}

/-! ## Batches -/

/-- Rows the condition allows: each is one of the rows written, and the memtable has room for
all of them. -/
structure RowsAllowed (runtime : Runtime) (written : List Value → Prop)
    (memtable : ColumnarMemtable) (rows : List (List Value)) : Prop where
  written : ∀ row ∈ rows, written row
  count : memtable.rowCount + rows.length < 2 ^ 32
  bytes : ∀ (index : Nat) (column : ColumnDef) (data : ColumnData),
    memtable.schema.columns[index]? = some column → memtable.columns[index]? = some data →
      data.dataLength + ((rows.filterMap (·[index]?)).map (cellBytes runtime column)).sum < 2 ^ 32

section Rows

variable {memtable next : ColumnarMemtable} {rows : List (List Value)}

theorem RowsAllowed.head {store : Store}
    (h : RowsAllowed runtime written store.engine.memtable (row :: rows)) :
    RowAllowed runtime written store row where
  written := h.written row mem_cons_self
  room := by
    intro index column value data hcolumn hvalue hdata
    have hbytes := h.bytes index column data hcolumn hdata
    simp only [List.filterMap_cons, hvalue, List.map_cons, List.sum_cons] at hbytes
    omega
  count := by
    have hcount := h.count
    rw [List.length_cons] at hcount
    omega

theorem RowsAllowed.tail (h : RowsAllowed runtime written memtable (row :: rows)) :
    RowsAllowed runtime written memtable rows where
  written other hother := h.written other (List.mem_cons_of_mem _ hother)
  count := by
    have hcount := h.count
    rw [List.length_cons] at hcount
    omega
  bytes := by
    intro index column data hcolumn hdata
    have hbytes := h.bytes index column data hcolumn hdata
    rw [List.filterMap_cons] at hbytes
    split at hbytes
    · exact hbytes
    · rw [List.map_cons, List.sum_cons] at hbytes
      omega

theorem RowsAllowed.appended (h : RowsAllowed runtime written memtable (row :: rows))
    (hsound : memtable.Sound) (hlength : row.length = memtable.schema.columns.length)
    (hschema : next.schema = memtable.schema) (hcount : next.rowCount = memtable.rowCount + 1)
    (hrow : RowAppended runtime memtable.rowCount memtable.schema.columns row memtable.columns
      next.columns) : RowsAllowed runtime written next rows where
  written other hother := h.written other (List.mem_cons_of_mem _ hother)
  count := by
    have hall := h.count
    rw [List.length_cons] at hall
    omega
  bytes := by
    intro index column data hcolumn hdata
    rw [hschema] at hcolumn
    have hindex := (List.getElem?_eq_some_iff.mp hcolumn).1
    have hheld : index < memtable.columns.length := hsound.length_eq ▸ hindex
    have hvalue : row[index]? = some (row[index]) := List.getElem?_eq_getElem (hlength ▸ hindex)
    obtain ⟨after, hafter, hbytes, _⟩ := hrow.cells index column _ _ hcolumn hvalue
      (List.getElem?_eq_getElem hheld)
    obtain rfl : data = after := Option.some.inj (hdata.symm.trans hafter)
    have hall := h.bytes index column _ hcolumn (List.getElem?_eq_getElem hheld)
    simp only [List.filterMap_cons, hvalue, List.map_cons, List.sum_cons] at hall
    omega

end Rows

namespace MutationEngine

/-- What a batch has done since `start`: which keys it rebound, and which rows it marked of
those that were there. -/
structure Batched (runtime : Runtime) (schema : ColumnarSchema)
    (written : List Value → Prop) (segments : TreeMap Nat Segment) (start : MutationEngine)
    (priors : Priors)
    (current : MutationEngine) : Prop where
  indexed : Indexed runtime schema written { engine := current, segments := segments }
  schema : current.schema = start.schema
  pkColIndices : current.pkColIndices = start.pkColIndices
  memtableSegmentId : current.memtableSegmentId = start.memtableSegmentId
  nextSegmentId : current.nextSegmentId = start.nextSegmentId
  memtableSchema : current.memtable.schema = start.memtable.schema
  rows : start.memtable.rowCount ≤ current.memtable.rowCount
  cut : current.memtable.columns.map (·.truncate start.memtable.rowCount) = start.memtable.columns
  index : ∀ key : Bytes, priors[key]? = none → current.pkIndex[key]? = start.pkIndex[key]?
  prior : ∀ (key : Bytes) (prior : PriorBinding), priors[key]? = some prior →
    prior.location = start.pkIndex[key]? ∧ prior.tombstoned = prior.location.isSome ∧
      ∃ row, start.memtable.rowCount ≤ row ∧
        current.pkIndex[key]? = some { segmentId := start.memtableSegmentId, rowIndex := row }
  deleted : ∀ location,
    (location.segmentId = start.memtableSegmentId →
      location.rowIndex < start.memtable.rowCount) →
    (current.isDeleted location = true ↔ start.isDeleted location = true ∨
      ∃ key : Bytes, key ∈ priors ∧ start.pkIndex[key]? = some location)

theorem batched_refl {segments : TreeMap Nat Segment} {start : MutationEngine}
    (hindexed : Indexed runtime schema written { engine := start, segments := segments }) :
    Batched runtime schema written segments start ∅ start where
  indexed := hindexed
  schema := rfl
  pkColIndices := rfl
  memtableSegmentId := rfl
  nextSegmentId := rfl
  memtableSchema := rfl
  rows := le_rfl
  cut := hindexed.sound.truncate_self
  index _ _ := rfl
  prior key prior h := by simp at h
  deleted location _ := by simp

section Batch

variable {segments : TreeMap Nat Segment} {start current next : MutationEngine} {priors : Priors}
  {row : BatchRow} {rows : List BatchRow} {conflict : BatchConflict}

theorem Batched.rebound {key : Bytes}
    (h : Batched runtime schema written segments start priors current)
    (hrebound : Rebound runtime current row.values key [] next)
    (hindexed : Indexed runtime schema written { engine := next, segments := segments }) :
    Batched runtime schema written segments start
      (priors.insertIfNew key
        { location := current.pkIndex[key]?, tombstoned := (current.pkIndex[key]?).isSome })
      next where
  indexed := hindexed
  schema := hrebound.schema.trans h.schema
  pkColIndices := hrebound.pkColIndices.trans h.pkColIndices
  memtableSegmentId := hrebound.memtableSegmentId.trans h.memtableSegmentId
  nextSegmentId := hrebound.nextSegmentId.trans h.nextSegmentId
  memtableSchema := hrebound.memtableSchema.trans h.memtableSchema
  rows := by
    rw [hrebound.rowCount]
    exact Nat.le_succ_of_le h.rows
  cut := (hrebound.row.cut h.rows).trans h.cut
  index := by
    intro other hnone
    rw [getElem?_insertIfNew] at hnone
    split_ifs at hnone with hnew
    have hne : other ≠ key := by
      rintro rfl
      exact hnew ⟨rfl, hnone⟩
    rw [hrebound.index, if_neg hne, if_neg not_mem_nil, h.index other hnone]
  prior := by
    intro other prior hprior
    rw [getElem?_insertIfNew] at hprior
    by_cases hkey : other = key
    · subst hkey
      refine (and_assoc.mp ⟨?_, current.memtableRowCounter, ?_, ?_⟩)
      · split_ifs at hprior with hnew
        · obtain rfl := Option.some.inj hprior
          exact ⟨h.index other hnew.2, rfl⟩
        · obtain ⟨hlocation, htombstoned, _⟩ := h.prior other prior hprior
          exact ⟨hlocation, htombstoned⟩
      · rw [h.indexed.counter]
        exact h.rows
      · rw [hrebound.index, if_pos rfl, h.memtableSegmentId]
    · rw [if_neg (fun hnew => hkey hnew.1)] at hprior
      rw [hrebound.index, if_neg hkey, if_neg not_mem_nil]
      exact h.prior other prior hprior
  deleted := by
    intro location hbefore
    have hmem : ∀ other, other ∈ priors.insertIfNew key
        { location := current.pkIndex[key]?, tombstoned := (current.pkIndex[key]?).isSome } ↔
        other ∈ priors ∨ other = key := by
      intro other
      rw [TreeMap.mem_insertIfNew, Std.LawfulEqOrd.compare_eq_iff_eq, or_comm, eq_comm]
    simp only [hrebound.deleted, h.deleted location hbefore, hmem, not_mem_nil, or_false,
      or_assoc, or_and_right, exists_or, exists_eq_left]
    refine or_congr_right ?_
    -- the row bound to the key is one that was there before the batch, or the key is known
    cases hprior : priors[key]? with
    | none => rw [h.index key hprior]
    | some prior =>
      obtain ⟨hlocation, _, row, hrow, hbound⟩ := h.prior key prior hprior
      have hmem : key ∈ priors := (mem_iff_exists priors key).mpr ⟨prior, hprior⟩
      rw [hbound]
      constructor
      · rintro (hold | hnew)
        · exact .inl hold
        · obtain rfl := Option.some.inj hnew
          exact absurd (hbefore rfl) hrow.not_gt
      · rintro (hold | hnew)
        · exact .inl hold
        · exact .inl ⟨key, hmem, hnew⟩

theorem Batched.insertBatchRow {nextPriors : Priors} {result : Except ColumnarError MutationResult}
    (h : Batched runtime schema written segments start priors current)
    (hflat : start.schema.isBitemporal = false)
    (hallowed : RowsAllowed runtime written current.memtable (row.values :: rows.map (·.values)))
    (hstep : current.insertBatchRow runtime row conflict priors = (next, nextPriors, result)) :
    Batched runtime schema written segments start nextPriors next ∧
      (∀ records, result = .ok records →
        RowsAllowed runtime written next.memtable (rows.map (·.values))) := by
  have hhead : RowAllowed runtime written { engine := current, segments := segments } row.values :=
    hallowed.head
  have hcurrent : current.schema.isBitemporal = false := h.schema ▸ hflat
  unfold MutationEngine.insertBatchRow at hstep
  split at hstep
  · obtain ⟨rfl, rfl, rfl⟩ := hstep
    exact ⟨h, by simp⟩
  · rename_i pkBytes hextract
    obtain ⟨hlength, hkey⟩ := extractPkBytes_ok hextract
    simp only [hcurrent, Bool.false_eq_true, if_false] at hstep
    split_ifs at hstep
    · obtain ⟨rfl, rfl, rfl⟩ := hstep
      exact ⟨h, fun _ _ => hallowed.tail⟩
    · split at hstep
      · rename_i refused error hcommit
        obtain ⟨rfl, rfl, rfl⟩ := hstep
        rw [commitRow_error h.indexed.sound hhead.room hcommit]
        exact ⟨h, by simp⟩
      · rename_i committed records hcommit
        obtain ⟨rfl, rfl, rfl⟩ := hstep
        have hrebound : Rebound runtime current row.values pkBytes [] next :=
          @commitRow_ok _ _ _ _ _ _ _ _ h.indexed.sound hhead.room hcommit [] (by simp) (by simp)
        refine ⟨h.rebound hrebound (h.indexed.rebound hrebound hhead.written hlength hkey
          hhead.count), fun _ _ => ?_⟩
        exact hallowed.appended h.indexed.sound (h.indexed.schema ▸ hlength)
          hrebound.memtableSchema hrebound.rowCount hrebound.row

theorem restoreBinding_eq (entry : Bytes × PriorBinding) :
    ∃ bitmaps, current.restoreBinding entry =
        { current with
          pkIndex := current.pkIndex.alter entry.1 fun _ => entry.2.location
          deleteBitmaps := bitmaps } ∧
      ∀ location, isDeleted { current with deleteBitmaps := bitmaps } location = true ↔
        current.isDeleted location = true ∧
          (entry.2.tombstoned = true → entry.2.location ≠ some location) := by
  obtain ⟨key, location, tombstoned⟩ := entry
  cases location with
  | none => exact ⟨current.deleteBitmaps, rfl, by simp⟩
  | some bound =>
    cases tombstoned with
    | false => exact ⟨current.deleteBitmaps, rfl, by simp⟩
    | true =>
      have heq : current.unmarkDeleted bound =
          { current with deleteBitmaps := (current.unmarkDeleted bound).deleteBitmaps } := by
        unfold unmarkDeleted
        split <;> rfl
      refine ⟨(current.unmarkDeleted bound).deleteBitmaps, ?_, fun location => ?_⟩
      · simp only [restoreBinding, if_true]
        rw [heq]
      · rw [← heq, isDeleted_unmarkDeleted]
        exact and_congr_right fun _ => by simpa using ne_comm

theorem foldl_restoreBinding (entries : List (Bytes × PriorBinding)) :
    ∃ bitmaps, entries.foldl restoreBinding current =
        { current with
          pkIndex := entries.foldl
            (fun index entry => index.alter entry.1 fun _ => entry.2.location)
            current.pkIndex
          deleteBitmaps := bitmaps } ∧
      ∀ location, isDeleted { current with deleteBitmaps := bitmaps } location = true ↔
        current.isDeleted location = true ∧
          ∀ entry ∈ entries, entry.2.tombstoned = true → entry.2.location ≠ some location := by
  induction entries generalizing current with
  | nil => exact ⟨current.deleteBitmaps, rfl, by simp⟩
  | cons entry rest ih =>
    obtain ⟨first, hfirst, hunmarked⟩ := @restoreBinding_eq current entry
    obtain ⟨bitmaps, hrest, hdeleted⟩ := @ih (current.restoreBinding entry)
    refine ⟨bitmaps, ?_, fun location => ?_⟩
    · rw [foldl_cons, hrest, hfirst]
      rfl
    · rw [forall_mem_cons, ← and_assoc, ← hunmarked location]
      rw [hfirst] at hdeleted
      exact hdeleted location

theorem isDeleted_cutMemtableTo {n : Nat} {location : RowLocation} :
    (current.cutMemtableTo n).isDeleted location = true ↔
      current.isDeleted location = true ∧
        (location.segmentId = current.memtableSegmentId → location.rowIndex < n) := by
  obtain ⟨segment, row⟩ := location
  simp only [isDeleted_iff, cutMemtableTo]
  cases hheld : current.deleteBitmaps[current.memtableSegmentId]? with
  | none =>
    by_cases hsegment : segment = current.memtableSegmentId
    · simp [hsegment, hheld]
    · simp [hsegment]
  | some bitmap =>
    simp only [getElem?_insert_eq_some_iff]
    by_cases hsegment : segment = current.memtableSegmentId
    · simp [hsegment, hheld]
    · simp [hsegment]

theorem truncateTo_of_cut {memtable origin : ColumnarMemtable} (hsound : memtable.Sound)
    (hschema : memtable.schema = origin.schema) (hrows : origin.rowCount ≤ memtable.rowCount)
    (hcut : memtable.columns.map (·.truncate origin.rowCount) = origin.columns) :
    memtable.truncateTo origin.rowCount = origin := by
  obtain ⟨schema, columns, rowCount⟩ := memtable
  obtain ⟨schema', columns', rowCount'⟩ := origin
  simp only [ColumnarMemtable.truncateTo] at hcut hschema hrows ⊢
  subst hschema
  split
  · rename_i hle
    obtain rfl : rowCount' = rowCount := Nat.le_antisymm hrows hle
    rw [← hcut, hsound.truncate_self]
  · rw [hcut]

section

variable (h : Batched runtime schema written segments start priors current)
  (hstart : Indexed runtime schema written { engine := start, segments := segments })
  (hcount : start.memtable.rowCount < 2 ^ 32)
include h hstart hcount

theorem Batched.undoBatch (iterate : MapOrder) : Unbound start (fun _ => False)
      (current.undoBatch start.memtable.rowCount (iterate.order priors.toList)) := by
  have hmem (key : Bytes) (prior : PriorBinding) :
      (key, prior) ∈ iterate.order priors.toList ↔ priors[key]? = some prior := by
    rw [(iterate.perm _).mem_iff, TreeMap.mem_toList_iff_getElem?_eq_some]
  have hkeys : (iterate.order priors.toList).Pairwise fun a b => a.1 ≠ b.1 := by
    refine ((iterate.perm _).pairwise_iff fun hne => Ne.symm hne).mpr ?_
    refine TreeMap.distinct_keys_toList.imp fun hdistinct heq => ?_
    exact hdistinct (Std.LawfulEqOrd.compare_eq_iff_eq.mpr heq)
  obtain ⟨bitmaps, hrestored, hdeleted⟩ :=
    @foldl_restoreBinding current (iterate.order priors.toList)
  rw [MutationEngine.undoBatch, hrestored]
  refine ⟨h.schema, h.pkColIndices, h.memtableSegmentId, h.nextSegmentId, ?_,
    truncateTo_of_cut h.indexed.sound h.memtableSchema h.rows h.cut, fun key location => ?_,
    fun location => ?_⟩
  · show start.memtable.rowCount % 2 ^ 32 = start.memtableRowCounter
    rw [Nat.mod_eq_of_lt hcount, hstart.counter]
  · have hbound : (List.foldl (fun index entry => index.alter entry.1 fun _ => entry.2.location)
        current.pkIndex (iterate.order priors.toList))[key]? = start.pkIndex[key]? := by
      cases hprior : priors[key]? with
      | none =>
        refine (getElem?_foldl_alter_of_notMem
          (fun _ (prior : PriorBinding) _ => prior.location) _ _ ?_).trans (h.index key hprior)
        intro prior hentry
        simp [(hmem key prior).mp hentry] at hprior
      | some prior =>
        exact (getElem?_foldl_alter_of_mem (fun _ (prior : PriorBinding) _ => prior.location) _ _
          hkeys ((hmem key prior).mpr hprior)).trans (h.prior key prior hprior).1
    simp only [not_false_eq_true, and_true]
    exact Eq.congr_left hbound
  · simp only [false_and, exists_false, or_false, isDeleted_cutMemtableTo]
    refine Iff.trans (and_congr_left fun _ => hdeleted location) ?_
    rw [show (_ : MutationEngine).memtableSegmentId = start.memtableSegmentId from
      h.memtableSegmentId]
    constructor
    · rintro ⟨⟨hcurrent, hkept⟩, hbefore⟩
      obtain hold | ⟨key, hprior, hbound⟩ := (h.deleted location hbefore).mp hcurrent
      · exact hold
      · -- a row the batch marked is bound to a key it knows, and was unmarked
        obtain ⟨prior, hprior⟩ := (mem_iff_exists priors key).mp hprior
        obtain ⟨hlocation, htombstoned, _⟩ := h.prior key prior hprior
        rw [hbound] at hlocation
        exact absurd hlocation
          (hkept _ ((hmem key prior).mpr hprior) (by simp [htombstoned, hlocation]))
    · intro hold
      have hbefore : location.segmentId = start.memtableSegmentId →
          location.rowIndex < start.memtable.rowCount := by
        intro hsegment
        obtain ⟨columns, rowCount, hheld, hrow⟩ := hstart.marked location hold
        simp only [Store.segmentAt, hsegment, if_true, Option.some.injEq, Prod.mk.injEq] at hheld
        exact hheld.2 ▸ hrow
      refine ⟨⟨(h.deleted location hbefore).mpr (.inl hold), ?_⟩, hbefore⟩
      rintro ⟨key, prior⟩ hentry _ hlocation
      have hbound := (h.prior key prior ((hmem key prior).mp hentry)).1.symm.trans hlocation
      have hlive := ((hstart.live location).mpr ⟨key, hbound⟩).2
      simp [hold] at hlive

theorem Batched.insertBatchFrom (hflat : start.schema.isBitemporal = false) (iterate : MapOrder)
    (hallowed : RowsAllowed runtime written current.memtable (rows.map (·.values))) :
    Indexed runtime schema written
      { engine := (MutationEngine.insertBatchFrom runtime start.memtable.rowCount conflict iterate
          current priors rows).1
        segments := segments } := by
  induction rows generalizing current priors with
  | nil => exact h.indexed
  | cons row rest ih =>
    rcases hstep : current.insertBatchRow runtime row conflict priors with
      ⟨next, nextPriors, error | records⟩
    · obtain ⟨hnext, _⟩ := h.insertBatchRow hflat hallowed hstep
      simp only [MutationEngine.insertBatchFrom, hstep]
      exact hstart.unbound (hnext.undoBatch hstart hcount iterate)
    · obtain ⟨hnext, hrest⟩ := h.insertBatchRow hflat hallowed hstep
      have hdone := ih hnext (hrest records rfl)
      simp only [MutationEngine.insertBatchFrom, hstep]
      rcases hall : MutationEngine.insertBatchFrom runtime start.memtable.rowCount conflict
        iterate next nextPriors rest with ⟨last, error | results⟩ <;>
        rwa [hall] at hdone

theorem Batched.undone_of_error (hflat : start.schema.isBitemporal = false) (iterate : MapOrder)
    (hallowed : RowsAllowed runtime written current.memtable (rows.map (·.values)))
    {last : MutationEngine} {error : ColumnarError}
    (hfailed : MutationEngine.insertBatchFrom runtime start.memtable.rowCount conflict iterate
      current priors rows = (last, .error error)) : Unbound start (fun _ => False) last := by
  induction rows generalizing current priors with
  | nil => exact nomatch hfailed
  | cons row rest ih =>
    rcases hstep : current.insertBatchRow runtime row conflict priors with
      ⟨next, nextPriors, refused | records⟩
    · obtain ⟨hnext, -⟩ := h.insertBatchRow hflat hallowed hstep
      simp only [MutationEngine.insertBatchFrom, hstep, Prod.mk.injEq] at hfailed
      exact hfailed.1 ▸ hnext.undoBatch hstart hcount iterate
    · obtain ⟨hnext, hrest⟩ := h.insertBatchRow hflat hallowed hstep
      apply ih hnext (hrest records rfl)
      simp only [MutationEngine.insertBatchFrom, hstep] at hfailed
      split at hfailed
      · exact nomatch hfailed
      next hall => exact hall.trans hfailed

end

end Batch

end MutationEngine

/-! ## Whole runs -/

def Step.rows : Step → List (List Value)
  | .insert values => [values]
  | .insertWithSurrogate values _ => [values]
  | .insertIfAbsent values => [values]
  | .insertBatch rows _ _ => rows.map (·.values)
  | .update _ newValues _ => [newValues]
  | .delete _ | .flush => []

/-- The step writes only rows of `written`, within what row indices, byte offsets and segment
numbers can count. -/
structure Step.Within (runtime : Runtime) (written : List Value → Prop) (store : Store)
    (step : Step) : Prop where
  rows : RowsAllowed runtime written store.engine.memtable step.rows
  segments : step = .flush → store.engine.nextSegmentId + 1 < 2 ^ 64

/-- Rows that read back the same primary key have the same key bytes. -/
def KeysFollowStored (runtime : Runtime) (schema : ColumnarSchema)
    (same : Value → Value → Prop) (written : List Value → Prop) : Prop :=
  ∀ row other, written row → written other →
    row.length = schema.columns.length → other.length = schema.columns.length →
    (∀ (index : Nat) (column : ColumnDef), schema.columns[index]? = some column →
      column.primaryKey = true → ∃ value value' read read',
        row[index]? = some value ∧ other[index]? = some value' ∧
        ReadsBack runtime column value read ∧ ReadsBack runtime column value' read' ∧
        same read read') →
    rowPk runtime (primaryKeyIndices schema) row = rowPk runtime (primaryKeyIndices schema) other

theorem indexed_new (collection : String) :
    Indexed runtime schema written (Store.new collection schema) where
  declared := rfl
  sound := ColumnarMemtable.sound_new schema
  schema := rfl
  indices := rfl
  counter := rfl
  virtual := rfl
  positive := Nat.one_pos
  numbered id segment h := by simp [Store.new] at h
  marked location h := by
    obtain ⟨bitmap, hbitmap, _⟩ := MutationEngine.isDeleted_iff.mp h
    simp [Store.new, MutationEngine.new] at hbitmap
  live location := by
    constructor
    · rintro ⟨⟨columns, rowCount, hheld, hrow⟩, _⟩
      unfold Store.segmentAt at hheld
      split at hheld
      · obtain ⟨_, rfl⟩ := Prod.mk.inj (Option.some.inj hheld)
        exact absurd hrow (Nat.not_lt_zero _)
      · simp [Store.new] at hheld
    · rintro ⟨key, hbound⟩
      simp [Store.new, MutationEngine.new] at hbound
  distinct key other location h := by simp [Store.new, MutationEngine.new] at h
  backed key location h := by simp [Store.new, MutationEngine.new] at h

theorem Indexed.perform {store : Store} {step : Step}
    (hflat : schema.isBitemporal = false) (h : Indexed runtime schema written store)
    (hwithin : step.Within runtime written store) :
    Indexed runtime schema written (store.perform runtime step) := by
  have hstore : store.engine.schema.isBitemporal = false := h.declared ▸ hflat
  have hrows := hwithin.rows
  cases step with
  | insert values | insertWithSurrogate values surrogate => exact h.upsertRow hstore hrows.head
  | insertIfAbsent values => exact h.insertIfAbsent hrows.head
  | insertBatch rows conflict iterate =>
    have hcount := hrows.count
    exact (MutationEngine.batched_refl h).insertBatchFrom h (by omega) hstore iterate hrows
  | delete pkValue => exact h.delete pkValue
  | update oldPk newValues flushedSurrogate => exact h.update hstore hrows.head
  | flush => exact h.flush (hwithin.segments rfl)

theorem indexed_run {collection : String} {steps : List Step} (hflat : schema.isBitemporal = false)
    (hwithin : Along (Store.perform runtime) (fun store step => step.Within runtime written store)
      (Store.new collection schema) steps) :
    Indexed runtime schema written ((Store.new collection schema).run runtime steps) :=
  invariant_foldl (Indexed runtime schema written) (fun _ _ h hok => h.perform hflat hok)
    (indexed_new collection) hwithin

theorem KeysFollowStored.unique {same : Value → Value → Prop} {store : Store}
    {location location' : RowLocation} (hkeys : KeysFollowStored runtime schema same written)
    (h : Indexed runtime schema written store) (hlive : store.Live location)
    (hlive' : store.Live location')
    (hsame : ∀ (index : Nat) (column : ColumnDef), schema.columns[index]? = some column →
      column.primaryKey = true → ∃ read read', store.Reads runtime location index read ∧
        store.Reads runtime location' index read' ∧ same read read') : location = location' := by
  obtain ⟨key, hbound⟩ := (h.live location).mp hlive
  obtain ⟨key', hbound'⟩ := (h.live location').mp hlive'
  obtain ⟨row, hwritten, hlength, hkey, hcells⟩ := h.backed key location hbound
  obtain ⟨row', hwritten', hlength', hkey', hcells'⟩ := h.backed key' location' hbound'
  rw [h.declared] at hlength hlength' hcells hcells'
  rw [h.indices, h.declared] at hkey hkey'
  have hequal : key = key' := by
    rw [← hkey, ← hkey']
    apply hkeys row row' hwritten hwritten' hlength hlength'
    intro index column hcolumn hprimary
    obtain ⟨hindex, _⟩ := List.getElem?_eq_some_iff.mp hcolumn
    obtain ⟨read, read', hreads, hreads', hread⟩ := hsame index column hcolumn hprimary
    have hvalue : row[index]? = some row[index] := List.getElem?_eq_getElem _
    have hvalue' : row'[index]? = some row'[index] := List.getElem?_eq_getElem _
    exact ⟨_, _, read, read', hvalue, hvalue', hcells _ _ _ _ hcolumn hvalue hreads,
      hcells' _ _ _ _ hcolumn hvalue' hreads', hread⟩
  subst hequal
  exact Option.some.inj (hbound.symm.trans hbound')

/-- In every state the live rows are the rows of the index, and no two of them read back the same
primary key. -/
theorem one_live_row_per_key {collection : String} {same : Value → Value → Prop}
    {steps : List Step} (hflat : schema.isBitemporal = false)
    (hkeys : KeysFollowStored runtime schema same written)
    (hwithin : Along (Store.perform runtime) (fun store step => step.Within runtime written store)
      (Store.new collection schema) steps) :
    let store := (Store.new collection schema).run runtime steps
    (∀ location, store.Live location ↔
        ∃ key : Bytes, store.engine.pkIndex[key]? = some location) ∧
      ∀ location location', store.Live location → store.Live location' →
        (∀ (index : Nat) (column : ColumnDef), schema.columns[index]? = some column →
          column.primaryKey = true → ∃ read read', store.Reads runtime location index read ∧
            store.Reads runtime location' index read' ∧ same read read') →
        location = location' := by
  have hindexed := indexed_run hflat hwithin
  exact ⟨hindexed.live, fun _ _ hlive hlive' hsame => hkeys.unique hindexed hlive hlive' hsame⟩

/-! ## Two spellings of one identifier -/

theorem rowPk_eq (indices : List Nat) (row : List Value) :
    rowPk runtime indices row =
      List.intercalate [0xFF] ((indices.filterMap (row[·]?)).map (encodePk runtime)) := by
  simp only [rowPk, encodeCompositePk]
  split
  next value hvalue => simp [hvalue, List.intercalate]
  next => rfl

theorem keysFollowStored_of_canonical {same : Value → Value → Prop}
    (hsame : ∀ read read', same read read' → encodePk runtime read = encodePk runtime read')
    (hstored : ∀ row, written row → ∀ (index : Nat) (column : ColumnDef) (value read : Value),
      schema.columns[index]? = some column → column.primaryKey = true →
        row[index]? = some value → ReadsBack runtime column value read →
          encodePk runtime read = encodePk runtime value) :
    KeysFollowStored runtime schema same written := by
  intro row other hrow hother _ _ hread
  rw [rowPk_eq, rowPk_eq, map_filterMap, map_filterMap]
  congr 1
  refine filterMap_congr fun index hmem => ?_
  obtain ⟨⟨column, _⟩, hfiltered, rfl⟩ := mem_map.mp hmem
  obtain ⟨hzip, hprimary⟩ := mem_filter.mp hfiltered
  have hcolumn := mem_zipIdx_iff_getElem?.mp hzip
  obtain ⟨value, value', read, read', hvalue, hvalue', hback, hback', hrel⟩ :=
    hread _ column hcolumn hprimary
  rw [hvalue, hvalue']
  simp only [Option.map_some, Option.some.injEq]
  rw [← hstored row hrow _ _ _ _ hcolumn hprimary hvalue hback,
    ← hstored other hother _ _ _ _ hcolumn hprimary hvalue' hback', hsame _ _ hrel]

namespace Sample

def upper : String := "67E55044-10B1-426F-9247-BB680E5FE0C8"

def lower : String := "67e55044-10b1-426f-9247-bb680e5fe0c8"

def oneUuid : Runtime where
  parseUuid text := if text = upper ∨ text = lower then
    some [0x67, 0xE5, 0x50, 0x44, 0x10, 0xB1, 0x42, 0x6F, 0x92, 0x47, 0xBB, 0x68, 0x0E, 0x5F,
      0xE0, 0xC8] else none
  uuidText _ := lower
  parseUlid _ := none
  ulidText _ := ""
  parseJson _ := .error ""
  toJson _ := .error ""
  geometryJson _ := none
  toMsgpack _ := .error ""
  fromMsgpack _ := .error ""
  debug _ := ""
  trim text := text
  f64OfI64 _ := 0
  f32OfF64 _ := 0
  f32OfI64 _ := 0
  f64OfF32 _ := 0
  utf8Error _ := ""

def keyedBy (columnType : ColumnType) : ColumnarSchema where
  columns := [⟨"id", columnType, false, true⟩]

def spelledTwice : Store :=
  (Store.new "items" (keyedBy .uuid)).run oneUuid [.insert [.uuid upper], .insert [.uuid lower]]

def integerRow (row : List Value) : Prop := ∃ value, row = [.integer value]

theorem keysFollowStored_integerRow :
    KeysFollowStored oneUuid (keyedBy .int64) (· = ·) integerRow := by
  refine keysFollowStored_of_canonical (fun _ _ hsame => congrArg _ hsame) ?_
  rintro _ ⟨number, rfl⟩ index column value read hcolumn _ hvalue ⟨alone, hpush, hread⟩
  match index with
  | 0 =>
    obtain rfl := Option.some.inj hcolumn
    obtain rfl := Option.some.inj hvalue
    obtain rfl := Except.ok.inj hpush
    obtain rfl := Except.ok.inj (Option.some.inj hread)
    rfl
  | index + 1 => simp at hvalue

theorem rowsAllowed_keyed {written : List Value → Prop} {memtable : ColumnarMemtable}
    {dense : Dense Int64} {rows : List (List Value)} (hschema : memtable.schema = keyedBy .int64)
    (hcolumns : memtable.columns = [.int64 dense]) (hcount : memtable.rowCount + rows.length < 2 ^ 32)
    (hwritten : ∀ row ∈ rows, written row) : RowsAllowed oneUuid written memtable rows where
  written := hwritten
  count := hcount
  bytes index column data hcolumn hdata := by
    rw [hschema] at hcolumn
    rw [hcolumns] at hdata
    match index with
    | 0 =>
      obtain rfl := Option.some.inj hcolumn
      obtain rfl := Option.some.inj hdata
      have hnone : cellBytes oneUuid ⟨"id", .int64, false, true⟩ = fun _ => 0 := by
        funext value
        cases value <;> rfl
      simp [hnone, ColumnData.dataLength]
    | index + 1 => simp at hdata

def overwritten : List Step :=
  [.insert [.integer 1], .insert [.integer 1], .flush, .insert [.integer 2]]

theorem within_overwritten :
    Along (Store.perform oneUuid) (fun store step => step.Within oneUuid integerRow store)
      (Store.new "items" (keyedBy .int64)) overwritten :=
  ⟨⟨rowsAllowed_keyed rfl rfl (by decide +kernel) (by simp [Step.rows, integerRow]), nofun⟩,
    ⟨rowsAllowed_keyed rfl rfl (by decide +kernel) (by simp [Step.rows, integerRow]), nofun⟩,
    ⟨rowsAllowed_keyed rfl rfl (by decide +kernel) nofun, fun _ => by decide +kernel⟩,
    ⟨rowsAllowed_keyed rfl rfl (by decide +kernel) (by simp [Step.rows, integerRow]), nofun⟩,
    trivial⟩

end Sample

/-- The same identifier in two spellings is stored once more, and both rows stay. -/
theorem spelledTwice_two_live_rows :
    (Sample.keyedBy .uuid).isBitemporal = false ∧
      Sample.spelledTwice.Live ⟨0, 0⟩ ∧ Sample.spelledTwice.Live ⟨0, 1⟩ ∧
      ∃ read, Sample.spelledTwice.Reads Sample.oneUuid ⟨0, 0⟩ 0 read ∧
        Sample.spelledTwice.Reads Sample.oneUuid ⟨0, 1⟩ 0 read := by
  refine ⟨by decide, ⟨⟨_, _, rfl, by decide +kernel⟩, by decide +kernel⟩,
    ⟨⟨_, _, rfl, by decide +kernel⟩, by decide +kernel⟩, .uuid Sample.lower,
    ⟨_, _, _, _, rfl, rfl, rfl, rfl⟩, ⟨_, _, _, _, rfl, rfl, rfl, rfl⟩⟩

/-- A key written twice before a flush, and another after it. -/
theorem overwritten_one_live_row :
    let store := (Store.new "items" (Sample.keyedBy .int64)).run Sample.oneUuid Sample.overwritten
    store.engine.pkIndex.toList.map (·.2) = [⟨1, 1⟩, ⟨0, 0⟩] ∧
      ∀ location, store.Live location ↔
        ∃ key : Bytes, store.engine.pkIndex[key]? = some location :=
  ⟨by decide +kernel, (one_live_row_per_key (by decide) Sample.keysFollowStored_integerRow
    Sample.within_overwritten).1⟩

/-! ## Refused batches -/

open MutationEngine in
/-- A batch that is refused at one of its rows leaves every row, key and mark as it was. -/
theorem refused_batch_undone {collection : String} {steps : List Step} {rows : List BatchRow}
    {conflict : BatchConflict} {iterate : MapOrder} {last : MutationEngine}
    {error : ColumnarError} (hflat : schema.isBitemporal = false)
    (hwithin : Along (Store.perform runtime) (fun store step => step.Within runtime written store)
      (Store.new collection schema) (steps ++ [.insertBatch rows conflict iterate])) :
    let engine := ((Store.new collection schema).run runtime steps).engine
    engine.insertBatch runtime rows conflict iterate = (last, .error error) →
      engine.Unbound (fun _ => False) last := by
  intro engine hfailed
  obtain ⟨hsteps, hbatch, -⟩ := (along_append ..).mp hwithin
  have hindexed := indexed_run hflat hsteps
  have hcount := hbatch.rows.count
  exact (batched_refl hindexed).undone_of_error hindexed (by omega)
    (hindexed.declared.symm ▸ hflat) iterate hbatch.rows hfailed

/-- The batch writes the key of a flushed row again, and its second row has no key: the first is
taken back, and the flushed row keeps its key. -/
theorem refused_batch_undone_null :
    let steps : List Step := [.insert [.integer 3], .flush]
    let engine := ((Store.new "items" (Sample.keyedBy .int64)).run Sample.oneUuid steps).engine
    let rows : List MutationEngine.BatchRow := [⟨[.integer 3], none⟩, ⟨[.null], none⟩]
    let result := engine.insertBatch Sample.oneUuid rows .upsert ⟨id, fun _ => .rfl⟩
    engine.pkIndex.toList.map (·.2) = [⟨1, 0⟩] ∧
      (∃ error, result.2 = .error error) ∧ engine.Unbound (fun _ => False) result.1 := by
  intro steps engine rows result
  have hrefused : result.2 = .error (.nullViolation "id") := by decide +kernel
  refine ⟨by decide +kernel, ⟨_, hrefused⟩, @refused_batch_undone _ _ (fun _ => True) "items" steps
    rows _ _ _ _ rfl ⟨?_, ?_, ?_, trivial⟩ (Prod.ext rfl hrefused)⟩
  · exact ⟨Sample.rowsAllowed_keyed rfl rfl (by decide +kernel) fun _ _ => trivial, nofun⟩
  · exact ⟨Sample.rowsAllowed_keyed rfl rfl (by decide +kernel) fun _ _ => trivial,
      fun _ => by decide +kernel⟩
  · exact ⟨Sample.rowsAllowed_keyed rfl rfl (by decide +kernel) fun _ _ => trivial, nofun⟩

end NodeDB.Columnar
