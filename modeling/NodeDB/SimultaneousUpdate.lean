import NodeDB.UpdateUndo

/-!
# An UPDATE of several rows

A statement is meant to change all its rows at once: the untouched rows stay,
and every new row is live.  Its rows are applied one after the other, and each
looks its old row up under a key that an earlier row may have taken.
-/

namespace NodeDB.Columnar

open Std KeyedFold StepRuns MutationEngine List Store

variable {runtime : Runtime} {schema : ColumnarSchema} {written : List Value → Prop}

/-! ## What a statement should do -/

def Store.HoldsRow (runtime : Runtime) (store : Store) (location : RowLocation)
    (values : List Value) : Prop :=
  ∀ (index : Nat) (column : ColumnDef) (value read : Value),
    store.engine.schema.columns[index]? = some column → values[index]? = some value →
      (store.Reads runtime location index read ↔ ReadsBack runtime column value read)

def Store.Untouched (runtime : Runtime) (store : Store) (rows : List (Value × List Value))
    (location : RowLocation) : Prop :=
  store.Live location ∧
    ∀ row ∈ rows, store.engine.pkIndex[encodePk runtime row.1]? ≠ some location

/-- The rows there were have their cells, and the untouched ones are live beside one new row for
each row of the statement. -/
structure AppliedAtOnce (runtime : Runtime) (before : Store) (rows : List (Value × List Value))
    (after : Store) : Prop where
  kept : ∀ location, before.Holds location → ∀ index read,
    (after.Reads runtime location index read ↔ before.Reads runtime location index read)
  placed : ∃ places : List RowLocation, places.Nodup ∧
    List.Forall₂ (fun row place => ¬before.Holds place ∧ after.HoldsRow runtime place row.2)
      rows places ∧
    ∀ location, after.Live location ↔ before.Untouched runtime rows location ∨ location ∈ places

/-- Rows with distinct bound old keys and distinct new keys.  Each row is valid, and its new key
is not that of a row outside the list. -/
structure UpdateList (runtime : Runtime) (store : Store) (rows : List (Value × List Value)) :
    Prop where
  valid : ∀ row ∈ rows, ValidRow runtime store.engine.schema row.2
  bound : ∀ row ∈ rows, encodePk runtime row.1 ∈ store.engine.pkIndex
  oldKeys : (rows.map fun row => encodePk runtime row.1).Nodup
  newKeys : (rows.map fun row => rowPk runtime store.engine.pkColIndices row.2).Nodup
  inside : ∀ row ∈ rows, rowPk runtime store.engine.pkColIndices row.2 ∈ store.engine.pkIndex →
    rowPk runtime store.engine.pkColIndices row.2 ∈ rows.map fun row => encodePk runtime row.1

structure MutationEngine.GeometrySteps.Pass (geometry : GeometrySteps) : Prop where
  readPreImages : geometry.readPreImages = .ok ()
  checkSrids : geometry.checkSrids = .ok ()
  indexRow : ∀ affected, geometry.indexRow affected = .ok ()

/-! ## The rows one after the other -/

def Store.rowPlace (store : Store) (i : Nat) : RowLocation :=
  { segmentId := store.engine.memtableSegmentId, rowIndex := store.engine.memtable.rowCount + i }

/-- Where the rows applied so far are.  The key of a row is bound to it until a later row updates
that key. -/
structure Landed (runtime : Runtime) (store : Store) (applied : List (Value × List Value))
    (current : MutationEngine) : Prop where
  kept : ∀ location, store.Holds location → ∀ index read,
    (Store.Reads runtime { store with engine := current } location index read ↔
      store.Reads runtime location index read)
  rows : ∀ i row, applied[i]? = some row →
    Store.HoldsRow runtime { store with engine := current } (store.rowPlace i) row.2
  index : ∀ i row, applied[i]? = some row →
    current.pkIndex[rowPk runtime store.engine.pkColIndices row.2]? =
      if rowPk runtime store.engine.pkColIndices row.2 ∈
          (applied.drop (i + 1)).map (fun row => encodePk runtime row.1) then none
      else some (store.rowPlace i)

section Statement

variable {store : Store} {current next : MutationEngine} {row : Value × List Value}
  {applied rows : List (Value × List Value)} {outcome : ColumnarUpdateOutcome}
  {flushedRowSurrogate : RowLocation → Option Nat} {geometry : GeometrySteps}

theorem landed_nil : Landed runtime store [] store.engine where
  kept _ _ _ _ := Iff.rfl
  rows _ _ h := nomatch h
  index _ _ h := nomatch h

theorem not_holds_rowPlace (i : Nat) : ¬store.Holds (store.rowPlace i) := by
  rintro ⟨columns, rowCount, hsegment, hrow⟩
  simp only [segmentAt, rowPlace, if_true, Option.some.injEq, Prod.mk.injEq]
    at hsegment
  simp only [rowPlace] at hrow
  omega

theorem rowPlace_injective : Function.Injective store.rowPlace := by
  intro i j h
  simpa [rowPlace] using h

section Step

variable {keys : List (Bytes × Bytes)}
  (h : Updating runtime schema written store.segments store.engine keys outcome current)

include h

theorem MutationEngine.Updating.holds_rowPlace {i : Nat} (hi : i < keys.length) :
    Store.Holds { store with engine := current } (store.rowPlace i) := by
  refine ⟨current.memtable.columns, current.memtable.rowCount, ?_, ?_⟩
  · simp [segmentAt, rowPlace, h.memtableSegmentId]
  · rw [h.rows, rowPlace]
    exact Nat.add_lt_add_left hi _

theorem MutationEngine.Updating.holds_of_start {location : RowLocation} (hholds : store.Holds location) :
    Store.Holds { store with engine := current } location := by
  obtain ⟨columns, rowCount, hsegment, hrow⟩ := hholds
  by_cases hid : location.segmentId = store.engine.memtableSegmentId
  · simp only [segmentAt, hid, if_true, Option.some.injEq, Prod.mk.injEq] at hsegment
    refine ⟨current.memtable.columns, current.memtable.rowCount, ?_, ?_⟩
    · simp [segmentAt, hid, h.memtableSegmentId]
    · have hcount := h.rows
      omega
  · refine ⟨columns, rowCount, ?_, hrow⟩
    rw [← hsegment]
    simp [segmentAt, hid, h.memtableSegmentId]

theorem Landed.extend (hlanded : Landed runtime store applied current)
    (hkeys : keys.length = applied.length) {newKey oldKey : Bytes}
    (hrebound : Rebound runtime current row.2 newKey
      (if newKey = oldKey then [] else [oldKey]) next)
    (hlength : row.2.length = current.schema.columns.length)
    (hnewKey : rowPk runtime store.engine.pkColIndices row.2 = newKey)
    (holdKey : encodePk runtime row.1 = oldKey)
    (hfresh : ∀ earlier ∈ applied, rowPk runtime store.engine.pkColIndices earlier.2 ≠ newKey) :
    Landed runtime store (applied ++ [row]) next := by
  have hreads {location : RowLocation} (hholds : Store.Holds { store with engine := current }
      location) (index : Nat) (read : Value) :=
    @Rebound.reads_iff_of_holds runtime schema written { store with engine := current } next row.2
      newKey _ hrebound location index h.indexed hlength hholds read
  have hplace : appendPoint { store with engine := current } =
      store.rowPlace applied.length := by
    simp only [appendPoint, rowPlace, h.rows, h.memtableSegmentId, hkeys]
  have hcases (i : Nat) (other : Value × List Value) (hother : (applied ++ [row])[i]? = some other) :
      i < applied.length ∧ applied[i]? = some other ∨ i = applied.length ∧ other = row := by
    rcases Nat.lt_trichotomy i applied.length with hlt | rfl | hgt
    · exact .inl ⟨hlt, getElem?_append_left hlt ▸ hother⟩
    · simp only [getElem?_concat_length, Option.some.injEq] at hother
      exact .inr ⟨rfl, hother.symm⟩
    · rw [getElem?_eq_none (by simp; omega)] at hother
      cases hother
  refine ⟨fun location hholds index read => ?_, fun i other hother => ?_, fun i other hother => ?_⟩
  · exact (hreads (h.holds_of_start hholds) index read).trans
      (hlanded.kept location hholds index read)
  · obtain ⟨hlt, hother⟩ | ⟨rfl, rfl⟩ := hcases i other hother
    · intro index column value read hcolumn hvalue
      refine (hreads (h.holds_rowPlace (hkeys ▸ hlt)) index read).trans ?_
      exact hlanded.rows i other hother index column value read
        (hrebound.schema ▸ hcolumn) hvalue
    · intro index column value read hcolumn hvalue
      rw [← hplace]
      exact @Rebound.reads_appendPoint runtime schema written { store with engine := current } next
        other.2 newKey _ hrebound index h.indexed column value read
        (hrebound.schema ▸ hcolumn) hvalue
  · rw [hrebound.index_eq]
    obtain ⟨hlt, hother⟩ | ⟨rfl, rfl⟩ := hcases i other hother
    · rw [if_neg (hfresh other (mem_of_getElem? hother)),
        drop_append_of_le_length (Nat.succ_le_of_lt hlt), map_append, map_singleton,
        holdKey, hlanded.index i other hother]
      simp only [mem_append, mem_singleton]
      by_cases hkey : rowPk runtime store.engine.pkColIndices other.2 = oldKey
      · simp [hkey]
      · simp only [hkey, if_false, or_false]
    · have hcounter : current.memtableRowCounter = current.memtable.rowCount := h.indexed.counter
      rw [if_pos hnewKey, drop_of_length_le (by simp), map_nil, if_neg (not_mem_nil),
        ← hplace, hcounter]
      rfl

end Step

theorem UpdateList.updateRows (hlist : UpdateList runtime store (applied ++ rows))
    (hflat : store.engine.schema.isBitemporal = false) (hpass : geometry.Pass)
    (h : Updating runtime schema written store.segments store.engine
      (applied.map (rowKeys runtime store.engine.pkColIndices)) outcome current)
    (hlanded : Landed runtime store applied current)
    (hallowed : RowsAllowed runtime written current.memtable (rows.map (·.2))) :
    ∃ next last, updateRows runtime flushedRowSurrogate geometry current outcome rows =
        (next, last, none) ∧
      Updating runtime schema written store.segments store.engine
        ((applied ++ rows).map (rowKeys runtime store.engine.pkColIndices)) last next ∧
      Landed runtime store (applied ++ rows) next := by
  induction rows generalizing applied outcome current with
  | nil => exact ⟨current, outcome, rfl, by simpa using h, by simpa using hlanded⟩
  | cons row rest ih =>
    have hmem : row ∈ applied ++ row :: rest := by simp
    have hbound : ∃ location, current.pkIndex[encodePk runtime row.1]? = some location := by
      have hold : encodePk runtime row.1 ∉
          (applied.map (rowKeys runtime store.engine.pkColIndices)).map (·.1) := by
        have hdistinct := hlist.oldKeys
        rw [map_append, map_cons, nodup_middle, nodup_cons, mem_append, not_or] at hdistinct
        rw [map_map]
        exact hdistinct.1.1
      by_cases hnew : encodePk runtime row.1 ∈
          (applied.map (rowKeys runtime store.engine.pkColIndices)).map (·.2)
      · exact Option.isSome_iff_exists.mp (h.held _ hnew hold)
      · rw [h.untouched _ hold hnew]
        exact (mem_iff_exists _ _).mp (hlist.bound row hmem)
    obtain ⟨location, hlocation⟩ := hbound
    have hvalid : ValidRow runtime current.schema row.2 := h.schema ▸ hlist.valid row hmem
    obtain ⟨next, records, hupdate⟩ := @ValidRow.update _ _ _ _
      (((some location).filter fun old => old.segmentId ≠ current.memtableSegmentId).bind
        flushedRowSurrogate) _ hvalid h.indexed.sound h.indexed.schema hlocation
    have hstep : ∃ nextOutcome, current.updateRow runtime flushedRowSurrogate outcome row =
        (next, .ok nextOutcome) := by
      simp only [updateRow, hlocation, hupdate]
      exact ⟨_, rfl⟩
    obtain ⟨nextOutcome, hstep⟩ := hstep
    have hhead := @RowsAllowed.head _ _ _ _ { store with engine := current } hallowed
    obtain ⟨_, newKey, _, hextract, hrebound, _, _⟩ :=
      updateRow_ok h.indexed.sound (h.schema ▸ hflat) hhead.room hstep
    obtain ⟨_, _, _, hnext, hrest, -⟩ := h.updateRow hflat hallowed hstep
    obtain ⟨hlength, hnewKey⟩ := extractPkBytes_ok hextract
    rw [h.pkColIndices] at hnewKey
    have hfresh : ∀ earlier ∈ applied,
        rowPk runtime store.engine.pkColIndices earlier.2 ≠ newKey := by
      intro earlier hearlier heq
      have hdistinct := hlist.newKeys
      rw [map_append, map_cons, nodup_middle, nodup_cons, mem_append, not_or] at hdistinct
      exact hdistinct.1.1 (List.mem_map.mpr ⟨earlier, hearlier, heq.trans hnewKey.symm⟩)
    have hlanded := Landed.extend h hlanded (length_map _) hrebound hlength hnewKey rfl hfresh
    rw [append_cons] at hlist
    obtain ⟨final, last, hrun, hdone⟩ := ih hlist (by simpa using hnext) hlanded hrest
    rw [← append_cons] at hdone
    refine ⟨final, last, ?_, hdone⟩
    simp only [MutationEngine.updateRows, hstep, hpass.indexRow, hrun]

section Outcome

variable (hstore : Indexed runtime schema written store)
  (h : Updating runtime schema written store.segments store.engine
    (rows.map (rowKeys runtime store.engine.pkColIndices)) outcome current)
  (hlanded : Landed runtime store rows current)

include h hlanded

theorem Landed.live_of {location : RowLocation}
    (hlive : Store.Live { store with engine := current } location) :
    (∃ key : Bytes, store.engine.pkIndex[key]? = some location ∧
      key ∉ rows.map fun row => encodePk runtime row.1) ∨
    ∃ i row, rows[i]? = some row ∧ location = store.rowPlace i ∧
      current.pkIndex[rowPk runtime store.engine.pkColIndices row.2]? =
        some (store.rowPlace i) := by
  obtain ⟨key, hbound⟩ := (h.indexed.live location).mp hlive
  by_cases hnew : key ∈ (rows.map (rowKeys runtime store.engine.pkColIndices)).map (·.2)
  · rw [map_map] at hnew
    obtain ⟨row, hrow, rfl⟩ := List.mem_map.mp hnew
    obtain ⟨i, hi, rfl⟩ := getElem_of_mem hrow
    have hindex := hlanded.index i _ (getElem?_eq_getElem hi)
    have hplace : location = store.rowPlace i := by
      have hsome := hbound.symm.trans hindex
      split_ifs at hsome
      exact Option.some.inj hsome
    exact .inr ⟨i, _, getElem?_eq_getElem hi, hplace, hplace ▸ hbound⟩
  · by_cases hold : key ∈ (rows.map (rowKeys runtime store.engine.pkColIndices)).map (·.1)
    · exact nomatch (h.freed key hold hnew).symm.trans hbound
    · rw [h.untouched key hold hnew] at hbound
      rw [map_map] at hold
      exact .inl ⟨key, hbound, hold⟩

include hstore

theorem Landed.appliedAtOnce (hlist : UpdateList runtime store rows)
    (horder : rows.Pairwise fun earlier later =>
      rowPk runtime store.engine.pkColIndices earlier.2 ≠ encodePk runtime later.1) :
    AppliedAtOnce runtime store rows { store with engine := current } := by
  have hplaced (i : Nat) (hi : i < rows.length) :
      current.pkIndex[rowPk runtime store.engine.pkColIndices rows[i].2]? =
        some (store.rowPlace i) := by
    rw [hlanded.index i _ (getElem?_eq_getElem hi), if_neg]
    intro hmem
    obtain ⟨later, hlater, heq⟩ := List.mem_map.mp hmem
    have hsplit : rows.Pairwise _ := horder
    rw [← take_append_drop i rows, drop_eq_getElem_cons hi] at hsplit
    have htail := (pairwise_append.mp hsplit).2.1
    exact (pairwise_cons.mp htail).1 later hlater heq.symm
  refine ⟨hlanded.kept, (List.range rows.length).map store.rowPlace, ?_, ?_, fun location => ?_⟩
  · exact nodup_range.map rowPlace_injective
  · refine List.forall₂_iff_get.mpr ⟨by simp, fun i hi _ => ?_⟩
    simp only [get_eq_getElem, getElem_map, getElem_range]
    exact ⟨not_holds_rowPlace i, hlanded.rows i _ (getElem?_eq_getElem hi)⟩
  · constructor
    · intro hlive
      obtain ⟨key, hbound, hold⟩ | ⟨i, row, hrow, rfl, _⟩ := hlanded.live_of h hlive
      · refine .inl ⟨(hstore.live location).mpr ⟨key, hbound⟩, fun row hrow hrowBound => hold ?_⟩
        exact List.mem_map.mpr ⟨row, hrow, hstore.distinct _ _ _ hrowBound hbound⟩
      · have hi := (List.getElem?_eq_some_iff.mp hrow).1
        exact .inr (List.mem_map_of_mem (List.mem_range.mpr hi))
    · rintro (⟨hlive, hunnamed⟩ | hmem)
      · obtain ⟨key, hbound⟩ := (hstore.live location).mp hlive
        have hold : key ∉ rows.map fun row => encodePk runtime row.1 := by
          intro hmem
          obtain ⟨row, hrow, rfl⟩ := List.mem_map.mp hmem
          exact hunnamed row hrow hbound
        have hnew : key ∉ rows.map fun row => rowPk runtime store.engine.pkColIndices row.2 := by
          intro hmem
          obtain ⟨row, hrow, rfl⟩ := List.mem_map.mp hmem
          exact hold (hlist.inside row hrow ((mem_iff_exists _ _).mpr ⟨location, hbound⟩))
        refine (h.indexed.live location).mpr ⟨key, ?_⟩
        rw [← hbound]
        exact h.untouched key (by rw [map_map]; exact hold) (by rw [map_map]; exact hnew)
      · obtain ⟨i, hi, rfl⟩ := List.mem_map.mp hmem
        exact (h.indexed.live _).mpr ⟨_, hplaced i (List.mem_range.mp hi)⟩

theorem Landed.order_of_appliedAtOnce
    (honce : AppliedAtOnce runtime store rows { store with engine := current }) :
    rows.Pairwise fun earlier later =>
      rowPk runtime store.engine.pkColIndices earlier.2 ≠ encodePk runtime later.1 := by
  refine pairwise_iff_getElem.mpr fun i j hi hj hlt heq => ?_
  have hlost : current.pkIndex[rowPk runtime store.engine.pkColIndices rows[i].2]? = none := by
    rw [hlanded.index i _ (getElem?_eq_getElem hi), if_pos]
    have hdrop : rows[j] ∈ rows.drop (i + 1) := by
      refine mem_of_getElem? (i := j - (i + 1)) ?_
      rw [getElem?_drop, Nat.add_sub_cancel' hlt]
      exact getElem?_eq_getElem hj
    exact List.mem_map.mpr ⟨_, hdrop, heq.symm⟩
  obtain ⟨places, hnodup, hrows, hlive⟩ := honce.placed
  have hsubset : places ⊆ ((List.range rows.length).erase i).map store.rowPlace := by
    intro place hplace
    have hnew : ¬store.Holds place := by
      obtain ⟨k, hk, rfl⟩ := getElem_of_mem hplace
      have hk' : k < rows.length := hrows.length_eq ▸ hk
      exact ((List.forall₂_iff_get.mp hrows).2 k hk' hk).1
    obtain ⟨key, hbound, _⟩ | ⟨k, row, hrow, rfl, hbound⟩ :=
      hlanded.live_of h ((hlive place).mpr (.inr hplace))
    · exact absurd (hstore.holds_of_bound hbound) hnew
    · obtain ⟨hk, rfl⟩ := List.getElem?_eq_some_iff.mp hrow
      have hne : k ≠ i := by
        rintro rfl
        exact nomatch hlost.symm.trans hbound
      exact List.mem_map_of_mem ((mem_erase_of_ne hne).mpr (List.mem_range.mpr hk))
  have hcount := (hnodup.subperm hsubset).length_le
  rw [length_map, length_erase_of_mem (List.mem_range.mpr hi), length_range,
    ← hrows.length_eq] at hcount
  omega

end Outcome

/-- A statement of valid rows with distinct keys succeeds.  It changes its rows at once if no row
takes the key of a later one. -/
theorem update_applied_at_once_iff {collection : String} {steps : List Step}
    (hflat : schema.isBitemporal = false)
    (hwithin : Along (Store.perform runtime)
      (fun store step => step.Within runtime (fun _ => True) store)
      (Store.new collection schema) steps) :
    let store := (Store.new collection schema).run runtime steps
    RowsAllowed runtime (fun _ => True) store.engine.memtable (rows.map (·.2)) →
    UpdateList runtime store rows → geometry.Pass →
    ∃ after outcome, store.engine.applyColumnarUpdateRows runtime flushedRowSurrogate geometry
        rows = (after, .ok outcome) ∧ outcome.affected = rows.length ∧
      (AppliedAtOnce runtime store rows { store with engine := after } ↔
        rows.Pairwise fun earlier later =>
          rowPk runtime store.engine.pkColIndices earlier.2 ≠ encodePk runtime later.1) := by
  intro store hallowed hlist hpass
  have hstore := indexed_run hflat hwithin
  have hstoreFlat : store.engine.schema.isBitemporal = false :=
    (congrArg ColumnarSchema.isBitemporal hstore.declared).trans hflat
  obtain ⟨after, outcome, hrun, hupdating, hlanded⟩ :=
    @UpdateList.updateRows _ _ _ _ _ [] rows ⟨0, [], [], []⟩ flushedRowSurrogate _ hlist
      hstoreFlat hpass (updating_refl hstore) landed_nil hallowed
  refine ⟨after, outcome, ?_, ?_, ?_⟩
  · simp only [applyColumnarUpdateRows, hpass.readPreImages, hpass.checkSrids, hrun]
  · rw [hupdating.affected, nil_append, length_map]
  · exact ⟨hlanded.order_of_appliedAtOnce hstore hupdating,
      hlanded.appliedAtOnce hstore hupdating hlist⟩

namespace Sample

theorem validRow_integer (number : Int64) :
    ValidRow oneUuid (keyedBy .int64) [.integer number] where
  length := rfl
  logged := ⟨_, rfl⟩
  stored index column value hcolumn hvalue := by
    match index with
    | 0 =>
      obtain rfl := Option.some.inj hcolumn
      obtain rfl := Option.some.inj hvalue
      exact ⟨nofun, _, rfl⟩
    | index + 1 => exact nomatch hvalue

theorem pass_planeless : planeless.Pass := ⟨rfl, rfl, fun _ => rfl⟩

def ascending : List (Value × List Value) :=
  [(.integer 1, [.integer 2]), (.integer 2, [.integer 3])]

def descending : List (Value × List Value) :=
  [(.integer 2, [.integer 3]), (.integer 1, [.integer 2])]

theorem updateList_ascending : UpdateList oneUuid twoRows ascending where
  valid row hrow := by
    simp only [ascending, mem_cons, not_mem_nil, or_false] at hrow
    obtain rfl | rfl := hrow <;> exact validRow_integer _
  bound := by decide +kernel
  oldKeys := by decide +kernel
  newKeys := by decide +kernel
  inside := by decide +kernel

theorem updateList_descending : UpdateList oneUuid twoRows descending where
  valid row hrow := by
    simp only [descending, mem_cons, not_mem_nil, or_false] at hrow
    obtain rfl | rfl := hrow <;> exact validRow_integer _
  bound := by decide +kernel
  oldKeys := by decide +kernel
  newKeys := by decide +kernel
  inside := by decide +kernel

def ascended : Store :=
  { twoRows with engine :=
    (twoRows.engine.applyColumnarUpdateRows oneUuid (fun _ => none) planeless ascending).1 }

theorem live_ascended {location : RowLocation} (hlive : ascended.Live location) :
    location = ⟨0, 3⟩ := by
  obtain ⟨segment, row⟩ := location
  obtain ⟨⟨columns, rowCount, hsegment, hrow⟩, hunmarked⟩ := hlive
  by_cases hid : segment = 0
  · subst hid
    have hcount : rowCount = 4 := (Prod.mk.inj (Option.some.inj hsegment)).2.symm
    have hlt : row < 4 := hcount ▸ hrow
    interval_cases row
    · exact absurd hunmarked (by decide +kernel)
    · exact absurd hunmarked (by decide +kernel)
    · exact absurd hunmarked (by decide +kernel)
    · rfl
  · have hnone : ascended.segmentAt segment = none := (if_neg hid).trans rfl
    exact nomatch hnone.symm.trans hsegment

end Sample

/-- The first row takes the key of the second and is lost when the second is applied. -/
theorem ascending_not_applied_at_once :
    (Sample.keyedBy .int64).isBitemporal = false ∧
      UpdateList Sample.oneUuid Sample.twoRows Sample.ascending ∧
      ((Sample.twoRows.engine.applyColumnarUpdateRows Sample.oneUuid (fun _ => none)
        Sample.planeless Sample.ascending).2.toOption.map (·.affected)) = some 2 ∧
      ¬AppliedAtOnce Sample.oneUuid Sample.twoRows Sample.ascending Sample.ascended := by
  refine ⟨by decide, Sample.updateList_ascending, by decide +kernel, fun honce => ?_⟩
  obtain ⟨places, hnodup, hrows, hlive⟩ := honce.placed
  obtain ⟨first, second, rfl⟩ := length_eq_two.mp hrows.length_eq.symm
  have hplace (place : RowLocation) (hmem : place ∈ [first, second]) : place = ⟨0, 3⟩ :=
    Sample.live_ascended ((hlive place).mpr (.inr hmem))
  rw [hplace first (by simp), hplace second (by simp)] at hnodup
  simp at hnodup

/-- The row of the higher key moves first. -/
theorem descending_applied_at_once :
    ∃ after outcome, Sample.twoRows.engine.applyColumnarUpdateRows Sample.oneUuid (fun _ => none)
        Sample.planeless Sample.descending = (after, .ok outcome) ∧ outcome.affected = 2 ∧
      AppliedAtOnce Sample.oneUuid Sample.twoRows Sample.descending
        { Sample.twoRows with engine := after } := by
  obtain ⟨after, outcome, happlied, haffected, hiff⟩ :=
    @update_applied_at_once_iff Sample.oneUuid (Sample.keyedBy .int64) Sample.descending
      (fun _ => none) Sample.planeless "items" Sample.twoKeys (by decide) Sample.within_twoKeys
      (Sample.rowsAllowed_keyed rfl rfl (by decide +kernel) fun _ _ => trivial)
      Sample.updateList_descending Sample.pass_planeless
  exact ⟨after, outcome, happlied, haffected, hiff.mpr (by decide +kernel)⟩

end Statement

end NodeDB.Columnar
