import NodeDB.ColumnarUpdate

/-!
# Undoing an UPDATE statement

The undo always gives back the rows.  It binds every recorded key to the row
recorded last, and this is the row from before the statement as long as no row
of the statement updates a key that an earlier row of it wrote, and none
writes a key again that no row updated.
-/

namespace NodeDB.Columnar

open Std KeyedFold StepRuns MutationEngine List

variable {runtime : Runtime} {schema : ColumnarSchema} {written : List Value → Prop}
  {segments : TreeMap Nat Segment}

/-! ## Valid rows -/

/-- A row that can be logged and that every column takes. -/
structure ValidRow (runtime : Runtime) (schema : ColumnarSchema) (values : List Value) : Prop where
  length : values.length = schema.columns.length
  logged : ∃ rowData, encodeRowForWal runtime values = .ok rowData
  stored : ∀ (index : Nat) (column : ColumnDef) (value : Value),
    schema.columns[index]? = some column → values[index]? = some value →
      (value.isNull = true → column.nullable = true) ∧
      ∃ alone, (ColumnData.new column.columnType column.nullable).push runtime value column.name
        column.columnType = .ok alone

theorem ColumnData.Aligned.exists_push {data alone : ColumnData} {n : Nat} {value : Value}
    {name : String} {columnType : ColumnType} (h : data.Aligned n)
    (hpush : data.emptied.push runtime value name columnType = .ok alone) :
    ∃ after, data.push runtime value name columnType = .ok after := by
  cases h <;> cases value <;>
    simp only [emptied, push, reduceCtorEq, ByteFrame.bind_eq_ok, Except.ok.injEq,
      exists_eq', Strided.emptied] at hpush ⊢
  all_goals first
    | exact ⟨_, _, hpush.choose_spec.1, rfl⟩
    | split at hpush
      · rename_i hwidth
        exact ⟨_, if_pos hwidth⟩
      · cases hpush

/-- Columns take a row exactly if each of them, while empty, takes its value. -/
theorem exists_pushRow_iff {n : Nat} {columns : List ColumnDef} {held : List ColumnData}
    {values : List Value} (hfitting : Fitting columns n held) :
    (∃ appended, pushRow runtime columns values held = (appended, none)) ↔
      ∀ (index : Nat) (column : ColumnDef) (value : Value),
        columns[index]? = some column → values[index]? = some value →
          (value.isNull = true → column.nullable = true) ∧
          ∃ alone, (ColumnData.new column.columnType column.nullable).push runtime value
            column.name column.columnType = .ok alone := by
  induction hfitting generalizing values with
  | nil => exact ⟨fun _ _ _ _ hcolumn => (by cases hcolumn), fun _ => ⟨[], by simp [pushRow]⟩⟩
  | @cons column data columns held hfits _ ih =>
    cases values with
    | nil => exact ⟨fun _ _ _ _ _ hvalue => (by cases hvalue), fun _ => ⟨_, rfl⟩⟩
    | cons value rest =>
      constructor
      · rintro ⟨appended, hpush⟩
        simp only [pushRow] at hpush
        split_ifs at hpush with hnull
        · cases (Prod.mk.inj hpush).2
        split at hpush
        · cases (Prod.mk.inj hpush).2
        rename_i pushed hpushed
        intro index other stored hcolumn hvalue
        cases index with
        | zero =>
          obtain rfl := Option.some.inj hcolumn
          obtain rfl := Option.some.inj hvalue
          obtain ⟨alone, halone, -⟩ := ColumnData.push_appends hfits.aligned hpushed
          refine ⟨fun hisNull => ?_, alone, hfits.kind ▸ halone⟩
          simpa [hisNull] using hnull
        | succ index =>
          exact ih.mp ⟨_, Prod.ext rfl (Prod.mk.inj hpush).2⟩ index other stored hcolumn hvalue
      · intro hstored
        obtain ⟨hnull, alone, halone⟩ := hstored 0 column value rfl rfl
        obtain ⟨after, hafter⟩ := hfits.aligned.exists_push (hfits.kind ▸ halone)
        obtain ⟨appended, happended⟩ := (@ih rest).mpr fun index => hstored (index + 1)
        have hallowed : ¬((value.isNull && !column.nullable) = true) := by
          cases hvalue : value.isNull <;> simp_all
        exact ⟨after :: appended, by simp only [pushRow, if_neg hallowed, hafter, happended]⟩

section Row

variable {self : MutationEngine} {values : List Value} {oldPk : Value}
  {flushedSurrogate : Option Nat} {location : RowLocation}

theorem ValidRow.update (h : ValidRow runtime self.schema values) (hsound : self.memtable.Sound)
    (hschema : self.memtable.schema = self.schema)
    (hold : self.pkIndex[encodePk runtime oldPk]? = some location) :
    ∃ next records, self.update runtime oldPk values flushedSurrogate = (next, .ok records) := by
  obtain ⟨rowData, hlogged⟩ := h.logged
  obtain ⟨appended, happended⟩ := (exists_pushRow_iff hsound).mpr (hschema ▸ h.stored)
  have hextract : self.extractPkBytes runtime values =
      .ok (rowPk runtime self.pkColIndices values) := if_neg (not_not.mpr h.length)
  have happend : self.memtable.appendRow runtime values =
      ({ self.memtable with columns := appended, rowCount := self.memtable.rowCount + 1 },
        .ok ()) := by
    rw [ColumnarMemtable.appendRow, if_neg (not_not.mpr (hschema ▸ h.length)), happended]
  simp only [MutationEngine.update, hold, hextract, commitRow, hlogged, happend]
  exact ⟨_, _, rfl⟩

theorem validRow_of_update (hsound : self.memtable.Sound)
    (hschema : self.memtable.schema = self.schema) {next : MutationEngine} {records : MutationResult}
    (hupdate : self.update runtime oldPk values flushedSurrogate = (next, .ok records)) :
    ValidRow runtime self.schema values := by
  unfold MutationEngine.update at hupdate
  dsimp only at hupdate
  split at hupdate
  · exact nomatch (Prod.mk.inj hupdate).2
  split at hupdate
  · exact nomatch (Prod.mk.inj hupdate).2
  · rename_i hextract
    split at hupdate
    · exact nomatch (Prod.mk.inj hupdate).2
    · rename_i hcommit
      unfold commitRow at hcommit
      split at hcommit
      · exact nomatch (Prod.mk.inj hcommit).2
      · rename_i rowData hlogged
        split at hcommit
        · exact nomatch (Prod.mk.inj hcommit).2
        · rename_i happend
          refine ⟨(extractPkBytes_ok hextract).1, ⟨rowData, hlogged⟩, ?_⟩
          unfold ColumnarMemtable.appendRow at happend
          split at happend
          · exact nomatch (Prod.mk.inj happend).2
          split at happend
          · exact nomatch (Prod.mk.inj happend).2
          · rename_i hpush
            exact hschema ▸ (exists_pushRow_iff hsound).mp ⟨_, hpush⟩

end Row

namespace MutationEngine

def rowKeys (runtime : Runtime) (pkColIndices : List Nat) (row : Value × List Value) :
    Bytes × Bytes :=
  (encodePk runtime row.1, rowPk runtime pkColIndices row.2)

def Appended (start : MutationEngine) (location : RowLocation) : Prop :=
  location.segmentId = start.memtableSegmentId ∧ start.memtable.rowCount ≤ location.rowIndex

def ColumnarUpdateOutcome.recorded (outcome : ColumnarUpdateOutcome) (key : Bytes) :
    Option RowLocation :=
  (lastBinding key outcome.restored).or (lastBinding key outcome.displaced)

def Spoiled (start : MutationEngine) (outcome : ColumnarUpdateOutcome) (key : Bytes) : Prop :=
  ∃ location, outcome.recorded key = some location ∧ start.Appended location

/-- What the rows with the given keys have done since `start`. -/
structure Updating (runtime : Runtime) (schema : ColumnarSchema) (written : List Value → Prop)
    (segments : TreeMap Nat Segment) (start : MutationEngine) (keys : List (Bytes × Bytes))
    (outcome : ColumnarUpdateOutcome) (current : MutationEngine) : Prop where
  indexed : Indexed runtime schema written { engine := current, segments := segments }
  schema : current.schema = start.schema
  pkColIndices : current.pkColIndices = start.pkColIndices
  memtableSegmentId : current.memtableSegmentId = start.memtableSegmentId
  nextSegmentId : current.nextSegmentId = start.nextSegmentId
  memtableSchema : current.memtable.schema = start.memtable.schema
  rows : current.memtable.rowCount = start.memtable.rowCount + keys.length
  cut : current.memtable.columns.map (·.truncate start.memtable.rowCount) = start.memtable.columns
  surrogates : ∃ more, current.memtableSurrogates = start.memtableSurrogates ++ more
  affected : outcome.affected = keys.length
  inserted : outcome.insertedPks = keys.map (·.2)
  replaced : outcome.restored.map (·.1) = keys.map (·.1)
  untouched : ∀ key, key ∉ keys.map (·.1) → key ∉ keys.map (·.2) →
    current.pkIndex[key]? = start.pkIndex[key]?
  freed : ∀ key, key ∈ keys.map (·.1) → key ∉ keys.map (·.2) → current.pkIndex[key]? = none
  fresh : ∀ key ∈ keys.map (·.2), ∀ location, current.pkIndex[key]? = some location →
    start.Appended location
  held : ∀ key ∈ keys.map (·.2), key ∉ keys.map (·.1) → (current.pkIndex[key]?).isSome
  originals : ∀ entry ∈ outcome.restored ++ outcome.displaced,
    start.pkIndex[entry.1]? = some entry.2 ∨ entry.1 ∈ keys.map (·.2) ∧ start.Appended entry.2
  covered : ∀ key ∈ keys.map (·.2), key ∉ keys.map (·.1) → ∀ location,
    start.pkIndex[key]? = some location → (key, location) ∈ outcome.displaced
  deleted : ∀ location, ¬start.Appended location →
    (current.isDeleted location = true ↔ start.isDeleted location = true ∨
      location ∈ (outcome.restored ++ outcome.displaced).map (·.2))

theorem updating_refl {start : MutationEngine}
    (hindexed : Indexed runtime schema written { engine := start, segments := segments }) :
    Updating runtime schema written segments start [] ⟨0, [], [], []⟩ start where
  indexed := hindexed
  schema := rfl
  pkColIndices := rfl
  memtableSegmentId := rfl
  nextSegmentId := rfl
  memtableSchema := rfl
  rows := rfl
  cut := hindexed.sound.truncate_self
  surrogates := ⟨[], by simp⟩
  affected := rfl
  inserted := rfl
  replaced := rfl
  untouched _ _ _ := rfl
  freed _ h := nomatch h
  fresh _ h := nomatch h
  held _ h := nomatch h
  originals _ h := nomatch h
  covered _ h := nomatch h
  deleted _ _ := by simp

section Row

variable {start current next : MutationEngine} {keys : List (Bytes × Bytes)}
  {outcome nextOutcome : ColumnarUpdateOutcome} {flushedRowSurrogate : RowLocation → Option Nat}
  {row : Value × List Value} {rows : List (Value × List Value)}

def recordRow (outcome : ColumnarUpdateOutcome) (index : PkIndex) (oldKey newKey : Bytes)
    (oldLocation : RowLocation) : ColumnarUpdateOutcome where
  affected := outcome.affected + 1
  insertedPks := outcome.insertedPks ++ [newKey]
  displaced := outcome.displaced ++
    (if newKey ≠ oldKey then (index[newKey]?).map fun location => (newKey, location)
      else none).toList
  restored := outcome.restored ++ [(oldKey, oldLocation)]

theorem updateRow_ok (hsound : current.memtable.Sound)
    (hflat : current.schema.isBitemporal = false) (hroom : current.HasRoom runtime row.2)
    (hstep : current.updateRow runtime flushedRowSurrogate outcome row = (next, .ok nextOutcome)) :
    ∃ oldLocation newKey, current.pkIndex[encodePk runtime row.1]? = some oldLocation ∧
      current.extractPkBytes runtime row.2 = .ok newKey ∧
      Rebound runtime current row.2 newKey
        (if newKey = encodePk runtime row.1 then [] else [encodePk runtime row.1]) next ∧
      (∃ more, next.memtableSurrogates = current.memtableSurrogates ++ more) ∧
      nextOutcome =
        recordRow outcome current.pkIndex (encodePk runtime row.1) newKey oldLocation := by
  unfold updateRow at hstep
  dsimp only at hstep
  split at hstep
  · exact nomatch (Prod.mk.inj hstep).2
  · rename_i updated records hupdate
    obtain ⟨rfl, hrecord⟩ := Prod.mk.inj hstep
    obtain ⟨oldLocation, newKey, hold, hextract, hrebound⟩ := update_ok hsound hflat hroom hupdate
    refine ⟨oldLocation, newKey, hold, hextract, hrebound, ?_, ?_⟩
    · obtain ⟨more, hmore, _⟩ := @surrogates_update runtime current row.2 row.1 _
      rw [hupdate] at hmore
      exact ⟨more, hmore⟩
    · rw [hold, hextract] at hrecord
      exact (Except.ok.inj hrecord).symm

variable {oldKey newKey key : Bytes} {oldLocation location : RowLocation}
  (h : Updating runtime schema written segments start keys outcome current)
  (hstart : Indexed runtime schema written { engine := start, segments := segments })

theorem not_appended_of_holds (hholds : Store.Holds { engine := start, segments } location) :
    ¬start.Appended location := by
  rintro ⟨hsegment, hrow⟩
  obtain ⟨columns, rowCount, hheld, hlt⟩ := hholds
  simp only [Store.segmentAt, hsegment, if_true, Option.some.injEq, Prod.mk.injEq] at hheld
  exact absurd hlt (hheld.2 ▸ hrow).not_gt

include hstart in
theorem not_appended_of_bound (hbound : start.pkIndex[key]? = some location) :
    ¬start.Appended location :=
  not_appended_of_holds (hstart.holds_of_bound hbound)

include h in
theorem Updating.origin (hbound : current.pkIndex[key]? = some location) :
    start.pkIndex[key]? = some location ∨ key ∈ keys.map (·.2) ∧ start.Appended location := by
  by_cases hnew : key ∈ keys.map (·.2)
  · exact .inr ⟨hnew, h.fresh key hnew location hbound⟩
  · by_cases hold : key ∈ keys.map (·.1)
    · rw [h.freed key hold hnew] at hbound
      exact nomatch hbound
    · exact .inl (h.untouched key hold hnew ▸ hbound)

theorem marked_iff (hold : current.pkIndex[oldKey]? = some oldLocation) :
    (∃ other, (other = newKey ∨ other ∈ (if newKey = oldKey then [] else [oldKey])) ∧
        current.pkIndex[other]? = some location) ↔
      location = oldLocation ∨ newKey ≠ oldKey ∧ current.pkIndex[newKey]? = some location := by
  by_cases hkey : newKey = oldKey
  · subst hkey
    simp [hold, eq_comm]
  · simp [hkey, hold, or_and_right, exists_or, eq_comm, or_comm]

variable {index : PkIndex} {values : List Value}

theorem mem_recordRow {entry : Bytes × RowLocation} :
    entry ∈ (recordRow outcome index oldKey newKey oldLocation).restored ++
        (recordRow outcome index oldKey newKey oldLocation).displaced ↔
      entry ∈ outcome.restored ++ outcome.displaced ∨ entry = (oldKey, oldLocation) ∨
        newKey ≠ oldKey ∧ entry.1 = newKey ∧ index[newKey]? = some entry.2 := by
  obtain ⟨bound, location⟩ := entry
  simp only [recordRow, mem_append, mem_singleton, Option.mem_toList]
  by_cases hkey : newKey = oldKey
  · simp only [hkey, ne_eq, not_true, if_false, reduceCtorEq, or_false, false_and]
    tauto
  · simp only [ne_eq, hkey, not_false_eq_true, if_true, Option.map_eq_some_iff, Prod.mk.injEq,
      true_and]
    constructor
    · rintro ((hrestored | hnew) | hdisplaced | ⟨_, hindex, rfl, rfl⟩)
      · exact .inl (.inl hrestored)
      · exact .inr (.inl hnew)
      · exact .inl (.inr hdisplaced)
      · exact .inr (.inr ⟨rfl, hindex⟩)
    · rintro ((hrestored | hdisplaced) | hnew | ⟨rfl, hindex⟩)
      · exact .inl (.inl hrestored)
      · exact .inr (.inl hdisplaced)
      · exact .inl (.inr hnew)
      · exact .inr (.inr ⟨location, hindex, rfl, rfl⟩)

theorem Rebound.index_eq (h : Rebound runtime current values newKey
      (if newKey = oldKey then [] else [oldKey]) next) (other : Bytes) :
    next.pkIndex[other]? =
      if other = newKey then
        some ⟨current.memtableSegmentId, current.memtableRowCounter⟩
      else if other = oldKey then none else current.pkIndex[other]? := by
  rw [h.index]
  by_cases hnew : other = newKey
  · rw [if_pos hnew, if_pos hnew]
  · rw [if_neg hnew, if_neg hnew]
    by_cases hkey : newKey = oldKey
    · subst hkey
      simp [hnew]
    · simp [hkey]

include h in
theorem Updating.extend (hold : current.pkIndex[oldKey]? = some oldLocation)
    (hrebound : Rebound runtime current values newKey
      (if newKey = oldKey then [] else [oldKey]) next)
    (hindexed : Indexed runtime schema written { engine := next, segments := segments })
    (hsurrogates : ∃ more, next.memtableSurrogates = current.memtableSurrogates ++ more) :
    Updating runtime schema written segments start (keys ++ [(oldKey, newKey)])
      (recordRow outcome current.pkIndex oldKey newKey oldLocation) next := by
  have hindex := hrebound.index_eq
  have hplace : start.Appended ⟨current.memtableSegmentId, current.memtableRowCounter⟩ := by
    refine ⟨h.memtableSegmentId, ?_⟩
    have hcounter : current.memtableRowCounter = current.memtable.rowCount := h.indexed.counter
    rw [hcounter, h.rows]
    exact Nat.le_add_right _ _
  have hnew (other : Bytes) : other ∈ (keys ++ [(oldKey, newKey)]).map (·.2) ↔
      other ∈ keys.map (·.2) ∨ other = newKey := by
    rw [map_append, mem_append, map_singleton, mem_singleton]
  have holds (other : Bytes) : other ∈ (keys ++ [(oldKey, newKey)]).map (·.1) ↔
      other ∈ keys.map (·.1) ∨ other = oldKey := by
    rw [map_append, mem_append, map_singleton, mem_singleton]
  refine
    { indexed := hindexed
      schema := hrebound.schema.trans h.schema
      pkColIndices := hrebound.pkColIndices.trans h.pkColIndices
      memtableSegmentId := hrebound.memtableSegmentId.trans h.memtableSegmentId
      nextSegmentId := hrebound.nextSegmentId.trans h.nextSegmentId
      memtableSchema := hrebound.memtableSchema.trans h.memtableSchema
      rows := ?_, cut := ?_, surrogates := ?_, affected := ?_, inserted := ?_, replaced := ?_
      untouched := ?_, freed := ?_, fresh := ?_, held := ?_, originals := ?_, covered := ?_
      deleted := ?_ }
  · rw [hrebound.rowCount, h.rows, length_append, length_singleton, Nat.add_assoc]
  · exact (hrebound.row.cut (h.rows ▸ Nat.le_add_right _ _)).trans h.cut
  · obtain ⟨more, hmore⟩ := h.surrogates
    obtain ⟨last, hlast⟩ := hsurrogates
    exact ⟨more ++ last, by rw [hlast, hmore, append_assoc]⟩
  · rw [recordRow, h.affected, length_append, length_singleton]
  · rw [recordRow, h.inserted, map_append, map_singleton]
  · rw [recordRow, map_append, map_append, h.replaced, map_singleton, map_singleton]
  · intro other hother hother'
    rw [holds, not_or] at hother
    rw [hnew, not_or] at hother'
    rw [hindex, if_neg hother'.2, if_neg hother.2, h.untouched other hother.1 hother'.1]
  · intro other hother hother'
    rw [hnew, not_or] at hother'
    rw [hindex, if_neg hother'.2]
    split_ifs with hold'
    · rfl
    · exact h.freed other (((holds other).mp hother).resolve_right hold') hother'.1
  · intro other hother location hbound
    rw [hindex] at hbound
    split_ifs at hbound with hkey
    · exact Option.some.inj hbound ▸ hplace
    · exact h.fresh other (((hnew other).mp hother).resolve_right hkey) location hbound
  · intro other hother hother'
    rw [holds, not_or] at hother'
    rw [hindex]
    split_ifs with hkey hkey'
    · rfl
    · exact absurd hkey' hother'.2
    · exact h.held other (((hnew other).mp hother).resolve_right hkey) hother'.1
  · intro entry hentry
    rw [hnew]
    obtain hentry | rfl | ⟨_, hkey, hbound⟩ := mem_recordRow.mp hentry
    · exact (h.originals entry hentry).imp_right (And.imp_left .inl)
    · exact (h.origin hold).imp_right (And.imp_left .inl)
    · rw [hkey]
      exact (h.origin hbound).imp_right (And.imp_left .inl)
  · intro other hother hother' location hbound
    rw [holds, not_or] at hother'
    rw [recordRow, mem_append]
    by_cases hmem : other ∈ keys.map (·.2)
    · exact .inl (h.covered other hmem hother'.1 location hbound)
    · obtain rfl := ((hnew other).mp hother).resolve_left hmem
      right
      rw [if_pos hother'.2, h.untouched other hother'.1 hmem, hbound]
      exact mem_singleton.mpr rfl
  · intro location hstart
    rw [hrebound.deleted, h.deleted location hstart, marked_iff hold, or_assoc]
    refine or_congr_right ?_
    simp only [mem_map, mem_recordRow, or_and_right, exists_or]
    refine or_congr_right (or_congr ?_ ?_)
    · simp [eq_comm]
    · constructor
      · rintro ⟨hne, hbound⟩
        exact ⟨(newKey, location), ⟨hne, rfl, hbound⟩, rfl⟩
      · rintro ⟨entry, ⟨hne, _, hbound⟩, rfl⟩
        exact ⟨hne, hbound⟩

/-! ## Spoiled keys -/

theorem recorded_old :
    (recordRow outcome index oldKey newKey oldLocation).recorded oldKey = some oldLocation := by
  simp [recordRow, ColumnarUpdateOutcome.recorded, lastBinding_append, lastBinding_singleton]

theorem recorded_other (hold : key ≠ oldKey)
    (hkey : key = newKey → lastBinding key outcome.restored ≠ none) :
    (recordRow outcome index oldKey newKey oldLocation).recorded key = outcome.recorded key := by
  simp only [recordRow, ColumnarUpdateOutcome.recorded, lastBinding_append, lastBinding_singleton,
    Ne.symm hold, if_false, Option.none_or]
  by_cases hnew : key = newKey
  · obtain ⟨location, hlocation⟩ := Option.ne_none_iff_exists'.mp (hkey hnew)
    rw [hlocation, Option.some_or, Option.some_or]
  · congr 1
    refine (congrArg (Option.or · _) (lastBinding_eq_none.mpr ?_)).trans (Option.none_or)
    intro hmem
    obtain ⟨entry, hentry, rfl⟩ := mem_map.mp hmem
    rw [Option.mem_toList] at hentry
    split at hentry
    · obtain ⟨location, _, rfl⟩ := Option.map_eq_some_iff.mp hentry
      exact hnew rfl
    · exact nomatch hentry

theorem recorded_new (hne : newKey ≠ oldKey) (hnone : lastBinding newKey outcome.restored = none) :
    (recordRow outcome index oldKey newKey oldLocation).recorded newKey =
      (index[newKey]?).or (outcome.recorded newKey) := by
  simp only [recordRow, ColumnarUpdateOutcome.recorded, lastBinding_append, lastBinding_singleton,
    Ne.symm hne, if_false, Option.none_or, hnone, ne_eq, hne, not_false_eq_true, if_true]
  cases index[newKey]? with
  | none | some location => simp [lastBinding]

theorem mem_of_recorded (h : outcome.recorded key = some location) :
    (key, location) ∈ outcome.restored ++ outcome.displaced := by
  rw [mem_append]
  obtain hrestored | ⟨_, hdisplaced⟩ := Option.or_eq_some_iff.mp h
  · exact .inl (mem_of_lastBinding hrestored)
  · exact .inr (mem_of_lastBinding hdisplaced)

include h hstart in
theorem Updating.written_of_spoiled (hspoiled : start.Spoiled outcome key) : key ∈ keys.map (·.2) := by
  obtain ⟨location, hrecorded, happended⟩ := hspoiled
  obtain hbound | ⟨hmem, _⟩ := h.originals _ (mem_of_recorded hrecorded)
  · exact absurd happended (not_appended_of_bound hstart hbound)
  · exact hmem

include h hstart in
/-- A row spoils no key if its old key is not one the statement wrote, and its new key is not one
the statement wrote without updating it. -/
theorem Updating.unspoiled_iff (hold : current.pkIndex[oldKey]? = some oldLocation) :
    (∀ key, ¬start.Spoiled (recordRow outcome current.pkIndex oldKey newKey oldLocation) key) ↔
      (∀ key, ¬start.Spoiled outcome key) ∧ oldKey ∉ keys.map (·.2) ∧
        (newKey ∈ keys.map (·.2) → newKey ∈ keys.map (·.1)) := by
  have hupdated (key : Bytes) : lastBinding key outcome.restored = none ↔
      key ∉ keys.map (·.1) := by
    rw [lastBinding_eq_none, h.replaced]
  constructor
  · intro hunspoiled
    have holdKey : oldKey ∉ keys.map (·.2) := fun hmem =>
      hunspoiled oldKey ⟨oldLocation, recorded_old, h.fresh oldKey hmem _ hold⟩
    have hnewKey (hmem : newKey ∈ keys.map (·.2)) : newKey ∈ keys.map (·.1) := by
      by_contra hfirst
      obtain ⟨location, hbound⟩ := Option.isSome_iff_exists.mp (h.held newKey hmem hfirst)
      have hne : newKey ≠ oldKey := fun heq => holdKey (heq ▸ hmem)
      refine hunspoiled newKey ⟨location, ?_, h.fresh newKey hmem location hbound⟩
      rw [recorded_new hne ((hupdated newKey).mpr hfirst), hbound, Option.some_or]
    refine ⟨fun key hspoiled => ?_, holdKey, hnewKey⟩
    have hmem := h.written_of_spoiled hstart hspoiled
    have hne : key ≠ oldKey := fun heq => holdKey (heq ▸ hmem)
    refine hunspoiled key ?_
    rwa [Spoiled, recorded_other hne]
    rintro rfl
    rw [ne_eq, hupdated, not_not]
    exact hnewKey hmem
  · rintro ⟨hunspoiled, holdKey, hnewKey⟩ key ⟨location, hrecorded, happended⟩
    by_cases heq : key = oldKey
    · subst heq
      rw [recorded_old, Option.some.injEq] at hrecorded
      obtain hbound | ⟨hmem, _⟩ := h.origin hold
      · exact not_appended_of_bound hstart hbound (hrecorded ▸ happended)
      · exact holdKey hmem
    · by_cases hfirst : key = newKey ∧ key ∉ keys.map (·.1)
      · obtain ⟨rfl, hfirst⟩ := hfirst
        have hmem : key ∉ keys.map (·.2) := fun hmem => hfirst (hnewKey hmem)
        rw [recorded_new heq ((hupdated key).mpr hfirst), h.untouched key hfirst hmem,
          Option.or_eq_some_iff] at hrecorded
        obtain hbound | ⟨_, hrecorded⟩ := hrecorded
        · exact not_appended_of_bound hstart hbound happended
        · exact hunspoiled key ⟨location, hrecorded, happended⟩
      · rw [recorded_other heq] at hrecorded
        · exact hunspoiled key ⟨location, hrecorded, happended⟩
        · rintro rfl
          rw [ne_eq, hupdated]
          exact fun hnot => hfirst ⟨rfl, hnot⟩

/-! ## Whole statements -/

/-- No row updates a key that an earlier row wrote, and none writes a key again that no row has
updated.  The statement ends at a row whose old key is not bound by then or that is not valid,
and behind one whose geometry cannot be indexed; what comes later does not count. -/
def Restorable (runtime : Runtime) (schema : ColumnarSchema) (pkColIndices : List Nat)
    (geometry : GeometrySteps) :
    (Bytes → Prop) → List Bytes → List Bytes → List (Value × List Value) → Prop
  | _, _, _, [] => True
  | bound, olds, news, row :: rest =>
    let old := encodePk runtime row.1
    let new := rowPk runtime pkColIndices row.2
    bound old → ValidRow runtime schema row.2 →
      old ∉ news ∧ (new ∈ news → new ∈ olds) ∧
        (geometry.indexRow (olds.length + 1) = .ok () →
          Restorable runtime schema pkColIndices geometry
            (fun key => key = new ∨ key ≠ old ∧ bound key) (olds ++ [old]) (news ++ [new]) rest)

variable {geometry : GeometrySteps} {last : ColumnarUpdateOutcome} {error : Option UpdateError}

include h in
theorem Updating.updateRow (hflat : start.schema.isBitemporal = false)
    (hallowed : RowsAllowed runtime written current.memtable ((row :: rows).map (·.2)))
    (hstep : current.updateRow runtime flushedRowSurrogate outcome row = (next, .ok nextOutcome)) :
    ∃ oldLocation, current.pkIndex[encodePk runtime row.1]? = some oldLocation ∧
      nextOutcome = recordRow outcome current.pkIndex (encodePk runtime row.1)
        (rowPk runtime start.pkColIndices row.2) oldLocation ∧
      Updating runtime schema written segments start
        (keys ++ [rowKeys runtime start.pkColIndices row]) nextOutcome next ∧
      RowsAllowed runtime written next.memtable (rows.map (·.2)) ∧
      ∀ key, key ∈ next.pkIndex ↔ key = rowPk runtime start.pkColIndices row.2 ∨
        key ≠ encodePk runtime row.1 ∧ key ∈ current.pkIndex := by
  have hhead := @RowsAllowed.head _ _ _ _ { engine := current, segments := segments } hallowed
  obtain ⟨oldLocation, newKey, hold, hextract, hrebound, hsurrogates, rfl⟩ :=
    updateRow_ok h.indexed.sound (h.schema ▸ hflat) hhead.room hstep
  obtain ⟨hlength, rfl⟩ := extractPkBytes_ok hextract
  have hindexed := h.indexed.rebound hrebound hhead.written hlength rfl hhead.count
  rw [h.pkColIndices] at hrebound
  refine ⟨oldLocation, hold, by rw [h.pkColIndices], ?_, ?_, fun key => ?_⟩
  · rw [h.pkColIndices]
    exact h.extend hold hrebound hindexed hsurrogates
  · exact hallowed.appended h.indexed.sound (h.indexed.schema ▸ hlength)
      hrebound.memtableSchema hrebound.rowCount hrebound.row
  · rw [TreeMap.mem_iff_isSome_getElem?, TreeMap.mem_iff_isSome_getElem?, hrebound.index]
    split_ifs with hnew hgone hgone
    all_goals simp_all

theorem updateRow_error (hsound : current.memtable.Sound) (hroom : current.HasRoom runtime row.2)
    {refused : ColumnarError}
    (hstep : current.updateRow runtime flushedRowSurrogate outcome row = (next, .error refused)) :
    next = current := by
  unfold MutationEngine.updateRow at hstep
  dsimp only at hstep
  split at hstep
  · rename_i hupdate
    obtain ⟨rfl, _⟩ := Prod.mk.inj hstep
    exact update_error hsound hroom hupdate
  · exact nomatch (Prod.mk.inj hstep).2

section Accepted

variable (hsound : current.memtable.Sound) (hschema : current.memtable.schema = current.schema)
include hsound hschema

theorem validRow_of_updateRow
    (hstep : current.updateRow runtime flushedRowSurrogate outcome row = (next, .ok nextOutcome)) :
    ValidRow runtime current.schema row.2 := by
  unfold MutationEngine.updateRow at hstep
  dsimp only at hstep
  split at hstep
  · exact nomatch (Prod.mk.inj hstep).2
  · rename_i hupdate
    exact validRow_of_update hsound hschema hupdate

theorem not_validRow_of_updateRow {refused : ColumnarError}
    (hstep : current.updateRow runtime flushedRowSurrogate outcome row = (next, .error refused))
    (hold : encodePk runtime row.1 ∈ current.pkIndex) : ¬ValidRow runtime current.schema row.2 := by
  intro hvalid
  obtain ⟨location, hlocation⟩ := Option.isSome_iff_exists.mp
    (TreeMap.mem_iff_isSome_getElem?.mp hold)
  unfold MutationEngine.updateRow at hstep
  dsimp only at hstep
  split at hstep
  · rename_i hupdate
    obtain ⟨_, _, haccepted⟩ := hvalid.update hsound hschema hlocation
    exact nomatch (Prod.mk.inj (haccepted.symm.trans hupdate)).2
  · exact nomatch (Prod.mk.inj hstep).2

end Accepted

include h hstart in
theorem Updating.updateRows (hflat : start.schema.isBitemporal = false)
    (hallowed : RowsAllowed runtime written current.memtable (rows.map (·.2)))
    {bound : Bytes → Prop} (hbound : ∀ key, bound key ↔ key ∈ current.pkIndex)
    (hrun : updateRows runtime flushedRowSurrogate geometry current outcome rows =
      (next, last, error)) :
    ∃ applied, Updating runtime schema written segments start (keys ++ applied) last next ∧
      ((∀ key, ¬start.Spoiled last key) ↔ (∀ key, ¬start.Spoiled outcome key) ∧
        Restorable runtime start.schema start.pkColIndices geometry bound (keys.map (·.1))
          (keys.map (·.2)) rows) := by
  induction rows generalizing current keys outcome bound with
  | nil =>
    obtain ⟨rfl, rfl, _⟩ := by simpa only [MutationEngine.updateRows, Prod.mk.injEq] using hrun
    exact ⟨[], by rwa [append_nil], by simp [Restorable]⟩
  | cons row rest ih =>
    have hschema : current.memtable.schema = current.schema := h.indexed.schema
    rcases hstep : current.updateRow runtime flushedRowSurrogate outcome row with
      ⟨written, refused | nextOutcome⟩
    · -- the statement ends here, and the condition asks for nothing more
      simp only [MutationEngine.updateRows, hstep, Prod.mk.injEq] at hrun
      obtain ⟨rfl, rfl, _⟩ := hrun
      have hhead := @RowsAllowed.head _ _ _ _ { engine := current, segments := segments } hallowed
      obtain rfl := updateRow_error h.indexed.sound hhead.room hstep
      refine ⟨[], by rwa [append_nil], (and_iff_left fun hold hvalid => ?_).symm⟩
      exact absurd (h.schema ▸ hvalid)
        (not_validRow_of_updateRow h.indexed.sound hschema hstep ((hbound _).mp hold))
    · have hvalid := validRow_of_updateRow h.indexed.sound hschema hstep
      rw [h.schema] at hvalid
      obtain ⟨oldLocation, hold, rfl, hnext, hrest, hindex⟩ := h.updateRow hflat hallowed hstep
      have hheld : bound (encodePk runtime row.1) :=
        (hbound _).mpr (TreeMap.mem_iff_isSome_getElem?.mpr (by rw [hold]; rfl))
      have hrow := @Updating.unspoiled_iff _ _ _ _ _ _ _ _ _
        (rowPk runtime start.pkColIndices row.2) _ h hstart hold
      have hcount : (keys.map (·.1)).length + 1 = outcome.affected + 1 := by
        rw [length_map, h.affected]
      simp only [MutationEngine.updateRows, hstep] at hrun
      simp only [Restorable, hcount, forall_prop_of_true hheld, forall_prop_of_true hvalid]
      split at hrun
      · rename_i hunindexed
        obtain ⟨rfl, rfl, _⟩ := by simpa only [Prod.mk.injEq] using hrun
        refine ⟨[rowKeys runtime start.pkColIndices row], hnext, ?_⟩
        rw [hrow, show geometry.indexRow (outcome.affected + 1) = _ from hunindexed]
        simp
      · rename_i hindexed
        obtain ⟨applied, hlast, hspoiled⟩ := ih hnext hrest
          (fun key => (or_congr_right (and_congr_right fun _ => hbound key)).trans
            (hindex key).symm) hrun
        refine ⟨rowKeys runtime start.pkColIndices row :: applied, by rwa [append_cons], ?_⟩
        rw [hspoiled, hrow, show geometry.indexRow (outcome.affected + 1) = _ from hindexed]
        simp only [rowKeys, map_append, map_singleton, and_assoc, forall_const]

/-! ## The undo -/

include h hstart in
theorem Updating.getElem?_undo (key : Bytes) :
    ((outcome.recorded key).or
        (if key ∈ outcome.insertedPks then none else current.pkIndex[key]?) =
      start.pkIndex[key]?) ↔ ¬start.Spoiled outcome key := by
  cases hrecorded : outcome.recorded key with
  | some location =>
    have hspoiled : start.Spoiled outcome key ↔ start.Appended location := by
      simp [Spoiled, hrecorded]
    rw [Option.some_or, hspoiled, eq_comm]
    refine ⟨not_appended_of_bound hstart, fun hnot => ?_⟩
    obtain hbound | ⟨_, happended⟩ := h.originals _ (mem_of_recorded hrecorded)
    · exact hbound
    · exact absurd happended hnot
  | none =>
    have hspoiled : ¬start.Spoiled outcome key := by simp [Spoiled, hrecorded]
    obtain ⟨hrestored, hdisplaced⟩ := Option.or_eq_none_iff.mp hrecorded
    rw [lastBinding_eq_none, h.replaced] at hrestored
    rw [Option.none_or, h.inserted, iff_true_right hspoiled]
    split_ifs with hnew
    · refine (Option.eq_none_iff_forall_ne_some.mpr fun location hbound => ?_).symm
      exact lastBinding_eq_none.mp hdisplaced
        (mem_map_of_mem (h.covered key hnew hrestored location hbound))
    · exact h.untouched key hrestored hnew

include h hstart in
theorem Updating.isDeleted_undo (location : RowLocation) :
    ((current.isDeleted location = true ∧ location ∉ outcome.displaced.map (·.2) ∧
          (location.segmentId = current.memtableSegmentId →
            location.rowIndex < start.memtable.rowCount)) ∧
        location ∉ outcome.restored.map (·.2)) ↔ start.isDeleted location = true := by
  have hplace : (location.segmentId = current.memtableSegmentId →
      location.rowIndex < start.memtable.rowCount) ↔ ¬start.Appended location := by
    rw [h.memtableSegmentId, Appended, not_and, Nat.not_le]
  rw [hplace]
  constructor
  · rintro ⟨⟨hcurrent, hdisplaced, hnot⟩, hrestored⟩
    refine ((h.deleted location hnot).mp hcurrent).resolve_right ?_
    rw [map_append, mem_append]
    exact fun hmem => hmem.elim hrestored hdisplaced
  · intro hmarked
    have hnot := not_appended_of_holds (hstart.marked location hmarked)
    have hrecorded : location ∉ (outcome.restored ++ outcome.displaced).map (·.2) := by
      intro hmem
      obtain ⟨entry, hentry, rfl⟩ := mem_map.mp hmem
      obtain hbound | ⟨_, happended⟩ := h.originals entry hentry
      · have hlive := ((hstart.live entry.2).mpr ⟨entry.1, hbound⟩).2
        simp [hmarked] at hlive
      · exact hnot happended
    rw [map_append, mem_append, not_or] at hrecorded
    exact ⟨⟨(h.deleted location hnot).mpr (.inl hmarked), hrecorded.2, hnot⟩, hrecorded.1⟩

end Row

end MutationEngine

/-- The rows, their cells, the index, the row count and the surrogates are those before. -/
structure SameRows (runtime : Runtime) (before after : Store) : Prop where
  live : ∀ location, after.Live location ↔ before.Live location
  reads : ∀ location index read,
    after.Reads runtime location index read ↔ before.Reads runtime location index read
  index : ∀ key : Bytes, after.engine.pkIndex[key]? = before.engine.pkIndex[key]?
  rowCount : after.engine.memtable.rowCount = before.engine.memtable.rowCount
  surrogates : after.engine.memtableSurrogates = before.engine.memtableSurrogates

section Statement

variable {store : Store} {current : MutationEngine} {keys : List (Bytes × Bytes)}
  {outcome : MutationEngine.ColumnarUpdateOutcome}

open MutationEngine

theorem sameRows_undo_iff
    (h : Updating runtime schema written store.segments store.engine keys outcome current)
    (hstore : Indexed runtime schema written store) (htallied : store.engine.Tallied) :
    SameRows runtime store
        { store with engine := current.undoColumnarUpdate store.engine.memtable.rowCount outcome } ↔
      ∀ key, ¬store.engine.Spoiled outcome key := by
  obtain ⟨index, bitmaps, hundo, hindex, hdeleted⟩ :=
    @undoColumnarUpdate_eq current outcome store.engine.memtable.rowCount
  have hbound (key : Bytes) : index[key]? = store.engine.pkIndex[key]? ↔
      ¬store.engine.Spoiled outcome key := by
    rw [hindex, ← Option.or_assoc]
    exact h.getElem?_undo hstore key
  have hmemtable : current.memtable.truncateTo store.engine.memtable.rowCount =
      store.engine.memtable :=
    truncateTo_of_cut h.indexed.sound h.memtableSchema (h.rows ▸ Nat.le_add_right _ _) h.cut
  have hsurrogates : current.memtableSurrogates.take store.engine.memtable.rowCount =
      store.engine.memtableSurrogates := by
    obtain ⟨more, hmore⟩ := h.surrogates
    have hlength : store.engine.memtableSurrogates.length = store.engine.memtable.rowCount :=
      htallied
    rw [hmore, ← hlength, take_left]
  have hmarked (location : RowLocation) :
      isDeleted { current with deleteBitmaps := bitmaps } location =
        store.engine.isDeleted location := by
    rw [Bool.eq_iff_iff, hdeleted]
    exact h.isDeleted_undo hstore location
  rw [hundo]
  refine ⟨fun hsame key => (hbound key).mp (hsame.index key), fun hunspoiled => ?_⟩
  have hsegment (id : Nat) : Store.segmentAt { store with engine :=
      { current with
        pkIndex := index, deleteBitmaps := bitmaps
        memtable := current.memtable.truncateTo store.engine.memtable.rowCount
        memtableSurrogates := current.memtableSurrogates.take store.engine.memtable.rowCount
        memtableRowCounter := store.engine.memtable.rowCount % 2 ^ 32 } } id =
      store.segmentAt id := by
    simp only [Store.segmentAt, h.memtableSegmentId, hmemtable]
  exact
    { live := fun location => by
        simp only [Store.Live, Store.Holds, hsegment]
        exact and_congr_right fun _ => Eq.congr_left (hmarked location)
      reads := fun location column read => by
        simp only [Store.Reads, hsegment]
        rw [h.schema]
      index := fun key => (hbound key).mpr (hunspoiled key)
      rowCount := congrArg ColumnarMemtable.rowCount hmemtable
      surrogates := hsurrogates }

theorem sameRows_refl (store : Store) : SameRows runtime store store :=
  ⟨fun _ => Iff.rfl, fun _ _ _ => Iff.rfl, fun _ => rfl, rfl, rfl⟩

theorem Indexed.sameRows_reversedUpdate_iff (hstore : Indexed runtime schema written store)
    (htallied : store.engine.Tallied) (hflat : store.engine.schema.isBitemporal = false)
    {flushedRowSurrogate : RowLocation → Option Nat} {geometry : GeometrySteps}
    {rows : List (Value × List Value)}
    (hallowed : RowsAllowed runtime written store.engine.memtable (rows.map (·.2))) :
    SameRows runtime store { store with engine :=
        (store.engine.reversedUpdate runtime flushedRowSurrogate geometry rows) } ↔
      (geometry.readPreImages = .ok () → geometry.checkSrids = .ok () →
        Restorable runtime store.engine.schema store.engine.pkColIndices geometry
          (fun key => key ∈ store.engine.pkIndex) [] [] rows) := by
  cases hpre : geometry.readPreImages with
  | error detail =>
    simp only [reversedUpdate, applyColumnarUpdateRows, hpre]
    exact iff_of_true (sameRows_refl store) nofun
  | ok _ =>
  cases hsrids : geometry.checkSrids with
  | error detail =>
    simp only [reversedUpdate, applyColumnarUpdateRows, hpre, hsrids]
    exact iff_of_true (sameRows_refl store) (fun _ => nofun)
  | ok _ =>
  rcases hrun : updateRows runtime flushedRowSurrogate geometry store.engine ⟨0, [], [], []⟩ rows
    with ⟨next, outcome, error⟩
  obtain ⟨applied, hlast, hspoiled⟩ :=
    (updating_refl hstore).updateRows hstore hflat hallowed (fun _ => Iff.rfl) hrun
  have hreversed : store.engine.reversedUpdate runtime flushedRowSurrogate geometry rows =
      next.undoColumnarUpdate store.engine.memtable.rowCount outcome := by
    simp only [reversedUpdate, applyColumnarUpdateRows, hpre, hsrids, hrun]
    cases error <;> rfl
  have hfresh : ∀ key, ¬store.engine.Spoiled ⟨0, [], [], []⟩ key := by
    rintro key ⟨location, hrecorded, _⟩
    exact nomatch hrecorded
  rw [hreversed, sameRows_undo_iff hlast hstore htallied, hspoiled, and_iff_right hfresh]
  exact (forall_prop_of_true rfl).trans (forall_prop_of_true rfl) |>.symm

/-- Whether a statement fails part-way or is undone later: the rows, the row count and the
surrogates are back, and the index is if the rows of the statement are restorable. -/
theorem reversedUpdate_restores_iff {collection : String} {steps : List Step}
    {flushedRowSurrogate : RowLocation → Option Nat} {geometry : GeometrySteps}
    {rows : List (Value × List Value)} (hflat : schema.isBitemporal = false)
    (hwithin : Along (Store.perform runtime)
      (fun store step => step.Within runtime (fun _ => True) store)
      (Store.new collection schema) steps) :
    let store := (Store.new collection schema).run runtime steps
    RowsAllowed runtime (fun _ => True) store.engine.memtable (rows.map (·.2)) →
    (SameRows runtime store { store with engine :=
        (store.engine.reversedUpdate runtime flushedRowSurrogate geometry rows) } ↔
      (geometry.readPreImages = .ok () → geometry.checkSrids = .ok () →
        Restorable runtime store.engine.schema store.engine.pkColIndices geometry
          (fun key => key ∈ store.engine.pkIndex) [] [] rows)) := by
  intro store hallowed
  have hindexed := indexed_run hflat hwithin
  exact hindexed.sameRows_reversedUpdate_iff (tallied_run hwithin)
    ((congrArg ColumnarSchema.isBitemporal hindexed.declared).trans hflat) hallowed

namespace Sample

def planeless : GeometrySteps where
  readPreImages := .ok ()
  checkSrids := .ok ()
  indexRow _ := .ok ()

def twoKeys : List Step :=
  [.insert [.integer 1], .insert [.integer 2]]

def twoRows : Store := (Store.new "items" (keyedBy .int64)).run oneUuid twoKeys

def reversed (rows : List (Value × List Value)) : Store :=
  { twoRows with engine := twoRows.engine.reversedUpdate oneUuid (fun _ => none) planeless rows }

theorem within_twoKeys :
    Along (Store.perform oneUuid) (fun store step => step.Within oneUuid (fun _ => True) store)
      (Store.new "items" (keyedBy .int64)) twoKeys :=
  ⟨⟨rowsAllowed_keyed rfl rfl (by decide +kernel) fun _ _ => trivial, nofun⟩,
    ⟨rowsAllowed_keyed rfl rfl (by decide +kernel) fun _ _ => trivial, nofun⟩, trivial⟩

end Sample

/-- Two rows exchange their keys.  After the undo the second key is bound to the row the statement
had appended for it, behind the end of the memtable. -/
theorem exchanged_keys_not_restored :
    let key := encodePk Sample.oneUuid (.integer 2)
    let reversed := Sample.reversed
      [(.integer 1, [.integer 2]), (.integer 2, [.integer 1])]
    (Sample.keyedBy .int64).isBitemporal = false ∧
      Sample.twoRows.engine.pkIndex[key]? = some ⟨0, 1⟩ ∧
      reversed.engine.pkIndex[key]? = some ⟨0, 2⟩ ∧ reversed.engine.memtable.rowCount = 2 ∧
      ¬SameRows Sample.oneUuid Sample.twoRows reversed := by
  refine ⟨by decide, by decide +kernel, by decide +kernel, by decide +kernel, fun hsame => ?_⟩
  exact absurd (hsame.index (encodePk Sample.oneUuid (.integer 2))) (by decide +kernel)

/-- The row of key 2 moves to 3, and then that of key 1 to 2. -/
theorem changed_keys_restored :
    SameRows Sample.oneUuid Sample.twoRows
      (Sample.reversed [(.integer 2, [.integer 3]), (.integer 1, [.integer 2])]) :=
  (reversedUpdate_restores_iff (by decide) Sample.within_twoKeys
    (Sample.rowsAllowed_keyed rfl rfl (by decide +kernel) fun _ _ => trivial)).mpr
    fun _ _ _ _ => ⟨by decide +kernel, by decide +kernel, fun _ _ _ =>
      ⟨by decide +kernel, by decide +kernel, fun _ => trivial⟩⟩

end Statement

end NodeDB.Columnar
