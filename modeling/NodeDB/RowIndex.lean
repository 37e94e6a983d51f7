import NodeDB.MemtableRows

/-!
# The key index and the rows it points at

The key index, the delete bitmaps and the row positions are kept apart and
renumbered by flushes.  They agree: the live rows are the rows the index
points at, each under one key.  A write changes the three together in one of
two ways, `Rebound` and `Unbound`, and both keep the agreement.
-/

namespace NodeDB.Columnar

open Std KeyedFold StepRuns ColumnarMemtable

variable {runtime : Runtime} {schema : ColumnarSchema} {written : List Value → Prop}

/-! ## Marks -/

namespace MutationEngine

variable {self : MutationEngine} {location other : RowLocation}

theorem isDeleted_iff :
    self.isDeleted location = true ↔
      ∃ bitmap, self.deleteBitmaps[location.segmentId]? = some bitmap ∧
        location.rowIndex ∈ bitmap := by
  unfold isDeleted
  cases self.deleteBitmaps[location.segmentId]? <;> simp

theorem isDeleted_markDeleted :
    (self.markDeleted location).isDeleted other = true ↔
      self.isDeleted other = true ∨ other = location := by
  obtain ⟨segment, row⟩ := location
  obtain ⟨segment', row'⟩ := other
  simp only [isDeleted_iff, markDeleted, getElem?_insert_eq_some_iff, RowLocation.mk.injEq]
  by_cases hsegment : segment' = segment
  · subst hsegment
    cases self.deleteBitmaps[segment']? <;>
      simp [or_comm, eq_comm (a := row)]
  · simp [hsegment]

theorem foldl_markDeleted (locations : List RowLocation) :
    ∃ bitmaps, locations.foldl markDeleted self = { self with deleteBitmaps := bitmaps } ∧
      ∀ other, isDeleted { self with deleteBitmaps := bitmaps } other = true ↔
        self.isDeleted other = true ∨ other ∈ locations := by
  induction locations generalizing self with
  | nil => exact ⟨self.deleteBitmaps, rfl, by simp⟩
  | cons location rest ih =>
    obtain ⟨bitmaps, heq, hdeleted⟩ := @ih (self.markDeleted location)
    refine ⟨bitmaps, heq, fun other => ?_⟩
    rw [List.mem_cons, ← or_assoc, ← isDeleted_markDeleted]
    exact hdeleted other

theorem isDeleted_unmarkDeleted :
    (self.unmarkDeleted location).isDeleted other = true ↔
      self.isDeleted other = true ∧ other ≠ location := by
  obtain ⟨segment, row⟩ := location
  obtain ⟨segment', row'⟩ := other
  unfold unmarkDeleted
  cases hheld : self.deleteBitmaps[segment]? with
  | none =>
    simp only [isDeleted_iff, ne_eq, RowLocation.mk.injEq]
    refine ⟨?_, And.left⟩
    rintro ⟨bitmap, hbitmap, hrow⟩
    refine ⟨⟨bitmap, hbitmap, hrow⟩, ?_⟩
    rintro ⟨rfl, -⟩
    simp [hheld] at hbitmap
  | some bitmap =>
    simp only [isDeleted_iff, getElem?_insert_eq_some_iff, ne_eq, RowLocation.mk.injEq]
    by_cases hsegment : segment' = segment
    · subst hsegment
      simp [hheld, and_comm, eq_comm (a := row)]
    · simp [hsegment]

/-! ## A committed row -/

def HasRoom (runtime : Runtime) (self : MutationEngine) (values : List Value) : Prop :=
  Room runtime self.memtable.schema.columns values self.memtable.columns

/-- A row was appended, bound to `key`, and the rows bound to `key` and to the keys `gone` were
marked. -/
structure Rebound (runtime : Runtime) (before : MutationEngine) (values : List Value)
    (key : Bytes) (gone : List Bytes) (after : MutationEngine) : Prop where
  schema : after.schema = before.schema
  pkColIndices : after.pkColIndices = before.pkColIndices
  memtableSegmentId : after.memtableSegmentId = before.memtableSegmentId
  nextSegmentId : after.nextSegmentId = before.nextSegmentId
  counter : after.memtableRowCounter = (before.memtableRowCounter + 1) % 2 ^ 32
  memtableSchema : after.memtable.schema = before.memtable.schema
  rowCount : after.memtable.rowCount = before.memtable.rowCount + 1
  row : RowAppended runtime before.memtable.rowCount before.memtable.schema.columns values
    before.memtable.columns after.memtable.columns
  index : ∀ other, after.pkIndex[other]? =
    if other = key then
      some { segmentId := before.memtableSegmentId, rowIndex := before.memtableRowCounter }
    else if other ∈ gone then none else before.pkIndex[other]?
  deleted : ∀ location, after.isDeleted location = true ↔
    before.isDeleted location = true ∨
      ∃ other, (other = key ∨ other ∈ gone) ∧ before.pkIndex[other]? = some location

theorem getElem?_rebind (index : PkIndex) {key : Bytes} {gone : List Bytes}
    (hfresh : ∀ other ∈ gone, other ≠ key) (other : Bytes) :
    (gone.foldl (fun index other => index.erase other) (index.insert key location))[other]? =
      if other = key then some location
      else if other ∈ gone then none else index[other]? := by
  ext bound
  refine (getElem?_foldl_erase_eq_some_iff (fun other : Bytes => other) gone).trans ?_
  rw [getElem?_insert_eq_some_iff]
  by_cases hkey : other = key
  · subst hkey
    simpa [eq_comm] using fun _ item hitem => (hfresh item hitem).symm
  · have hmem : (∀ item ∈ gone, item ≠ other) ↔ other ∉ gone :=
      ⟨fun h hother => h other hother rfl, fun h item hitem heq => h (heq ▸ hitem)⟩
    rw [hmem]
    by_cases hgone : other ∈ gone <;> simp [hkey, hgone]

theorem commitRow_error {next : MutationEngine} {values : List Value} {pkBytes : Bytes}
    {surrogate : Option Nat} {replaced : List RowLocation} {error : ColumnarError}
    (hsound : self.memtable.Sound) (hroom : self.HasRoom runtime values)
    (hcommit : self.commitRow runtime values pkBytes surrogate replaced = (next, .error error)) :
    next = self := by
  unfold commitRow at hcommit
  split at hcommit
  · exact (Prod.mk.inj hcommit).1.symm
  · split at hcommit
    · rename_i memtable _ happend
      obtain ⟨rfl, _⟩ := Prod.mk.inj hcommit
      rw [appendRow_error hsound hroom happend]
    · simp at hcommit

theorem commitRow_ok {next : MutationEngine} {values : List Value} {pkBytes : Bytes}
    {surrogate : Option Nat} {replaced : List RowLocation} {records : MutationResult}
    (hsound : self.memtable.Sound) (hroom : self.HasRoom runtime values)
    (hcommit : self.commitRow runtime values pkBytes surrogate replaced = (next, .ok records))
    {gone : List Bytes} (hfresh : ∀ other ∈ gone, other ≠ pkBytes)
    (hreplaced : ∀ location, location ∈ replaced ↔
      ∃ other, (other = pkBytes ∨ other ∈ gone) ∧ self.pkIndex[other]? = some location) :
    Rebound runtime self values pkBytes gone
      { next with pkIndex := gone.foldl (fun index other => index.erase other) next.pkIndex } := by
  unfold commitRow at hcommit
  split at hcommit
  · simp at hcommit
  · split at hcommit
    · simp at hcommit
    · rename_i rowData _ memtable done happend
      obtain ⟨hvalues, hschema, hcount, hrow⟩ :=
        appendRow_ok hsound hroom happend
      obtain ⟨bitmaps, hmarked, hdeleted⟩ :=
        @foldl_markDeleted { self with memtable := memtable } replaced
      rw [hmarked] at hcommit
      obtain ⟨rfl, _⟩ := Prod.mk.inj hcommit
      refine ⟨rfl, rfl, rfl, rfl, rfl, hschema, hcount, hrow, fun other => ?_, fun location => ?_⟩
      · exact getElem?_rebind _ hfresh other
      · rw [← hreplaced location]
        exact hdeleted location

end MutationEngine

open MutationEngine

/-! ## The invariant -/

/-- The index, the bitmaps and the row positions agree.  Every bound row was written with the
key it is bound to, and its cells read back as its values do. -/
structure Indexed (runtime : Runtime) (schema : ColumnarSchema) (written : List Value → Prop)
    (store : Store) : Prop where
  declared : store.engine.schema = schema
  sound : store.engine.memtable.Sound
  schema : store.engine.memtable.schema = store.engine.schema
  indices : store.engine.pkColIndices = primaryKeyIndices store.engine.schema
  counter : store.engine.memtableRowCounter = store.engine.memtable.rowCount
  virtual : store.engine.memtableSegmentId = 0
  positive : 0 < store.engine.nextSegmentId
  numbered : ∀ id segment, store.segments[id]? = some segment →
    0 < id ∧ id < store.engine.nextSegmentId
  marked : ∀ location, store.engine.isDeleted location = true → store.Holds location
  live : ∀ location, store.Live location ↔
    ∃ key : Bytes, store.engine.pkIndex[key]? = some location
  distinct : ∀ (key other : Bytes) (location : RowLocation),
    store.engine.pkIndex[key]? = some location →
      store.engine.pkIndex[other]? = some location → key = other
  backed : ∀ (key : Bytes) (location : RowLocation),
    store.engine.pkIndex[key]? = some location →
    ∃ row, written row ∧ row.length = store.engine.schema.columns.length ∧
      rowPk runtime store.engine.pkColIndices row = key ∧
      ∀ index column value read, store.engine.schema.columns[index]? = some column →
        row[index]? = some value → store.Reads runtime location index read →
          ReadsBack runtime column value read

variable {store : Store}

theorem Indexed.holds_of_bound (h : Indexed runtime schema written store) {key : Bytes}
    {location : RowLocation} (hbound : store.engine.pkIndex[key]? = some location) :
    store.Holds location :=
  ((h.live location).mpr ⟨key, hbound⟩).1

section Rebinding

variable {store : Store} {after : MutationEngine} {values : List Value} {key : Bytes}
  {gone : List Bytes}

def Store.appendPoint (store : Store) : RowLocation :=
  { segmentId := store.engine.memtableSegmentId, rowIndex := store.engine.memtable.rowCount }

theorem not_holds_appendPoint : ¬store.Holds store.appendPoint := by
  rintro ⟨columns, rowCount, hsegment, hrow⟩
  simp only [Store.segmentAt, Store.appendPoint, if_true, Option.some.injEq, Prod.mk.injEq]
    at hsegment
  simp only [Store.appendPoint] at hrow
  omega

section

variable (h : MutationEngine.Rebound runtime store.engine values key gone after)
include h

theorem Rebound.segmentAt_ne {id : Nat} (hne : id ≠ store.engine.memtableSegmentId) :
    ({ store with engine := after } : Store).segmentAt id = store.segmentAt id := by
  simp [Store.segmentAt, h.memtableSegmentId, hne]

variable {location : RowLocation} {index : Nat}

theorem Rebound.holds_iff :
    ({ store with engine := after } : Store).Holds location ↔
      store.Holds location ∨ location = store.appendPoint := by
  obtain ⟨segment, row⟩ := location
  by_cases hsegment : segment = store.engine.memtableSegmentId
  · subst hsegment
    simp [Store.Holds, Store.segmentAt, Store.appendPoint, h.memtableSegmentId, h.rowCount,
      Nat.le_iff_lt_or_eq]
  · simp [Store.Holds, Store.appendPoint, Rebound.segmentAt_ne h hsegment, hsegment]

variable (hindexed : Indexed runtime schema written store)
include hindexed

theorem Rebound.cells {column : ColumnDef} {value : Value}
    (hcolumn : store.engine.schema.columns[index]? = some column)
    (hvalue : values[index]? = some value) :
    ∃ before data, store.engine.memtable.columns[index]? = some before ∧
      after.memtable.columns[index]? = some data ∧
      (∀ {row}, row < store.engine.memtable.rowCount →
        data.getValue runtime row column.columnType column.name =
          before.getValue runtime row column.columnType column.name) ∧
      ∀ {read}, data.getValue runtime store.engine.memtable.rowCount column.columnType
          column.name = some (.ok read) ↔ ReadsBack runtime column value read := by
  rw [← hindexed.schema] at hcolumn
  have hbound : index < store.engine.memtable.columns.length := by
    have hlength := hindexed.sound.length_eq
    have := (List.getElem?_eq_some_iff.mp hcolumn).1
    omega
  obtain ⟨data, hdata, _, hearlier, hown⟩ :=
    h.row.cells index column value _ hcolumn hvalue (List.getElem?_eq_getElem hbound)
  exact ⟨_, data, List.getElem?_eq_getElem hbound, hdata, hearlier, hown⟩

theorem Rebound.reads_iff_of_holds
    (hvalues : values.length = store.engine.schema.columns.length) (hholds : store.Holds location)
    {read : Value} :
    ({ store with engine := after } : Store).Reads runtime location index read ↔
      store.Reads runtime location index read := by
  by_cases hid : location.segmentId = store.engine.memtableSegmentId
  · obtain ⟨_, _, hheld, hrow⟩ := hholds
    simp only [Store.segmentAt, hid, if_true, Option.some.injEq, Prod.mk.injEq] at hheld
    obtain ⟨rfl, rfl⟩ := hheld
    cases hcolumn : store.engine.schema.columns[index]? with
    | none => simp [Store.Reads, h.schema, hcolumn]
    | some column =>
      have hbound : index < values.length := by
        rw [hvalues]
        exact (List.getElem?_eq_some_iff.mp hcolumn).1
      obtain ⟨before, data, hbefore, hafter, hearlier, _⟩ :=
        Rebound.cells h hindexed hcolumn (List.getElem?_eq_getElem hbound)
      simp [Store.Reads, Store.segmentAt, h.memtableSegmentId, h.schema, hid, hcolumn, hbefore,
        hafter, hearlier hrow]
  · simp only [Store.Reads, Rebound.segmentAt_ne h hid, h.schema]

theorem Rebound.reads_appendPoint {column : ColumnDef} {value read : Value}
    (hcolumn : store.engine.schema.columns[index]? = some column)
    (hvalue : values[index]? = some value) :
    ({ store with engine := after } : Store).Reads runtime store.appendPoint index read ↔
      ReadsBack runtime column value read := by
  obtain ⟨_, data, _, hafter, _, hown⟩ := Rebound.cells h hindexed hcolumn hvalue
  simp [Store.Reads, Store.segmentAt, Store.appendPoint, h.memtableSegmentId, h.schema, hcolumn,
    hafter, hown]

theorem Rebound.bound_iff {other : Bytes} :
    after.pkIndex[other]? = some location ↔
      other = key ∧ location = store.appendPoint ∨
        other ≠ key ∧ other ∉ gone ∧ store.engine.pkIndex[other]? = some location := by
  rw [h.index, hindexed.counter]
  by_cases hkey : other = key
  · simp [hkey, Store.appendPoint, eq_comm]
  · by_cases hgone : other ∈ gone <;> simp [hkey, hgone]

theorem Rebound.live_iff :
    ({ store with engine := after } : Store).Live location ↔
      ∃ other : Bytes, after.pkIndex[other]? = some location := by
  have hunmarked : after.isDeleted location = false ↔ store.engine.isDeleted location = false ∧
      ∀ other : Bytes, store.engine.pkIndex[other]? = some location →
        other ≠ key ∧ other ∉ gone := by
    rw [← Bool.not_eq_true, h.deleted, ← Bool.not_eq_true]
    push Not
    refine and_congr_right fun _ => forall_congr' fun other => ?_
    tauto
  simp only [Rebound.bound_iff h hindexed, Store.Live, Rebound.holds_iff h, hunmarked]
  constructor
  · rintro ⟨hholds | rfl, hdeleted, hkept⟩
    · obtain ⟨other, hbound⟩ := (hindexed.live location).mp ⟨hholds, hdeleted⟩
      exact ⟨other, .inr ⟨(hkept other hbound).1, (hkept other hbound).2, hbound⟩⟩
    · exact ⟨key, .inl ⟨rfl, rfl⟩⟩
  · rintro ⟨other, ⟨rfl, rfl⟩ | ⟨hkey, hgone, hbound⟩⟩
    · refine ⟨.inr rfl, ?_, fun other hbound => ?_⟩
      · by_contra hmarked
        exact not_holds_appendPoint (hindexed.marked _ (by simpa using hmarked))
      · exact absurd (hindexed.holds_of_bound hbound) not_holds_appendPoint
    · obtain ⟨hholds, hdeleted⟩ := (hindexed.live location).mpr ⟨other, hbound⟩
      refine ⟨.inl hholds, hdeleted, fun other' hbound' => ?_⟩
      rw [hindexed.distinct other' other location hbound' hbound]
      exact ⟨hkey, hgone⟩

end

theorem Indexed.rebound (hindexed : Indexed runtime schema written store)
    (h : MutationEngine.Rebound runtime store.engine values key gone after)
    (hwritten : written values) (hvalues : values.length = store.engine.schema.columns.length)
    (hkey : rowPk runtime store.engine.pkColIndices values = key)
    (hcount : store.engine.memtable.rowCount + 1 < 2 ^ 32) :
    Indexed runtime schema written { store with engine := after } where
  declared := h.schema.trans hindexed.declared
  sound := by
    unfold ColumnarMemtable.Sound
    rw [h.memtableSchema, h.rowCount]
    exact h.row.fitting
  schema := h.memtableSchema.trans (hindexed.schema.trans h.schema.symm)
  indices := by rw [h.pkColIndices, h.schema, hindexed.indices]
  counter := by
    rw [h.counter, h.rowCount, hindexed.counter, Nat.mod_eq_of_lt hcount]
  virtual := h.memtableSegmentId.trans hindexed.virtual
  positive := h.nextSegmentId ▸ hindexed.positive
  numbered := h.nextSegmentId ▸ hindexed.numbered
  marked := by
    intro location hmarked
    refine (Rebound.holds_iff h).mpr (.inl ?_)
    obtain hmarked | ⟨other, _, hbound⟩ := (h.deleted location).mp hmarked
    · exact hindexed.marked location hmarked
    · exact hindexed.holds_of_bound hbound
  live location := Rebound.live_iff h hindexed
  distinct := by
    intro first second location hfirst hsecond
    obtain ⟨rfl, rfl⟩ | ⟨_, _, hfirst⟩ := (Rebound.bound_iff h hindexed).mp hfirst <;>
      obtain ⟨rfl, hpoint⟩ | ⟨_, _, hsecond⟩ := (Rebound.bound_iff h hindexed).mp hsecond
    · rfl
    · exact absurd (hindexed.holds_of_bound hsecond) not_holds_appendPoint
    · exact absurd (hindexed.holds_of_bound hfirst) (hpoint ▸ not_holds_appendPoint)
    · exact hindexed.distinct first second location hfirst hsecond
  backed := by
    intro other location hbound
    simp only [h.schema, h.pkColIndices]
    obtain ⟨rfl, rfl⟩ | ⟨_, _, hbound⟩ := (Rebound.bound_iff h hindexed).mp hbound
    · exact ⟨values, hwritten, hvalues, hkey, fun index column value read hcolumn hvalue hreads =>
        (Rebound.reads_appendPoint h hindexed hcolumn hvalue).mp hreads⟩
    · obtain ⟨row, hrow, hlength, hpk, hback⟩ := hindexed.backed other location hbound
      exact ⟨row, hrow, hlength, hpk, fun index column value read hcolumn hvalue hreads =>
        hback index column value read hcolumn hvalue
          ((Rebound.reads_iff_of_holds h hindexed hvalues
            (hindexed.holds_of_bound hbound)).mp hreads)⟩

end Rebinding

/-! ## Rows taken out of the index -/

/-- The rows stay where they are.  The keys `removed` are unbound and their rows marked. -/
structure MutationEngine.Unbound (before : MutationEngine) (removed : Bytes → Prop)
    (after : MutationEngine) : Prop where
  schema : after.schema = before.schema
  pkColIndices : after.pkColIndices = before.pkColIndices
  memtableSegmentId : after.memtableSegmentId = before.memtableSegmentId
  nextSegmentId : after.nextSegmentId = before.nextSegmentId
  counter : after.memtableRowCounter = before.memtableRowCounter
  memtable : after.memtable = before.memtable
  index : ∀ (key : Bytes) (location : RowLocation), after.pkIndex[key]? = some location ↔
    before.pkIndex[key]? = some location ∧ ¬removed key
  deleted : ∀ location, after.isDeleted location = true ↔
    before.isDeleted location = true ∨
      ∃ key, removed key ∧ before.pkIndex[key]? = some location

theorem Indexed.unbound {removed : Bytes → Prop} {after : MutationEngine}
    (hindexed : Indexed runtime schema written store)
    (h : MutationEngine.Unbound store.engine removed after) :
    Indexed runtime schema written { store with engine := after } := by
  have hsegment (id : Nat) :
      ({ store with engine := after } : Store).segmentAt id = store.segmentAt id := by
    simp only [Store.segmentAt, h.memtableSegmentId, h.memtable]
  have hholds (location : RowLocation) :
      ({ store with engine := after } : Store).Holds location ↔ store.Holds location := by
    simp only [Store.Holds, hsegment]
  have hreads {location : RowLocation} {index : Nat} {read : Value}
      (hread : ({ store with engine := after } : Store).Reads runtime location index read) :
      store.Reads runtime location index read := by
    simpa only [Store.Reads, hsegment, h.schema] using hread
  exact
    { declared := h.schema.trans hindexed.declared
      sound := h.memtable ▸ hindexed.sound
      schema := by rw [h.memtable, h.schema, hindexed.schema]
      indices := by rw [h.pkColIndices, h.schema, hindexed.indices]
      counter := by rw [h.counter, h.memtable, hindexed.counter]
      virtual := h.memtableSegmentId.trans hindexed.virtual
      positive := h.nextSegmentId ▸ hindexed.positive
      numbered := h.nextSegmentId ▸ hindexed.numbered
      marked := by
        intro location hmarked
        rw [hholds]
        obtain hmarked | ⟨key, _, hbound⟩ := (h.deleted location).mp hmarked
        · exact hindexed.marked location hmarked
        · exact hindexed.holds_of_bound hbound
      live := by
        intro location
        show ({ store with engine := after } : Store).Holds location ∧
          after.isDeleted location = false ↔ ∃ key : Bytes, after.pkIndex[key]? = some location
        rw [hholds, ← Bool.not_eq_true, h.deleted]
        simp only [h.index]
        constructor
        · rintro ⟨hheld, hkept⟩
          have hlive : store.Live location :=
            ⟨hheld, by simpa using fun hmarked => hkept (.inl hmarked)⟩
          obtain ⟨key, hbound⟩ := (hindexed.live location).mp hlive
          exact ⟨key, hbound, fun hremoved => hkept (.inr ⟨key, hremoved, hbound⟩)⟩
        · rintro ⟨key, hbound, hkept⟩
          obtain ⟨hheld, hdeleted⟩ := (hindexed.live location).mpr ⟨key, hbound⟩
          refine ⟨hheld, ?_⟩
          rintro (hmarked | ⟨other, hremoved, hother⟩)
          · simp [hdeleted] at hmarked
          · exact hkept (hindexed.distinct other key location hother hbound ▸ hremoved)
      distinct := fun key other location hkey hother =>
        hindexed.distinct key other location ((h.index key location).mp hkey).1
          ((h.index other location).mp hother).1
      backed := by
        intro key location hbound
        obtain ⟨row, hrow, hlength, hpk, hback⟩ :=
          hindexed.backed key location ((h.index key location).mp hbound).1
        simp only [h.schema, h.pkColIndices]
        exact ⟨row, hrow, hlength, hpk, fun index column value read hcolumn hvalue hread =>
          hback index column value read hcolumn hvalue (hreads hread)⟩ }

theorem MutationEngine.delete_unbound {self : MutationEngine} {pkValue : Value}
    {location : RowLocation} (hlocation : self.pkIndex[encodePk runtime pkValue]? = some location) :
    Unbound self (fun key => key = encodePk runtime pkValue) (self.delete runtime pkValue).1 := by
  have hdelete : (self.delete runtime pkValue).1 =
      { self.markDeleted location with
        pkIndex := self.pkIndex.erase (encodePk runtime pkValue) } := by
    simp only [delete, hlocation]
    rfl
  rw [hdelete]
  refine ⟨rfl, rfl, rfl, rfl, rfl, rfl, fun key bound => ?_, fun other => ?_⟩
  · refine ⟨fun hbound => (getElem?_erase_eq_some_iff.mp hbound).symm, ?_⟩
    rintro ⟨hbound, hkey⟩
    exact (getElem?_erase_ne _ hkey).trans hbound
  · refine isDeleted_markDeleted.trans (or_congr_right ?_)
    simp [hlocation, eq_comm]

theorem Indexed.delete (hindexed : Indexed runtime schema written store) (pkValue : Value) :
    Indexed runtime schema written
      { store with engine := (store.engine.delete runtime pkValue).1 } := by
  cases hlocation : store.engine.pkIndex[encodePk runtime pkValue]? with
  | none =>
    have hsame : (store.engine.delete runtime pkValue).1 = store.engine := by
      simp only [MutationEngine.delete, hlocation]
    rw [hsame]
    exact hindexed
  | some location => exact hindexed.unbound (delete_unbound hlocation)

/-! ## Single rows -/

theorem MutationEngine.extractPkBytes_ok {self : MutationEngine} {values : List Value}
    {pkBytes : Bytes} (h : self.extractPkBytes runtime values = .ok pkBytes) :
    values.length = self.schema.columns.length ∧
      rowPk runtime self.pkColIndices values = pkBytes := by
  unfold extractPkBytes at h
  split at h
  · simp at h
  · rename_i hlength
    exact ⟨not_not.mp hlength, Except.ok.inj h⟩

/-- A row the condition allows: it is one of the rows written, and the memtable has room. -/
structure RowAllowed (runtime : Runtime) (written : List Value → Prop) (store : Store)
    (values : List Value) : Prop where
  written : written values
  room : store.engine.HasRoom runtime values
  count : store.engine.memtable.rowCount + 1 < 2 ^ 32

section Writes

variable {store : Store} {values : List Value} {pkBytes : Bytes} {surrogate : Option Nat}

section

variable (hindexed : Indexed runtime schema written store)
include hindexed

theorem Indexed.commitRow {replaced : List RowLocation}
    (hallowed : RowAllowed runtime written store values)
    (hextract : store.engine.extractPkBytes runtime values = .ok pkBytes)
    (hreplaced : ∀ location, location ∈ replaced ↔
      store.engine.pkIndex[pkBytes]? = some location) :
    Indexed runtime schema written
      { store with engine :=
        (store.engine.commitRow runtime values pkBytes surrogate replaced).1 } := by
  obtain ⟨hlength, hkey⟩ := extractPkBytes_ok hextract
  rcases hcommit : store.engine.commitRow runtime values pkBytes surrogate replaced with
    ⟨next, error | records⟩
  · rw [commitRow_error hindexed.sound hallowed.room hcommit]
    exact hindexed
  · have hrebound := @commitRow_ok _ _ _ _ _ _ _ _ hindexed.sound hallowed.room
      hcommit [] (by simp) (by simpa using hreplaced)
    exact hindexed.rebound hrebound hallowed.written hlength hkey hallowed.count

theorem Indexed.upsertRow (hflat : store.engine.schema.isBitemporal = false)
    (hallowed : RowAllowed runtime written store values) :
    Indexed runtime schema written
      { store with engine := (store.engine.upsertRow runtime values surrogate).1 } := by
  unfold MutationEngine.upsertRow
  split
  · exact hindexed
  · rename_i pkBytes hextract
    simp only [hflat, Bool.false_eq_true, if_false]
    exact hindexed.commitRow hallowed hextract (by simp)

theorem Indexed.insertIfAbsent (hallowed : RowAllowed runtime written store values) :
    Indexed runtime schema written
      { store with engine := (store.engine.insertIfAbsent runtime values).1 } := by
  unfold MutationEngine.insertIfAbsent
  split
  · exact hindexed
  · rename_i pkBytes hextract
    split
    · exact hindexed
    · rename_i habsent
      have hnone : store.engine.pkIndex[pkBytes]? = none :=
        TreeMap.getElem?_eq_none fun hmem => habsent (TreeMap.contains_iff_mem.mpr hmem)
      exact hindexed.commitRow hallowed hextract (by simp [hnone])

end

variable {oldPk : Value} {flushedSurrogate : Option Nat}

theorem MutationEngine.update_error {self next : MutationEngine} {error : ColumnarError}
    (hsound : self.memtable.Sound) (hroom : self.HasRoom runtime values)
    (hupdate : self.update runtime oldPk values flushedSurrogate = (next, .error error)) :
    next = self := by
  unfold update at hupdate
  dsimp only at hupdate
  split at hupdate
  · exact (Prod.mk.inj hupdate).1.symm
  · split at hupdate
    · exact (Prod.mk.inj hupdate).1.symm
    · split at hupdate
      · rename_i hcommit
        obtain ⟨rfl, _⟩ := Prod.mk.inj hupdate
        exact commitRow_error hsound hroom hcommit
      · exact nomatch (Prod.mk.inj hupdate).2

theorem MutationEngine.update_ok {self next : MutationEngine} {records : MutationResult}
    (hsound : self.memtable.Sound) (hflat : self.schema.isBitemporal = false)
    (hroom : self.HasRoom runtime values)
    (hupdate : self.update runtime oldPk values flushedSurrogate = (next, .ok records)) :
    ∃ oldLocation newPkBytes, self.pkIndex[encodePk runtime oldPk]? = some oldLocation ∧
      self.extractPkBytes runtime values = .ok newPkBytes ∧
      Rebound runtime self values newPkBytes
        (if newPkBytes = encodePk runtime oldPk then [] else [encodePk runtime oldPk]) next := by
  unfold update at hupdate
  dsimp only at hupdate
  split at hupdate
  · exact nomatch (Prod.mk.inj hupdate).2
  · rename_i oldLocation hold
    split at hupdate
    · exact nomatch (Prod.mk.inj hupdate).2
    · rename_i newPkBytes hextract
      refine ⟨oldLocation, newPkBytes, hold, hextract, ?_⟩
      split at hupdate
      · exact nomatch (Prod.mk.inj hupdate).2
      · rename_i committed walRecords hcommit
        obtain ⟨rfl, _⟩ := Prod.mk.inj hupdate
        by_cases hkey : newPkBytes = encodePk runtime oldPk
        · -- the row is replaced under its own key
          subst hkey
          simp only [ne_eq, not_true, false_and, if_false, Option.toList_none] at hcommit
          simp only [ne_eq, not_true, if_false, if_true]
          exact @commitRow_ok _ _ _ _ _ _ _ _ hsound hroom hcommit [] (by simp)
            (by simp [hold, eq_comm])
        · simp only [ne_eq, hkey, not_false_eq_true, hflat, Bool.false_eq_true, true_and,
            if_true] at hcommit
          simp only [ne_eq, hkey, not_false_eq_true, if_true, if_false]
          exact @commitRow_ok _ _ _ _ _ _ _ _ hsound hroom hcommit [encodePk runtime oldPk]
            (by simp [Ne.symm hkey])
            (by
              intro location
              simp [hold, or_and_right, exists_or, eq_comm, or_comm])

theorem Indexed.update (hindexed : Indexed runtime schema written store)
    (hflat : store.engine.schema.isBitemporal = false)
    (hallowed : RowAllowed runtime written store values) :
    Indexed runtime schema written
      { store with engine :=
        (store.engine.update runtime oldPk values flushedSurrogate).1 } := by
  rcases hupdate : store.engine.update runtime oldPk values flushedSurrogate with
    ⟨next, error | records⟩
  · rw [update_error hindexed.sound hallowed.room hupdate]
    exact hindexed
  · obtain ⟨_, _, _, hextract, hrebound⟩ :=
      update_ok hindexed.sound hflat hallowed.room hupdate
    obtain ⟨hlength, hkey⟩ := extractPkBytes_ok hextract
    exact hindexed.rebound hrebound hallowed.written hlength hkey hallowed.count

end Writes

/-! ## Flushes -/

theorem PkIndex.getElem?_remapSegment (index : PkIndex) (oldSegmentId : Nat)
    (remap : Nat → Option RowLocation) (key : Bytes) :
    (index.remapSegment oldSegmentId remap)[key]? =
      (index[key]?).bind fun location =>
        if location.segmentId = oldSegmentId then remap location.rowIndex else some location := by
  refine (getElem?_foldl_toList_alter
    (fun _ (location : RowLocation) _ => remap location.rowIndex) _ index key).trans ?_
  rw [TreeMap.getElem?_filter']
  cases hbound : index[key]? with
  | none => rfl
  | some location =>
    by_cases hsegment : location.segmentId = oldSegmentId <;>
      simp [Option.filter, hsegment]

section Flush

variable {store : Store}

def Store.unflushed (store : Store) (location : RowLocation) : RowLocation :=
  if location.segmentId = store.engine.nextSegmentId then
    { segmentId := 0, rowIndex := location.rowIndex }
  else
    location

theorem flush_engine (hnumber : store.engine.nextSegmentId + 1 < 2 ^ 64) :
    store.flush.engine =
      { store.engine with
        memtable := store.engine.memtable.drain.2
        pkIndex := store.engine.pkIndex.remapSegment store.engine.memtableSegmentId fun oldRow =>
          some { segmentId := store.engine.nextSegmentId, rowIndex := oldRow }
        deleteBitmaps := match store.engine.deleteBitmaps[store.engine.memtableSegmentId]? with
          | some bitmap =>
            (store.engine.deleteBitmaps.erase store.engine.memtableSegmentId).insert
              store.engine.nextSegmentId bitmap
          | none => store.engine.deleteBitmaps
        nextSegmentId := store.engine.nextSegmentId + 1
        memtableRowCounter := 0
        memtableSurrogates := [] } :=
  congrArg Prod.fst (if_pos hnumber)

section

variable (hindexed : Indexed runtime schema written store)
include hindexed

theorem Indexed.not_holds_next {location : RowLocation}
    (hsegment : location.segmentId = store.engine.nextSegmentId) : ¬store.Holds location := by
  rintro ⟨columns, rowCount, hheld, _⟩
  have hpositive := hindexed.positive
  simp only [Store.segmentAt, hindexed.virtual, hsegment, hpositive.ne', if_false,
    Option.map_eq_some_iff] at hheld
  obtain ⟨segment, hsegment, _⟩ := hheld
  exact (hindexed.numbered _ _ hsegment).2.ne rfl

variable (hnumber : store.engine.nextSegmentId + 1 < 2 ^ 64)
include hnumber

theorem Indexed.segmentAt_flush (location : RowLocation) :
    store.flush.segmentAt location.segmentId =
      if location.segmentId = 0 then some (emptyColumns store.engine.memtable.schema, 0)
      else store.segmentAt (store.unflushed location).segmentId := by
  simp only [Store.segmentAt, flush_engine hnumber, hindexed.virtual, Store.unflushed]
  by_cases hzero : location.segmentId = 0
  · simp [hzero, drain]
  · by_cases hnext : location.segmentId = store.engine.nextSegmentId
    · simp only [hnext, if_true, Store.flush, drain, TreeMap.getElem?_insert_self, Option.map_some]
    · simp only [hnext, if_false, hzero, Store.flush, getElem?_insert_ne _ hnext]

theorem Indexed.isDeleted_flush (location : RowLocation) :
    store.flush.engine.isDeleted location = true ↔
      location.segmentId ≠ 0 ∧ store.engine.isDeleted (store.unflushed location) = true := by
  have hpositive := hindexed.positive
  have hunmarked : ∀ row bitmap,
      store.engine.deleteBitmaps[store.engine.nextSegmentId]? = some bitmap → row ∉ bitmap := by
    intro row bitmap hbitmap hrow
    exact hindexed.not_holds_next rfl (hindexed.marked ⟨store.engine.nextSegmentId, row⟩
      (isDeleted_iff.mpr ⟨bitmap, hbitmap, hrow⟩))
  obtain ⟨segment, row⟩ := location
  simp only [isDeleted_iff, flush_engine hnumber, hindexed.virtual, Store.unflushed]
  cases hheld : store.engine.deleteBitmaps[0]? with
  | none =>
    by_cases hnext : segment = store.engine.nextSegmentId
    · simpa [hnext, hheld] using hunmarked row
    · simp only [hnext, if_false]
      refine ⟨?_, And.right⟩
      rintro ⟨bitmap, hbitmap, hrow⟩
      refine ⟨?_, bitmap, hbitmap, hrow⟩
      rintro rfl
      simp [hheld] at hbitmap
  | some bitmap =>
    simp only [getElem?_insert_eq_some_iff]
    by_cases hnext : segment = store.engine.nextSegmentId
    · simp [hnext, hheld, hpositive.ne']
    · simp only [hnext, false_and, ne_eq, not_false_eq_true, true_and, false_or, if_false]
      constructor
      · rintro ⟨bitmap', hbitmap, hrow⟩
        obtain ⟨hzero, hbitmap⟩ := getElem?_erase_eq_some_iff.mp hbitmap
        exact ⟨hzero, bitmap', hbitmap, hrow⟩
      · rintro ⟨hzero, bitmap', hbitmap, hrow⟩
        exact ⟨bitmap', (getElem?_erase_ne _ hzero).trans hbitmap, hrow⟩

theorem Indexed.bound_flush {key : Bytes} {location : RowLocation} :
    store.flush.engine.pkIndex[key]? = some location ↔
      location.segmentId ≠ 0 ∧ store.engine.pkIndex[key]? = some (store.unflushed location) := by
  have hpositive := hindexed.positive
  have hbound : ∀ other, store.engine.pkIndex[key]? = some other →
      other.segmentId ≠ store.engine.nextSegmentId := by
    intro other hother hsegment
    exact hindexed.not_holds_next hsegment (hindexed.holds_of_bound hother)
  simp only [flush_engine hnumber, PkIndex.getElem?_remapSegment, hindexed.virtual,
    Option.bind_eq_some_iff, Store.unflushed]
  obtain ⟨segment, row⟩ := location
  constructor
  · rintro ⟨⟨segment', row'⟩, hother, hmoved⟩
    have hne := hbound _ hother
    simp only at hmoved hne
    split at hmoved
    · rename_i hzero
      obtain ⟨rfl, rfl⟩ := hmoved
      subst hzero
      simp [hother, hpositive.ne']
    · rename_i hzero
      simp only [Option.some.injEq, RowLocation.mk.injEq] at hmoved
      obtain ⟨rfl, rfl⟩ := hmoved
      simp [hother, hne, hzero]
  · rintro ⟨hzero, hother⟩
    refine ⟨_, hother, ?_⟩
    by_cases hnext : segment = store.engine.nextSegmentId
    · simp [hnext]
    · simp only at hzero
      simp [hnext, hzero]

theorem Indexed.flush : Indexed runtime schema written store.flush := by
  have hengine := flush_engine hnumber
  have hsegment := hindexed.segmentAt_flush hnumber
  have hrow (location : RowLocation) :
      (store.unflushed location).rowIndex = location.rowIndex := by
    unfold Store.unflushed
    split <;> rfl
  have hholds (location : RowLocation) : store.flush.Holds location ↔
      location.segmentId ≠ 0 ∧ store.Holds (store.unflushed location) := by
    unfold Store.Holds
    rw [hsegment, hrow]
    by_cases hzero : location.segmentId = 0 <;> simp [hzero]
  have hreads {location : RowLocation} {index : Nat} {read : Value}
      (hzero : location.segmentId ≠ 0) (hread : store.flush.Reads runtime location index read) :
      store.Reads runtime (store.unflushed location) index read := by
    simpa only [Store.Reads, hsegment, hzero, if_false, hengine, hrow] using hread
  exact
    { declared := hengine ▸ hindexed.declared
      sound := hengine ▸ sound_new store.engine.memtable.schema
      schema := hengine ▸ hindexed.schema
      indices := hengine ▸ hindexed.indices
      counter := hengine ▸ rfl
      virtual := hengine ▸ hindexed.virtual
      positive := hengine ▸ Nat.succ_pos _
      numbered := by
        intro id segment hheld
        rw [hengine]
        rcases getElem?_insert_eq_some_iff.mp hheld with ⟨rfl, _⟩ | ⟨_, hheld⟩
        · exact ⟨hindexed.positive, Nat.lt_succ_self _⟩
        · obtain ⟨hpositive, hlt⟩ := hindexed.numbered id segment hheld
          exact ⟨hpositive, Nat.lt_succ_of_lt hlt⟩
      marked := by
        intro location hmarked
        obtain ⟨hzero, hmarked⟩ := (hindexed.isDeleted_flush hnumber location).mp hmarked
        exact (hholds location).mpr ⟨hzero, hindexed.marked _ hmarked⟩
      live := by
        intro location
        have hdeleted := hindexed.isDeleted_flush hnumber location
        simp only [hindexed.bound_flush hnumber, exists_and_left, ← hindexed.live, Store.Live,
          hholds]
        by_cases hzero : location.segmentId = 0
        · simp [hzero]
        · simp only [hzero, ne_eq, not_false_eq_true, true_and] at hdeleted ⊢
          rw [Bool.eq_iff_iff.mpr hdeleted]
      distinct := by
        intro key other location hkey hother
        exact hindexed.distinct key other _ ((hindexed.bound_flush hnumber).mp hkey).2
          ((hindexed.bound_flush hnumber).mp hother).2
      backed := by
        intro key location hbound
        obtain ⟨hzero, hbound⟩ := (hindexed.bound_flush hnumber).mp hbound
        obtain ⟨row, hwritten, hlength, hpk, hback⟩ := hindexed.backed key _ hbound
        refine ⟨row, hwritten, ?_, ?_, fun index column value read hcolumn hvalue hread => ?_⟩
        · rwa [hengine]
        · rwa [hengine]
        · rw [hengine] at hcolumn
          exact hback index column value read hcolumn hvalue (hreads hzero hread) }

end

end Flush

end NodeDB.Columnar
