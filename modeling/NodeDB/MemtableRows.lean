import NodeDB.ColumnCells
import NodeDB.MutationEngine

/-!
# Rows of the memtable

A row is appended column by column.  A row that is refused leaves the memtable
as it was, and a row that is taken adds one cell to every column: the cell its
value has in a column of its own.
-/

namespace NodeDB.Columnar

open List

variable {runtime : Runtime}

def ReadsBack (runtime : Runtime) (column : ColumnDef) (value read : Value) : Prop :=
  ∃ alone, (ColumnData.new column.columnType column.nullable).push runtime value column.name
      column.columnType = .ok alone ∧
    alone.getValue runtime 0 column.columnType column.name = some (.ok read)

def cellBytes (runtime : Runtime) (column : ColumnDef) (value : Value) : Nat :=
  match (ColumnData.new column.columnType column.nullable).push runtime value column.name
      column.columnType with
  | .ok alone => alone.dataLength
  | .error _ => 0

/-- The column holds `n` rows of the declared type. -/
structure ColumnData.Fits (column : ColumnDef) (n : Nat) (data : ColumnData) : Prop where
  aligned : data.Aligned n
  kind : data.emptied = .new column.columnType column.nullable

def Fitting (schema : List ColumnDef) (n : Nat) (columns : List ColumnData) : Prop :=
  List.Forall₂ (fun column data => ColumnData.Fits column n data) schema columns

def Room (runtime : Runtime) (schema : List ColumnDef) (values : List Value)
    (columns : List ColumnData) : Prop :=
  ∀ (index : Nat) (column : ColumnDef) (value : Value) (data : ColumnData),
    schema[index]? = some column → values[index]? = some value → columns[index]? = some data →
      data.dataLength + cellBytes runtime column value < 2 ^ 32

structure RowAppended (runtime : Runtime) (n : Nat) (schema : List ColumnDef)
    (values : List Value) (columns appended : List ColumnData) : Prop where
  fitting : Fitting schema (n + 1) appended
  cut : ∀ {k}, k ≤ n → appended.map (·.truncate k) = columns.map (·.truncate k)
  cells : ∀ (index : Nat) (column : ColumnDef) (value : Value) (data : ColumnData),
    schema[index]? = some column → values[index]? = some value → columns[index]? = some data →
      ∃ after : ColumnData, appended[index]? = some after ∧
        after.dataLength = data.dataLength + cellBytes runtime column value ∧
        (∀ {row}, row < n → after.getValue runtime row column.columnType column.name =
          data.getValue runtime row column.columnType column.name) ∧
        ∀ {read}, after.getValue runtime n column.columnType column.name = some (.ok read) ↔
          ReadsBack runtime column value read

variable {column : ColumnDef} {n : Nat} {data : ColumnData} {value : Value}
  {schema : List ColumnDef} {columns : List ColumnData} {values : List Value}

theorem ColumnData.Fits.push {after : ColumnData} (h : data.Fits column n)
    (hpush : data.push runtime value column.name column.columnType = .ok after)
    (hroom : data.dataLength + cellBytes runtime column value < 2 ^ 32) :
    after.Fits column (n + 1) ∧
      after.dataLength = data.dataLength + cellBytes runtime column value ∧
      ∃ alone, (ColumnData.new column.columnType column.nullable).push runtime value column.name
          column.columnType = .ok alone ∧ ColumnData.Appends n data after alone := by
  obtain ⟨alone, halone, hlength, happends⟩ := ColumnData.push_appends h.aligned hpush
  rw [h.kind] at halone
  have hbytes : cellBytes runtime column value = alone.dataLength := by
    rw [cellBytes, halone]
  rw [hbytes] at hroom ⊢
  have happended := happends (hlength ▸ hroom)
  exact ⟨⟨happended.aligned, happended.emptied.trans h.kind⟩, hlength, alone, halone, happended⟩

theorem Fitting.truncate_self
    (h : Fitting schema n columns) : columns.map (·.truncate n) = columns := by
  induction h with
  | nil => rfl
  | cons hfits _ ih => rw [map_cons, hfits.aligned.truncate_self, ih]

theorem Room.tail (h : Room runtime (column :: schema) (value :: values) (data :: columns)) :
    Room runtime schema values columns :=
  fun index column value data hcolumn hvalue hdata =>
    h (index + 1) column value data (by simpa using hcolumn) (by simpa using hvalue)
      (by simpa using hdata)

theorem RowAppended.cons {after : ColumnData} {appended : List ColumnData}
    (hfits : data.Fits column n)
    (hpush : data.push runtime value column.name column.columnType = .ok after)
    (hroom : data.dataLength + cellBytes runtime column value < 2 ^ 32)
    (hrest : RowAppended runtime n schema values columns appended) :
    RowAppended runtime n (column :: schema) (value :: values) (data :: columns)
      (after :: appended) := by
  obtain ⟨hafter, hlength, alone, halone, happends⟩ := hfits.push hpush hroom
  refine ⟨.cons hafter hrest.fitting, fun hk => ?_, ?_⟩
  · rw [map_cons, map_cons, happends.cut hk, hrest.cut hk]
  · rintro (_ | index) column' value' data' hcolumn hvalue hdata
    · simp only [getElem?_cons_zero, Option.some.injEq] at hcolumn hvalue hdata
      subst hcolumn hvalue hdata
      refine ⟨after, rfl, hlength, happends.earlier, fun hread => ⟨alone, halone,
        happends.own.mp hread⟩, ?_⟩
      rintro ⟨_, hpushed, hread⟩
      obtain rfl := Except.ok.inj (halone.symm.trans hpushed)
      exact happends.own.mpr hread
    · simp only [getElem?_cons_succ] at hcolumn hvalue hdata ⊢
      exact hrest.cells index column' value' data' hcolumn hvalue hdata

theorem pushRow_none {appended : List ColumnData} (hfitting : Fitting schema n columns)
    (hvalues : values.length = schema.length) (hroom : Room runtime schema values columns)
    (hpush : pushRow runtime schema values columns = (appended, none)) :
    RowAppended runtime n schema values columns appended := by
  induction hfitting generalizing values appended with
  | nil =>
    obtain rfl : values = [] := eq_nil_of_length_eq_zero hvalues
    obtain rfl : [] = appended := (Prod.mk.inj hpush).1
    exact ⟨.nil, fun _ => rfl, by simp⟩
  | @cons column data schema columns hfits _ ih =>
    obtain ⟨value, rest, rfl⟩ := exists_cons_of_length_eq_add_one hvalues
    rw [pushRow] at hpush
    split at hpush
    · simp at hpush
    · split at hpush
      · simp at hpush
      · rename_i after hafter
        obtain ⟨rfl, hnone⟩ := Prod.mk.inj hpush
        exact .cons hfits hafter (hroom 0 column value data rfl rfl rfl)
          (ih (by simpa using hvalues) hroom.tail (Prod.ext rfl hnone))

theorem pushRow_some {pushed : List ColumnData}
    {error : ColumnarError} (hfitting : Fitting schema n columns)
    (hvalues : values.length = schema.length) (hroom : Room runtime schema values columns)
    (hpush : pushRow runtime schema values columns = (pushed, some error)) :
    pushed.map (·.truncate n) = columns := by
  induction hfitting generalizing values pushed with
  | nil =>
    obtain rfl : values = [] := eq_nil_of_length_eq_zero hvalues
    simp [pushRow] at hpush
  | @cons column data schema columns hfits hrest ih =>
    obtain ⟨value, rest, rfl⟩ := exists_cons_of_length_eq_add_one hvalues
    rw [pushRow] at hpush
    split at hpush
    · obtain ⟨rfl, _⟩ := Prod.mk.inj hpush
      exact Fitting.truncate_self (.cons hfits hrest)
    · split at hpush
      · obtain ⟨rfl, _⟩ := Prod.mk.inj hpush
        exact Fitting.truncate_self (.cons hfits hrest)
      · rename_i after hafter
        obtain ⟨rfl, hsome⟩ := Prod.mk.inj hpush
        obtain ⟨_, _, _, _, happends⟩ := hfits.push hafter (hroom 0 column value data rfl rfl rfl)
        rw [map_cons, happends.cut le_rfl, hfits.aligned.truncate_self,
          ih (by simpa using hvalues) hroom.tail (Prod.ext rfl hsome)]

/-! ## The memtable -/

namespace ColumnarMemtable

def Sound (self : ColumnarMemtable) : Prop :=
  Fitting self.schema.columns self.rowCount self.columns

variable {self next : ColumnarMemtable} {values : List Value}

theorem appendRow_error (hsound : self.Sound)
    (hroom : Room runtime self.schema.columns values self.columns) {error : ColumnarError}
    (happend : self.appendRow runtime values = (next, .error error)) : next = self := by
  unfold appendRow at happend
  split at happend
  · exact (Prod.mk.inj happend).1.symm
  · rename_i hvalues
    split at happend
    · rename_i pushed _ hpush
      obtain ⟨rfl, _⟩ := Prod.mk.inj happend
      rw [pushRow_some hsound (not_not.mp hvalues) hroom hpush]
    · simp at happend

theorem appendRow_ok (hsound : self.Sound)
    (hroom : Room runtime self.schema.columns values self.columns) {done : Unit}
    (happend : self.appendRow runtime values = (next, .ok done)) :
    values.length = self.schema.columns.length ∧ next.schema = self.schema ∧
      next.rowCount = self.rowCount + 1 ∧
      RowAppended runtime self.rowCount self.schema.columns values self.columns next.columns := by
  unfold appendRow at happend
  split at happend
  · simp at happend
  · rename_i hvalues
    split at happend
    · simp at happend
    · rename_i pushed hpush
      obtain ⟨rfl, _⟩ := Prod.mk.inj happend
      exact ⟨not_not.mp hvalues, rfl, rfl,
        pushRow_none hsound (not_not.mp hvalues) hroom hpush⟩

theorem sound_new (schema : ColumnarSchema) : (ColumnarMemtable.new schema).Sound := by
  unfold Sound Fitting ColumnarMemtable.new emptyColumns
  rw [List.forall₂_map_right_iff]
  exact List.forall₂_same.mpr fun column _ =>
    ⟨ColumnData.aligned_new .., ColumnData.emptied_new ..⟩

end ColumnarMemtable

end NodeDB.Columnar
