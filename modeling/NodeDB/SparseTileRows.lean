import NodeDB.ArrayStore

/-!
# A built tile gives back its rows

The builder keeps, for the rows pushed so far, the columns of exactly these
rows.  Extracting a coordinate then finds the first row that has it, and a
tile materialised from a buffer answers like the buffer.
-/

namespace NodeDB.ArrayEngine

open ByteFrame Std List Option CellPayload CoordValue SparseTile

/-! ## Coordinates without two names -/

/-- A value that compares equal to itself only: floats other than NaN and the
negative zero, and everything that is no float. -/
def CoordValue.Plain : CoordValue → Prop
  | .float64 bits => isNan bits = false ∧ bits ≠ negativeZero
  | _ => True

theorem CoordValue.same_iff {a b : CoordValue} (ha : a.Plain) (hb : b.Plain) :
    a.same b = true ↔ a = b := by
  cases a with
  | float64 bits =>
    cases b with
    | float64 other =>
      simp only [CoordValue.Plain] at ha hb
      simp only [same, isZero, ha.1, hb.1, Bool.not_false, Bool.true_and,
        Bool.or_eq_true, Bool.and_eq_true, beq_iff_eq, ha.2, hb.2, or_false,
        float64.injEq]
      constructor
      · rintro (heq | ⟨hzero, hzero'⟩)
        · exact heq
        · rw [hzero, hzero']
      · exact Or.inl
    | int64 other | timestampMs other | string other => simp [same]
  | int64 value | timestampMs value | string value => simp [same]

def Plain (coord : Coord) : Prop := ∀ value ∈ coord, value.Plain

/-! ## Dictionaries and columns -/

def DimDict.Lists (dict : DimDict) (column : List CoordValue) : Prop :=
  dict.indices.map (fun index => dict.values[index]?) = column.map some

variable {dict : DimDict}

theorem DimDict.Lists.push {column : List CoordValue} (h : dict.Lists column) (value : CoordValue) :
    (dict.push value).Lists (column ++ [value]) := by
  unfold DimDict.push
  split
  · rename_i index hindex
    obtain ⟨hlt, heq, -⟩ := idxOf?_eq_some_iff.mp hindex
    have hvalue : dict.values[index]? = some value := by
      rw [List.getElem?_eq_getElem hlt, heq]
    simp only [DimDict.Lists, map_append, map_cons, map_nil, hvalue]
    rw [h]
  · simp only [DimDict.Lists, map_append, map_cons, map_nil, getElem?_concat_length]
    rw [← h]
    congr 1
    refine map_congr_left fun index hindex => ?_
    -- an index that is in use stays in range
    have hmem : dict.values[index]? ∈ column.map some := by
      rw [← h]
      exact mem_map_of_mem hindex
    obtain ⟨known, -, hknown⟩ := List.mem_map.mp hmem
    rw [← hknown, List.getElem?_append_left (List.getElem?_eq_some_iff.mp hknown.symm).1, ← hknown]

theorem DimDict.Lists.stored {column : List CoordValue} (h : dict.Lists column) {row : Nat}
    {value : CoordValue} (hvalue : column[row]? = some value) :
    ∃ entryIdx, dict.indices[row]? = some entryIdx ∧ dict.values[entryIdx]? = some value := by
  have hrow := congrArg (·[row]?) h
  simp only [getElem?_map, hvalue, map_some] at hrow
  obtain ⟨entryIdx, hentry, hstored⟩ := map_eq_some_iff.mp hrow
  exact ⟨entryIdx, hentry, hstored⟩

section Columns

variable {ν : Type}

variable {α β : Type} {items : List α}

theorem filterMap_concat (f : α → Option β) (items : List α) (item : α) :
    (items ++ [item]).filterMap f = items.filterMap f ++ (f item).toList := by
  rw [filterMap_append, filterMap_cons]
  cases f item <;> rfl

theorem getElem?_filterMap_of_isSome {f : α → Option β} (h : ∀ item ∈ items, (f item).isSome)
    (index : Nat) : (items.filterMap f)[index]? = items[index]?.bind f := by
  induction items generalizing index with
  | nil => rfl
  | cons item rest ih =>
    obtain ⟨value, hvalue⟩ := isSome_iff_exists.mp (h item mem_cons_self)
    rw [filterMap_cons_some hvalue]
    cases index with
    | zero => exact hvalue.symm
    | succ index => exact ih (fun other hother => h other (mem_cons_of_mem _ hother)) index

theorem getElem?_filter_take (p : α → Bool) {index : Nat} {item : α}
    (hitem : items[index]? = some item) (hp : p item = true) :
    (items.filter p)[((items.take index).filter p).length]? = some item := by
  obtain ⟨hlt, hget⟩ := List.getElem?_eq_some_iff.mp hitem
  have hsplit : items = items.take index ++ item :: items.drop (index + 1) := by
    rw [← hget, List.getElem_cons_drop, List.take_append_drop]
  have hfilter : items.filter p =
      (items.take index).filter p ++ item :: (items.drop (index + 1)).filter p := by
    conv_lhs => rw [hsplit]
    rw [filter_append, filter_cons_of_pos hp]
  rw [hfilter, getElem?_append_right (Nat.le_refl _), Nat.sub_self]
  rfl

theorem getElem?_pushAttrs (cols : List (List ν)) (attrs : List ν) (index : Nat) :
    (pushAttrs cols attrs)[index]? =
      match attrs[index]? with
      | some attr => cols[index]?.map (· ++ [attr])
      | none => cols[index]? := by
  induction cols, attrs using pushAttrs.induct generalizing index with
  | case1 cols => simp [pushAttrs]
  | case2 attr attrs =>
    simp only [pushAttrs, getElem?_nil, map_none]
    split <;> rfl
  | case3 col cols attr attrs ih =>
    cases index with
    | zero => simp [pushAttrs]
    | succ index => simpa [pushAttrs] using ih index

def liveColumn (rows : List (SparseRow ν)) (index : Nat) : List ν :=
  (rows.filter fun row => row.kind = .live).filterMap fun row => row.attrs[index]?

end Columns

/-! ## What the builder has taken in -/

section Builder

variable {ν : Type} (schema : ArraySchema)

structure SparseRow.Fits (row : SparseRow ν) : Prop where
  coord : row.coord.length = schema.arity
  attrs : row.kind = .live → row.attrs.length = schema.attrCount
  sentinel : row.kind ≠ .live → row.attrs = []

/-- The columns of the tile spell out the rows. -/
structure SparseTile.Holds (tile : SparseTile ν) (rows : List (SparseRow ν)) : Prop where
  fits : ∀ row ∈ rows, row.Fits schema
  dims : tile.dimDicts.length = schema.arity
  dicts : ∀ (dim : Nat) (dict : DimDict), tile.dimDicts[dim]? = some dict →
    dict.Lists (rows.filterMap fun row => row.coord[dim]?)
  cols : tile.attrCols.length = schema.attrCount
  attrs : ∀ (index : Nat) (col : List ν), tile.attrCols[index]? = some col →
    col = liveColumn rows index
  surrogates : tile.surrogates = rows.map fun row => row.surrogate
  validFromMs : tile.validFromMs = rows.map fun row => row.validFromMs
  validUntilMs : tile.validUntilMs = rows.map fun row => row.validUntilMs
  rowKinds : tile.rowKinds = rows.map fun row => row.kind

theorem SparseTile.holds_empty : (SparseTile.empty schema : SparseTile ν).Holds schema [] := by
  refine ⟨by simp, by simp [empty], ?_, by simp [empty], ?_, rfl, rfl, rfl,
    rfl⟩
  · intro dim dict hdict
    obtain rfl := eq_of_mem_replicate (mem_of_getElem? hdict)
    rfl
  · intro index col hcol
    exact eq_of_mem_replicate (mem_of_getElem? hcol)

variable {schema}

variable {tile : SparseTile ν} {rows : List (SparseRow ν)}

theorem SparseTile.Holds.dicts_push (h : tile.Holds schema rows) (row : SparseRow ν) {dim : Nat}
    {dict : DimDict}
    (hdict : (List.zipWith DimDict.push tile.dimDicts row.coord)[dim]? = some dict) :
    dict.Lists ((rows ++ [row]).filterMap fun row => row.coord[dim]?) := by
  rw [getElem?_zipWith] at hdict
  split at hdict
  · rename_i before value hbefore hvalue
    obtain rfl := Option.some.inj hdict
    rw [filterMap_concat, hvalue]
    exact (h.dicts dim before hbefore).push value
  · exact absurd hdict (by simp)

theorem liveColumn_append (rows : List (SparseRow ν)) {row : SparseRow ν}
    (hrow : row.kind ≠ .live → row.attrs = []) (index : Nat) :
    liveColumn (rows ++ [row]) index = liveColumn rows index ++ row.attrs[index]?.toList := by
  by_cases hlive : row.kind = .live
  · have hkept : [row].filter (fun row => decide (row.kind = .live)) = [row] := by simp [hlive]
    rw [liveColumn, filter_append, hkept, filterMap_concat, liveColumn]
  · simp [liveColumn, filter_append, hlive, hrow hlive]

theorem SparseTile.Holds.attrs_push (h : tile.Holds schema rows) {row : SparseRow ν}
    (hrow : row.kind ≠ .live → row.attrs = []) {index : Nat} {col : List ν}
    (hcol : (pushAttrs tile.attrCols row.attrs)[index]? = some col) :
    col = liveColumn (rows ++ [row]) index := by
  rw [liveColumn_append rows hrow]
  rw [getElem?_pushAttrs] at hcol
  split at hcol
  · rename_i attr hattr
    obtain ⟨before, hbefore, rfl⟩ := map_eq_some_iff.mp hcol
    rw [h.attrs index before hbefore, hattr]
    rfl
  · rename_i hattr
    rw [h.attrs index col hcol, hattr, toList_none, append_nil]

theorem length_pushAttrs {cols : List (List ν)} {attrs : List ν} (h : attrs.length ≤ cols.length) :
    (pushAttrs cols attrs).length = cols.length := by
  induction cols, attrs using pushAttrs.induct with
  | case1 cols => rw [pushAttrs]
  | case2 attr attrs => simp at h
  | case3 col cols attr attrs ih =>
    rw [pushAttrs, length_cons, length_cons, ih (by simpa using h)]

theorem SparseTile.Holds.pushRow {pushed : SparseTile ν} (h : tile.Holds schema rows)
    {row : SparseRow ν} (hrow : row.kind ≠ .live → row.attrs = [])
    (hpush : tile.pushRow schema row = .ok pushed) : pushed.Holds schema (rows ++ [row]) := by
  simp only [SparseTile.pushRow, bind_eq_ok, require_eq_ok] at hpush
  obtain ⟨_, -, _, hcoord, _, hattrs, hpushed⟩ := hpush
  obtain rfl := Except.ok.inj hpushed
  have hfits : row.Fits schema := ⟨hcoord, hattrs, hrow⟩
  have hwidth : row.attrs.length ≤ tile.attrCols.length := by
    rw [h.cols]
    by_cases hlive : row.kind = .live
    · exact (hattrs hlive).le
    · rw [hrow hlive]
      exact Nat.zero_le _
  refine ⟨?_, ?_, fun _ _ hdict => h.dicts_push row hdict, ?_,
    fun _ _ hcol => h.attrs_push hrow hcol, ?_, ?_, ?_, ?_⟩
  · intro other hother
    obtain hold | hnew := mem_append.mp hother
    · exact h.fits other hold
    · rwa [mem_singleton.mp hnew]
  · simp only [length_zipWith, h.dims, hcoord, Nat.min_self]
  · simp only
    rw [length_pushAttrs hwidth, h.cols]
  · simp only [h.surrogates, map_append, map_cons, map_nil]
  · simp only [h.validFromMs, map_append, map_cons, map_nil]
  · simp only [h.validUntilMs, map_append, map_cons, map_nil]
  · simp only [h.rowKinds, map_append, map_cons, map_nil]

end Builder

/-! ## Reading rows -/

section Extract

variable {ν : Type} {schema : ArraySchema} {tile : SparseTile ν} {rows : List (SparseRow ν)}

section

variable (h : tile.Holds schema rows)
include h

variable {dim row : Nat}

theorem SparseTile.Holds.stored {stored : SparseRow ν} (hrow : rows[row]? = some stored)
    {value : CoordValue} (hvalue : stored.coord[dim]? = some value) :
    ∃ dict entryIdx, tile.dimDicts[dim]? = some dict ∧ dict.indices[row]? = some entryIdx ∧
      dict.values[entryIdx]? = some value := by
  have hfits := h.fits stored (mem_of_getElem? hrow)
  have hdim : dim < schema.arity := by
    rw [← hfits.coord]
    exact (List.getElem?_eq_some_iff.mp hvalue).1
  have hdict := List.getElem?_eq_getElem (h.dims.symm ▸ hdim : dim < tile.dimDicts.length)
  have hcolumn : (rows.filterMap fun row => row.coord[dim]?)[row]? = some value := by
    rw [getElem?_filterMap_of_isSome ?_, hrow]
    · exact hvalue
    · intro other hother
      rw [List.getElem?_eq_getElem ((h.fits other hother).coord.symm ▸ hdim)]
      rfl
  obtain ⟨entryIdx, hentry, hstored⟩ := (h.dicts dim _ hdict).stored hcolumn
  exact ⟨_, entryIdx, hdict, hentry, hstored⟩

theorem SparseTile.Holds.matchesFrom {stored : SparseRow ν}
    (hrow : rows[row]? = some stored) (hstored : Plain stored.coord) {rest : Coord}
    (hrest : Plain rest) (hlength : dim + rest.length = schema.arity) :
    tile.matchesFrom row dim rest = .ok (decide (stored.coord.drop dim = rest)) := by
  have hcoord := (h.fits stored (mem_of_getElem? hrow)).coord
  induction rest generalizing dim with
  | nil =>
    have hend : stored.coord.drop dim = [] := by
      rw [drop_eq_nil_iff, hcoord, ← hlength]
      exact Nat.le_refl _
    rw [matchesFrom, hend, decide_eq_true rfl]
  | cons value rest ih =>
    obtain ⟨hvalue, hrest⟩ := forall_mem_cons.mp hrest
    have hdim : dim < stored.coord.length := by
      rw [hcoord, ← hlength, length_cons]
      omega
    have hhere := List.getElem?_eq_getElem hdim
    obtain ⟨dict, entryIdx, hdict, hentry, hknown⟩ := h.stored hrow hhere
    have hsame := same_iff (hstored _ (getElem_mem hdim)) hvalue
    rw [matchesFrom, hdict, orCorrupt, ok_bind, hentry, orCorrupt, ok_bind, hknown,
      orCorrupt, ok_bind, drop_eq_getElem_cons hdim]
    rw [length_cons] at hlength
    by_cases heq : stored.coord[dim] = value
    · rw [if_pos (hsame.mpr heq), ih hrest (by omega), heq]
      simp only [List.cons.injEq, true_and]
    · rw [if_neg (mt hsame.mp heq), decide_eq_false]
      simp only [List.cons.injEq, heq, false_and, not_false_eq_true]

theorem SparseTile.Holds.rowKind {stored : SparseRow ν}
    (hrow : rows[row]? = some stored) : tile.rowKind row = stored.kind := by
  rw [SparseTile.rowKind, h.rowKinds, getD_eq_getElem?_getD, getElem?_map, hrow]
  rfl

theorem SparseTile.Holds.liveBefore (hrow : row ≤ rows.length) :
    tile.liveBefore row =
      ((rows.take row).filter fun row => decide (row.kind = .live)).length := by
  induction row with
  | zero => rfl
  | succ row ih =>
    have hhere := List.getElem?_eq_getElem (Nat.lt_of_succ_le hrow)
    have hbefore : tile.liveBefore row = _ := ih (Nat.le_of_succ_le hrow)
    rw [SparseTile.liveBefore] at hbefore ⊢
    rw [range_succ, filter_append, length_append, hbefore,
      take_succ_eq_append_getElem (Nat.lt_of_succ_le hrow), filter_append,
      length_append, filter_singleton, filter_singleton, h.rowKind hhere]
    cases decide (rows[row].kind = .live) <;> rfl

end

theorem mapM_columns {cols : List (List ν)} {attrs : List ν} {liveRow : Nat} {detail : String}
    (hlength : cols.length = attrs.length)
    (hcols : ∀ (index : Nat) (col : List ν), cols[index]? = some col →
      col[liveRow]? = attrs[index]?) :
    (cols.mapM fun col => orCorrupt col[liveRow]? detail) = .ok attrs := by
  induction cols generalizing attrs with
  | nil =>
    obtain rfl := length_eq_zero_iff.mp hlength.symm
    rfl
  | cons col cols ih =>
    obtain ⟨attr, rest, rfl⟩ := exists_cons_of_length_eq_add_one hlength.symm
    have hhere : col[liveRow]? = some attr := hcols 0 col rfl
    have hrest := ih (Nat.succ.inj hlength) fun index other hother =>
      hcols (index + 1) other hother
    rw [mapM_cons, hhere, orCorrupt, ok_bind, hrest, ok_bind]
    rfl

theorem SparseTile.Holds.column (h : tile.Holds schema rows) {row : Nat} {stored : SparseRow ν}
    (hrow : rows[row]? = some stored) (hlive : stored.kind = .live) {index : Nat} {col : List ν}
    (hcol : tile.attrCols[index]? = some col) :
    col[tile.liveBefore row]? = stored.attrs[index]? := by
  have hindex : index < schema.attrCount := by
    rw [← h.cols]
    exact (List.getElem?_eq_some_iff.mp hcol).1
  have hbound := (List.getElem?_eq_some_iff.mp hrow).1
  rw [h.attrs index col hcol, liveColumn, getElem?_filterMap_of_isSome ?_,
    h.liveBefore hbound.le, getElem?_filter_take _ hrow (by simpa using hlive)]
  · rfl
  · intro other hother
    obtain ⟨hmem, hkind⟩ := List.mem_filter.mp hother
    rw [List.getElem?_eq_getElem
      ((h.fits other hmem).attrs (of_decide_eq_true hkind) ▸ hindex)]
    rfl

end Extract

/-! ## Cells as rows -/

inductive Cell (ν : Type) where
  | live (payload : CellPayload ν)
  | tombstone
  | erasure
  deriving DecidableEq, Repr

section Cells

variable {ν : Type} (codec : CellCodec ν)

def Cell.encode : Cell ν → Except ArrayError Bytes
  | .live payload => payload.encode codec
  | .tombstone => .ok cellTombstoneSentinel
  | .erasure => .ok cellGdprErasureSentinel

def Cell.row (coord : Coord) : Cell ν → SparseRow ν
  | .live payload => .live coord payload
  | .tombstone => .sentinel coord .tombstone
  | .erasure => .sentinel coord .gdprErased

theorem Cell.row_coord (coord : Coord) (cell : Cell ν) : (cell.row coord).coord = coord := by
  cases cell <;> rfl

theorem Cell.row_sentinel (coord : Coord) (cell : Cell ν) (h : (cell.row coord).kind ≠ .live) :
    (cell.row coord).attrs = [] := by
  cases cell with
  | live payload => exact absurd rfl h
  | tombstone | erasure => rfl

variable {codec}

variable {payload : CellPayload ν} {bytes : Bytes} {coord : Coord} {cell : Cell ν}
  {schema : ArraySchema} {tile : SparseTile ν} {rows : List (SparseRow ν)}
  {cells : List (Coord × Cell ν)} {entries : List (Bytes × Bytes)} {α β : Type} {r : α → β → Prop}
  {items : List α} {buffer : TileBuffer}

theorem CellPayload.encode_eq_ok :
    payload.encode codec = .ok bytes ↔
      payload.surrogate ≠ 0 ∧ codec.packPayload payload = .ok bytes := by
  simp only [encode, checkBound, bind_eq_ok, require_eq_ok]
  exact ⟨fun ⟨_, hbound, hpack⟩ => ⟨hbound, hpack⟩, fun ⟨hbound, hpack⟩ => ⟨(), hbound, hpack⟩⟩

theorem CellPayload.decode_of_encode (h : payload.encode codec = .ok bytes) :
    CellPayload.decode codec bytes = .ok payload := by
  obtain ⟨hbound, hpack⟩ := encode_eq_ok.mp h
  rw [decode, codec.unpackPayload_packPayload hpack, ok_bind, checkBound,
    require_of _ hbound, ok_bind]
  rfl

theorem rowOf_encode {key : Bytes} (hkey : codec.encodeCoord coord = .ok key)
    (hbytes : cell.encode codec = .ok bytes) : rowOf codec (key, bytes) = .ok (cell.row coord) := by
  simp only [rowOf]
  rw [codec.decodeCoord_encodeCoord hkey, ok_bind]
  cases cell with
  | live payload =>
    have hsentinel := codec.packPayload_not_sentinel (encode_eq_ok.mp hbytes).2
    simp only [isCellSentinel, Bool.or_eq_false_iff] at hsentinel
    rw [hsentinel.1, hsentinel.2, decode_of_encode hbytes]
    rfl
  | tombstone | erasure =>
    obtain rfl := Except.ok.inj hbytes
    rfl

theorem SparseTile.Holds.rowBytes (h : tile.Holds schema rows) {row : Nat}
    (hrow : rows[row]? = some (cell.row coord)) : tile.rowBytes codec row = cell.encode codec := by
  rw [SparseTile.rowBytes, h.rowKind hrow]
  cases cell with
  | tombstone | erasure => rfl
  | live payload =>
    have hfits := h.fits _ (mem_of_getElem? hrow)
    have hattrs : tile.attrCols.length = payload.attrs.length := by
      rw [h.cols]
      exact (hfits.attrs rfl).symm
    have hcols : ∀ (index : Nat) (col : List ν), tile.attrCols[index]? = some col →
        col[tile.liveBefore row]? = payload.attrs[index]? :=
      fun index col hcol => h.column hrow rfl hcol
    simp only [Cell.row, SparseRow.live]
    rw [mapM_columns hattrs hcols, ok_bind, liveSurrogate, h.surrogates,
      h.validFromMs, h.validUntilMs]
    simp only [getElem?_map, hrow, map_some, Cell.row, SparseRow.live, orCorrupt, ok_bind]
    rfl

/-! ## A tile answers like its buffer -/

variable (codec) in
/-- A buffered entry holds the cell under its coordinate. -/
structure Stores (entry : Bytes × Bytes) (version : Coord × Cell ν) : Prop where
  key : codec.encodeCoord version.1 = .ok entry.1
  bytes : version.2.encode codec = .ok entry.2

theorem SparseTile.Holds.extractFrom (h : tile.Holds schema (cells.map fun c => c.2.row c.1))
    (hcells : ∀ c ∈ cells, Plain c.1) (hcoord : Plain coord) (hlength : coord.length = schema.arity)
    {left row : Nat} (hleft : left + row = cells.length) :
    tile.extractFrom codec coord left row =
      match (cells.drop row).find? fun c => decide (c.1 = coord) with
      | none => .ok none
      | some c => do
        let bytes ← c.2.encode codec
        return some bytes := by
  induction left generalizing row with
  | zero =>
    rw [drop_eq_nil_of_le (by omega)]
    rfl
  | succ left ih =>
    have hlt : row < cells.length := by omega
    have hrow : (cells.map fun c => c.2.row c.1)[row]? =
        some (cells[row].2.row cells[row].1) := by
      rw [getElem?_map, List.getElem?_eq_getElem hlt]
      rfl
    have hmatch := h.matchesFrom hrow (Cell.row_coord _ _ ▸ hcells _ (getElem_mem hlt))
      hcoord (Nat.zero_add _ |>.trans hlength)
    rw [drop_zero, Cell.row_coord] at hmatch
    rw [SparseTile.extractFrom, hmatch, ok_bind, drop_eq_getElem_cons hlt, find?_cons,
      h.rowBytes hrow]
    cases hsame : decide (cells[row].1 = coord) with
    | true => rfl
    | false => exact ih (by omega)

theorem pushRows_holds (hstores : List.Forall₂ (Stores codec) entries cells) {start : SparseTile ν}
    (hstart : start.Holds schema rows) (hfold : entries.foldlM
      (fun tile entry => do
        let row ← rowOf codec entry
        tile.pushRow schema row) start = .ok tile) :
    tile.Holds schema (rows ++ cells.map fun c => c.2.row c.1) := by
  induction hstores generalizing start rows with
  | nil =>
    obtain rfl := Except.ok.inj hfold
    rwa [map_nil, append_nil]
  | cons hentry _ ih =>
    rw [foldlM_cons, bind_eq_ok] at hfold
    obtain ⟨pushed, hpushed, hrest⟩ := hfold
    rw [rowOf_encode hentry.key hentry.bytes, ok_bind] at hpushed
    have hnext := hstart.pushRow (Cell.row_sentinel _ _) hpushed
    rw [map_cons, append_cons]
    exact ih hnext hrest

variable (codec) in
/-- Every entry of the buffer holds a cell, under a coordinate with one name. -/
def TileBuffer.Sound (buffer : TileBuffer) : Prop :=
  ∀ entry ∈ buffer.entries.toList, ∃ version : Coord × Cell ν,
    Plain version.1 ∧ Stores codec entry version

theorem exists_forall₂ (h : ∀ item ∈ items, ∃ other, r item other) :
    ∃ others, List.Forall₂ r items others := by
  induction items with
  | nil => exact ⟨[], .nil⟩
  | cons item rest ih =>
    obtain ⟨⟨other, hother⟩, hrest⟩ := forall_mem_cons.mp h
    obtain ⟨others, hothers⟩ := ih hrest
    exact ⟨other :: others, .cons hother hothers⟩

theorem exists_left_of_forall₂ {others : List β} (h : List.Forall₂ r items others) {other : β}
    (hother : other ∈ others) : ∃ item ∈ items, r item other := by
  induction h with
  | nil => exact absurd hother not_mem_nil
  | cons hhead _ ih =>
    obtain rfl | hrest := mem_cons.mp hother
    · exact ⟨_, mem_cons_self, hhead⟩
    · obtain ⟨item, hitem, hrel⟩ := ih hrest
      exact ⟨item, mem_cons_of_mem _ hitem, hrel⟩

theorem TileBuffer.find_eq_getCellBytes (hperm : entries.Perm buffer.entries.toList)
    (hstores : List.Forall₂ (Stores codec) entries cells) (coord : Coord) :
    (match cells.find? fun c => decide (c.1 = coord) with
      | none => .ok none
      | some c => do
        let bytes ← c.2.encode codec
        return some bytes : Except ArrayError (Option Bytes)) =
      .ok (buffer.getCellBytes codec coord) := by
  cases hfind : cells.find? fun c => decide (c.1 = coord) with
  | some c =>
    have hfound := find?_some hfind
    obtain rfl : c.1 = coord := of_decide_eq_true hfound
    obtain ⟨entry, hentry, hstored⟩ :=
      exists_left_of_forall₂ hstores (mem_of_find?_eq_some hfind)
    have hget : buffer.entries[entry.1]? = some entry.2 :=
      TreeMap.mem_toList_iff_getElem?_eq_some.mp (hperm.mem_iff.mp hentry)
    simp only [hstored.bytes, ok_bind, TileBuffer.getCellBytes, hstored.key, hget]
    rfl
  | none =>
    have hnone : ∀ c ∈ cells, c.1 ≠ coord := by
      simpa using find?_eq_none.mp hfind
    -- an entry under the encoded coordinate would decode to the coordinate
    have hget : buffer.getCellBytes codec coord = none := by
      unfold TileBuffer.getCellBytes
      split
      · rename_i key hkey
        by_contra hsome
        obtain ⟨bytes, hbytes⟩ := ne_none_iff_exists'.mp hsome
        have hentry := hperm.mem_iff.mpr (TreeMap.mem_toList_iff_getElem?_eq_some.mpr hbytes)
        obtain ⟨c, hc, hstored⟩ := exists_left_of_forall₂ hstores.flip hentry
        have hdecode := codec.decodeCoord_encodeCoord hstored.key
        rw [codec.decodeCoord_encodeCoord hkey] at hdecode
        exact hnone c hc (Except.ok.inj hdecode).symm
      · rfl
    rw [hget]

theorem TileBuffer.extract_materialise (hsound : buffer.Sound codec)
    {shuffle : Shuffle (Bytes × Bytes)} (htile : buffer.materialise schema codec shuffle = .ok tile)
    (hcoord : Plain coord) (hlength : coord.length = schema.arity) :
    extractCellBytes codec tile coord = .ok (buffer.getCellBytes codec coord) := by
  have hperm := shuffle.perm buffer.entries.toList
  obtain ⟨cells, hcells⟩ := exists_forall₂ fun entry hentry =>
    hsound entry (hperm.mem_iff.mp hentry)
  have hstores : List.Forall₂ (Stores codec) (shuffle.order buffer.entries.toList) cells :=
    hcells.imp fun _ _ h => h.2
  have hholds := pushRows_holds hstores (holds_empty schema) htile
  rw [nil_append] at hholds
  have hplain : ∀ c ∈ cells, Plain c.1 := by
    intro c hc
    obtain ⟨entry, -, hversion⟩ := exists_left_of_forall₂ hcells hc
    exact hversion.1
  have hsize : tile.surrogates.length = cells.length := by
    rw [hholds.surrogates, length_map, length_map]
  rw [extractCellBytes, hholds.extractFrom hplain hcoord hlength
    (show tile.surrogates.length + 0 = cells.length from hsize), drop_zero]
  exact TileBuffer.find_eq_getCellBytes hperm hstores coord

end Cells

end NodeDB.ArrayEngine
