import NodeDB.CeilingReads
import NodeDB.LogRetention

/-!
# Replicas that apply the same operations

Every replica applies the committed operations to its own memtable.  An
operation whose clock is in the log is skipped.  A cell version is keyed by
its system time, not by the clock of its operation: two replicas that apply
the operations in different orders agree exactly where operations on one
coordinate with one system time write the same cell.
-/

namespace NodeDB.ArraySync

open Std KeyedFold ArrayEngine ByteFrame StepRuns List Function Memtable Option

/-! ## Applying an operation -/

section Model

variable {ν : Type}

structure ArrayPutCell (ν : Type) where
  coord : Coord
  attrs : List ν
  surrogate : Nat
  systemFromMs : Int
  validFromMs : Int
  validUntilMs : Int

structure ArrayDeleteCell where
  coord : Coord
  systemFromMs : Int
  erasure : Bool

/-- What the replicas know of the arrays.  The check of a cell's attributes against their
declared types is taken as it is, and so is the text of a coordinate. -/
structure Catalog (ν : Type) where
  schema : Scope → ArraySchema
  coordText : Coord → String
  checkCell : Scope → List ν → Except ArrayError Unit

def Catalog.checkCells (catalog : Catalog ν) (scope : Scope) :
    List (ArrayPutCell ν) → Except ArrayError Unit
  | [] => .ok ()
  | cell :: rest => do
    let _ ← catalog.checkCell scope cell.attrs
    catalog.checkCells scope rest

variable (catalog : Catalog ν) (codec : CellCodec ν)

def putCells (schema : ArraySchema) (lsn : Nat) :
    Memtable → List (ArrayPutCell ν) → Memtable × Except ArrayError Unit
  | memtable, [] => (memtable, .ok ())
  | memtable, cell :: rest =>
    let written := memtable.putCell schema codec
      { coord := cell.coord
        payload :=
          { validFromMs := cell.validFromMs
            validUntilMs := cell.validUntilMs
            attrs := cell.attrs
            surrogate := cell.surrogate }
        systemFromMs := cell.systemFromMs
        lsn := lsn }
    match written.2 with
    | .ok _ => putCells schema lsn written.1 rest
    | .error error => (written.1, .error error)

/-- One cell without a surrogate, or with attributes of the wrong type, refuses the batch. -/
def stampPutCells (scope : Scope) (store : ArrayStore ν) (cells : List (ArrayPutCell ν))
    (lsn : Nat) : ArrayStore ν × Except ArrayError Unit :=
  match cells.find? fun cell => cell.surrogate = 0 with
  | some unbound =>
    (store, .error (.invalidOp ("array put into '" ++ (catalog.schema scope).name ++ "' at " ++
      catalog.coordText unbound.coord ++
      " carries Surrogate::ZERO; every cell carries the surrogate its coordinator bound")))
  | none =>
    match catalog.checkCells scope cells with
    | .error error => (store, .error error)
    | .ok _ =>
      let written := putCells codec (catalog.schema scope) lsn store.memtable cells
      ({ store with memtable := written.1 }, written.2)

def deleteCells (schema : ArraySchema) (lsn : Nat) :
    Memtable → List ArrayDeleteCell → Memtable × Except ArrayError Unit
  | memtable, [] => (memtable, .ok ())
  | memtable, cell :: rest =>
    let written :=
      if cell.erasure then memtable.eraseCell schema codec cell.coord cell.systemFromMs lsn
      else memtable.deleteCell schema codec cell.coord cell.systemFromMs lsn
    match written.2 with
    | .ok _ => deleteCells schema lsn written.1 rest
    | .error error => (written.1, .error error)

def stampDeleteCells (scope : Scope) (store : ArrayStore ν) (cells : List ArrayDeleteCell)
    (lsn : Nat) : ArrayStore ν × Except ArrayError Unit :=
  let written := deleteCells codec (catalog.schema scope) lsn store.memtable cells
  ({ store with memtable := written.1 }, written.2)

/-- A committed operation, with the surrogate its proposer bound for a put. -/
structure ArrayEntry (ν : Type) where
  databaseId : Nat
  tenantId : Nat
  op : ArrayOp ν
  cellSurrogate : Option Nat
  deriving DecidableEq, Repr

def ArrayEntry.scope (entry : ArrayEntry ν) : Scope :=
  scopeOf entry.databaseId entry.tenantId entry.op

structure Replica (ν : Type) where
  origin : Origin ν
  stores : Scope → ArrayStore ν

def Replica.empty : Replica ν where
  origin := Origin.empty
  stores := fun _ => ArrayStore.empty

def Replica.alreadySeen (replica : Replica ν) (scope : Scope) (hlc : Hlc) : Bool :=
  !(replica.origin.scanRange scope hlc hlc).isEmpty

inductive ApplyError where
  | internal (detail : String)
  | array (error : ArrayError)
  deriving DecidableEq, Repr

def ArrayEntry.stamp (entry : ArrayEntry ν) (store : ArrayStore ν) (lsn : Nat) :
    ArrayStore ν × Except ApplyError Unit :=
  let header := entry.op.header
  match entry.op.kind with
  | .put =>
    match entry.cellSurrogate with
    | none => (store, .error (.internal ("array put into '" ++ header.array ++
        "' carries no cell surrogate; every put carries the one its proposer bound")))
    | some surrogate =>
      let written := stampPutCells catalog codec entry.scope store
        [{ coord := entry.op.coord
           attrs := entry.op.attrs.getD []
           surrogate := surrogate
           systemFromMs := header.systemFromMs
           validFromMs := header.validFromMs
           validUntilMs := header.validUntilMs }] lsn
      (written.1, written.2.mapError .array)
  | kind =>
    let written := stampDeleteCells catalog codec entry.scope store
      [{ coord := entry.op.coord
         systemFromMs := header.systemFromMs
         erasure := kind = .erase }] lsn
    (written.1, written.2.mapError .array)

/-- Applies a committed operation; only one that was applied goes to the log.  The memtable stays
below the threshold at which it is flushed, and the surrogate an operation carries is the one
bound to its coordinate, so that binding it again changes nothing. -/
def applyArrayOp (replica : Replica ν) (entry : ArrayEntry ν) (lsn : Nat) :
    Replica ν × Except ApplyError Unit :=
  if replica.alreadySeen entry.scope entry.op.header.hlc then (replica, .ok ())
  else
    let written := entry.stamp catalog codec (replica.stores entry.scope) lsn
    let stores := Function.update replica.stores entry.scope written.1
    match written.2 with
    | .ok _ =>
      ({ origin := (replica.origin.append entry.databaseId entry.tenantId entry.op).1
         stores := stores }, .ok ())
    | .error error => ({ replica with stores := stores }, .error error)

/-- An entry as a replica meets it, at a position of its own log. -/
structure Delivery (ν : Type) where
  entry : ArrayEntry ν
  lsn : Nat

def Replica.deliver (replica : Replica ν) (delivery : Delivery ν) : Replica ν :=
  (applyArrayOp catalog codec replica delivery.entry delivery.lsn).1

def Replica.run (deliveries : List (Delivery ν)) : Replica ν :=
  deliveries.foldl (Replica.deliver catalog codec) Replica.empty

/-- Each of the entries is delivered, once or more, and nothing else. -/
def DeliveriesOf (entries : List (ArrayEntry ν)) (deliveries : List (Delivery ν)) : Prop :=
  ∀ entry, entry ∈ entries ↔ ∃ delivery ∈ deliveries, delivery.entry = entry

end Model

/-! ## What an entry writes -/

section Writes

variable {ν : Type}

def ArrayEntry.cell (entry : ArrayEntry ν) : Option (Cell ν) :=
  match entry.op.kind with
  | .put => entry.cellSurrogate.map fun surrogate =>
    .live
      { validFromMs := entry.op.header.validFromMs
        validUntilMs := entry.op.header.validUntilMs
        attrs := entry.op.attrs.getD []
        surrogate := surrogate }
  | .delete => some .tombstone
  | .erase => some .erasure

/-- The version an entry writes when it is accepted. -/
structure ArrayEntry.Writes (catalog : Catalog ν) (codec : CellCodec ν) (entry : ArrayEntry ν)
    (write : AppliedWrite ν) : Prop where
  coord : write.coord = entry.op.coord
  time : write.systemFromMs = entry.op.header.systemFromMs
  cell : entry.cell = some write.cell
  checked : ∀ payload, write.cell = .live payload →
    catalog.checkCell entry.scope payload.attrs = .ok ()
  tile : ∃ hilbert, (catalog.schema entry.scope).tilePrefix write.coord = .ok hilbert
  bytes : ∃ key bytes, Stores codec (key, bytes) (write.coord, write.cell)

variable {catalog : Catalog ν} {codec : CellCodec ν}

def ArrayEntry.Checked (catalog : Catalog ν) (entry : ArrayEntry ν) (cell : Cell ν) : Prop :=
  entry.cell = some cell ∧ ∀ payload, cell = .live payload →
    payload.surrogate ≠ 0 ∧ catalog.checkCell entry.scope payload.attrs = .ok ()

theorem match_outcome (written : Memtable × Except ArrayError TileId) :
    (match written.2 with
      | .ok _ => (written.1, .ok ())
      | .error error => (written.1, .error error) : Memtable × Except ArrayError Unit) =
      (written.1, written.2.map fun _ => ()) := by
  obtain ⟨memtable, _ | _⟩ := written
  · rfl
  · rfl

theorem stampPutCells_singleton {scope : Scope} {cell : ArrayPutCell ν}
    (hbound : cell.surrogate ≠ 0) (hcheck : catalog.checkCell scope cell.attrs = .ok ())
    (store : ArrayStore ν) (lsn : Nat) :
    stampPutCells catalog codec scope store [cell] lsn =
      let written := store.memtable.pushVersion (catalog.schema scope) codec
        ⟨cell.coord, cell.systemFromMs, .live
          { validFromMs := cell.validFromMs
            validUntilMs := cell.validUntilMs
            attrs := cell.attrs
            surrogate := cell.surrogate }⟩ lsn
      ({ store with memtable := written.1 }, written.2.map fun _ => ()) := by
  have hnone : [cell].find? (fun cell => decide (cell.surrogate = 0)) = none := by simp [hbound]
  have hcells : catalog.checkCells scope [cell] = .ok () := by
    simp only [Catalog.checkCells, hcheck, ok_bind]
  rw [stampPutCells, hnone, hcells]
  simp only [putCells]
  rw [match_outcome]
  rfl

theorem deleteCells_singleton (schema : ArraySchema) (cell : ArrayDeleteCell)
    (memtable : Memtable) (lsn : Nat) :
    deleteCells codec schema lsn memtable [cell] =
      let written := memtable.pushVersion schema codec
        ⟨cell.coord, cell.systemFromMs, if cell.erasure then .erasure else .tombstone⟩ lsn
      (written.1, written.2.map fun _ => ()) := by
  simp only [deleteCells]
  rw [match_outcome, eraseCell, deleteCell,
    pushSentinel_eq schema codec (rfl : Cell.erasure.encode codec = _),
    pushSentinel_eq schema codec (rfl : Cell.tombstone.encode codec = _)]
  split_ifs with herasure
  · rfl
  · rfl

variable {entry : ArrayEntry ν} {write : AppliedWrite ν}

theorem stamp_of_checked {cell : Cell ν} (h : entry.Checked catalog cell) (store : ArrayStore ν)
    (lsn : Nat) :
    entry.stamp catalog codec store lsn =
      let written := store.memtable.pushVersion (catalog.schema entry.scope) codec
        ⟨entry.op.coord, entry.op.header.systemFromMs, cell⟩ lsn
      ({ store with memtable := written.1 },
        (written.2.map fun _ => ()).mapError .array) := by
  obtain ⟨hcell, hpayload⟩ := h
  cases hkind : entry.op.kind with
  | put =>
    simp only [ArrayEntry.cell, hkind, map_eq_some_iff] at hcell
    obtain ⟨surrogate, hsurrogate, rfl⟩ := hcell
    obtain ⟨hbound, hcheck⟩ := hpayload _ rfl
    simp only [ArrayEntry.stamp, hkind, hsurrogate]
    rw [stampPutCells_singleton hbound hcheck]
  | delete | erase =>
    simp only [ArrayEntry.cell, hkind, some.injEq] at hcell
    subst hcell
    simp only [ArrayEntry.stamp, hkind, stampDeleteCells, deleteCells_singleton]
    rfl

theorem stamp_of_refused (h : ∀ cell, ¬ entry.Checked catalog cell) (store : ArrayStore ν)
    (lsn : Nat) : ∃ error, entry.stamp catalog codec store lsn = (store, .error error) := by
  cases hkind : entry.op.kind with
  | put =>
    simp only [ArrayEntry.stamp, hkind]
    cases hsurrogate : entry.cellSurrogate with
    | none => exact ⟨_, rfl⟩
    | some surrogate =>
      have hnot := h (.live
        { validFromMs := entry.op.header.validFromMs
          validUntilMs := entry.op.header.validUntilMs
          attrs := entry.op.attrs.getD []
          surrogate := surrogate })
      dsimp only [stampPutCells]
      by_cases hbound : surrogate = 0
      · rw [find?_cons_of_pos (by simp [hbound])]
        exact ⟨_, rfl⟩
      · rw [find?_cons_of_neg (by simp [hbound]), find?_nil]
        cases hcheck : catalog.checkCell entry.scope (entry.op.attrs.getD []) with
        | error error =>
          simp only [Catalog.checkCells, hcheck, error_bind]
          exact ⟨_, rfl⟩
        | ok _ =>
          refine absurd ⟨?_, ?_⟩ hnot
          · simp only [ArrayEntry.cell, hkind, hsurrogate, map_some]
          · rintro payload ⟨⟩
            exact ⟨hbound, hcheck⟩
  | delete =>
    refine absurd ⟨?_, ?_⟩ (h .tombstone)
    · simp only [ArrayEntry.cell, hkind]
    · rintro payload ⟨⟩
  | erase =>
    refine absurd ⟨?_, ?_⟩ (h .erasure)
    · simp only [ArrayEntry.cell, hkind]
    · rintro payload ⟨⟩

theorem ArrayEntry.Writes.isChecked (h : entry.Writes catalog codec write) :
    entry.Checked catalog write.cell := by
  refine ⟨h.cell, fun payload hpayload => ⟨?_, h.checked payload hpayload⟩⟩
  obtain ⟨key, bytes, hstores⟩ := h.bytes
  have hencode := hstores.bytes
  rw [hpayload] at hencode
  exact (CellPayload.encode_eq_ok.mp hencode).1

theorem ArrayEntry.Writes.eq_of_cell (h : entry.Writes catalog codec write)
    {cell : Cell ν} (hcell : entry.cell = some cell) :
    write = ⟨entry.op.coord, entry.op.header.systemFromMs, cell⟩ := by
  obtain ⟨coord, systemFromMs, other⟩ := write
  obtain rfl : other = cell := some.inj (h.cell.symm.trans hcell)
  obtain rfl : coord = entry.op.coord := h.coord
  obtain rfl : systemFromMs = entry.op.header.systemFromMs := h.time
  rfl

theorem ArrayEntry.Writes.unique {write other : AppliedWrite ν}
    (h : entry.Writes catalog codec write) (hother : entry.Writes catalog codec other) :
    write = other :=
  (h.eq_of_cell hother.cell).trans (hother.eq_of_cell hother.cell).symm

theorem pushVersion_ok {schema : ArraySchema} {hilbert : Nat}
    {key bytes : Bytes} (hpre : schema.tilePrefix write.coord = .ok hilbert)
    (hstores : Stores codec (key, bytes) (write.coord, write.cell)) {memtable : Memtable}
    {lsn : Nat} :
    (memtable.pushVersion schema codec write lsn).2 = .ok ⟨hilbert, write.systemFromMs⟩ := by
  have hkey := hstores.key
  have hbytes := hstores.bytes
  simp only [pushVersion, hpre, hbytes, pushCell, hkey]

theorem stamp_cases (entry : ArrayEntry ν) (store : ArrayStore ν) (lsn : Nat) :
    ((∃ error, (entry.stamp catalog codec store lsn).2 = .error error) ∧
      (∀ write, ¬ entry.Writes catalog codec write) ∧
      (entry.stamp catalog codec store lsn).1.segments = store.segments ∧
      ∀ hilbert coord,
        Memtable.versions codec hilbert coord (entry.stamp catalog codec store lsn).1.memtable =
          Memtable.versions codec hilbert coord store.memtable) ∨
    ∃ write hilbert key bytes, entry.Writes catalog codec write ∧
      (catalog.schema entry.scope).tilePrefix write.coord = .ok hilbert ∧
      Stores codec (key, bytes) (write.coord, write.cell) ∧
      entry.stamp catalog codec store lsn =
        ({ store with
           memtable := store.memtable.insert ⟨hilbert, write.systemFromMs⟩
            ((store.memtable.getD ⟨hilbert, write.systemFromMs⟩ TileBuffer.empty).push
              key bytes lsn) }, .ok ()) := by
  by_cases hchecked : ∃ cell, entry.Checked catalog cell
  · obtain ⟨cell, hchecked⟩ := hchecked
    rw [stamp_of_checked hchecked]
    rcases @pushVersion_cases ν (catalog.schema entry.scope) codec store.memtable
      ⟨entry.op.coord, entry.op.header.systemFromMs, cell⟩ lsn with
      ⟨error, herror, hmemtable⟩ | ⟨hilbert, key, bytes, hpre, hstores, hpush⟩
    · refine .inl ⟨⟨.array error, by simp only [herror]; rfl⟩, ?_, rfl, ?_⟩
      · intro write hwrite
        obtain rfl := hwrite.eq_of_cell hchecked.1
        obtain ⟨hilbert, hpre⟩ := hwrite.tile
        obtain ⟨key, bytes, hstores⟩ := hwrite.bytes
        rw [pushVersion_ok hpre hstores] at herror
        cases herror
      · intro hilbert coord
        rcases hmemtable with hsame | ⟨tile, hsame⟩
        · simp only [hsame]
        · simp only [hsame, versions_insert_getD]
    · refine .inr ⟨⟨entry.op.coord, entry.op.header.systemFromMs, cell⟩, hilbert, key, bytes,
        ?_, hpre, hstores, ?_⟩
      · exact
          { coord := rfl
            time := rfl
            cell := hchecked.1
            checked := fun payload hpayload => (hchecked.2 payload hpayload).2
            tile := ⟨hilbert, hpre⟩
            bytes := ⟨key, bytes, hstores⟩ }
      · simp only [hpush]
        rfl
  · rw [not_exists] at hchecked
    obtain ⟨error, hrefused⟩ := @stamp_of_refused ν catalog codec entry hchecked store lsn
    refine .inl ⟨⟨error, by rw [hrefused]⟩, fun write hwrite => ?_, by rw [hrefused], ?_⟩
    · exact hchecked write.cell hwrite.isChecked
    · intro hilbert coord
      rw [hrefused]

end Writes

/-! ## What a replica holds -/

section Runs

variable {ν : Type} {catalog : Catalog ν} {codec : CellCodec ν}

/-- The memtable holds the last write at every coordinate and time. -/
structure Follows (catalog : Catalog ν) (codec : CellCodec ν) (scope : Scope)
    (past : List (Delivery ν)) (replica : Replica ν) (writes : List (AppliedWrite ν)) :
    Prop where
  segments : (replica.stores scope).segments = []
  versions : ∀ coord hilbert, (catalog.schema scope).tilePrefix coord = .ok hilbert →
    ∀ id bytes,
      (id, bytes) ∈ Memtable.versions codec hilbert coord (replica.stores scope).memtable ↔
        id.hilbertPrefix = hilbert ∧ ∃ cell, lastAt writes coord id.systemFromMs = some cell ∧
          cell.encode codec = .ok bytes
  written : ∀ write ∈ writes, ∃ delivery ∈ past, delivery.entry.scope = scope ∧
    delivery.entry.Writes catalog codec write
  applied : ∀ delivery ∈ past, delivery.entry.scope = scope → ∀ write,
    delivery.entry.Writes catalog codec write → write ∈ writes
  logged : ∀ (hlc : Hlc) (op : ArrayOp ν), (replica.origin.opLog scope)[hlc]? = some op →
    ∃ delivery ∈ past, delivery.entry.scope = scope ∧ delivery.entry.op.header.hlc = hlc

section Steps

variable {scope : Scope} {past : List (Delivery ν)} {replica : Replica ν}
  {writes : List (AppliedWrite ν)}

theorem follows_empty (scope : Scope) :
    Follows catalog codec scope [] (Replica.empty : Replica ν) [] where
  segments := rfl
  versions := by
    intro coord hilbert _ id bytes
    simp [Replica.empty, ArrayStore.empty, Memtable.versions, versionsAmong, lastAt]
  written := by simp
  applied := by simp
  logged := by simp [Replica.empty, Origin.empty]

theorem alreadySeen_iff {hlc : Hlc} :
    replica.alreadySeen scope hlc = true ↔
      ∃ op, (replica.origin.opLog scope)[hlc]? = some op := by
  rw [Replica.alreadySeen, Bool.not_eq_true', isEmpty_eq_false_iff_exists_mem]
  constructor
  · rintro ⟨op, hop⟩
    obtain ⟨⟨stamp, other⟩, hentry, rfl⟩ := mem_map.mp hop
    obtain ⟨hentry, hrange⟩ := mem_filter.mp hentry
    obtain ⟨hlow, hhigh⟩ := of_decide_eq_true hrange
    obtain rfl : hlc = stamp := hlow.antisymm hhigh
    exact ⟨other, TreeMap.mem_toList_iff_getElem?_eq_some.mp hentry⟩
  · rintro ⟨op, hop⟩
    refine ⟨op, mem_map.mpr ⟨(hlc, op), mem_filter.mpr ⟨?_, ?_⟩, rfl⟩⟩
    · exact TreeMap.mem_toList_iff_getElem?_eq_some.mpr hop
    · exact decide_eq_true ⟨le_rfl, le_rfl⟩

theorem Follows.skip (h : Follows catalog codec scope past replica writes)
    (delivery : Delivery ν) {next : Replica ν}
    (hlog : ∀ (hlc : Hlc) (op : ArrayOp ν), (next.origin.opLog scope)[hlc]? = some op →
      (replica.origin.opLog scope)[hlc]? = some op)
    (hsegments : (next.stores scope).segments = (replica.stores scope).segments)
    (hversions : ∀ hilbert coord,
      Memtable.versions codec hilbert coord (next.stores scope).memtable =
        Memtable.versions codec hilbert coord (replica.stores scope).memtable)
    (happlied : delivery.entry.scope = scope → ∀ write,
      delivery.entry.Writes catalog codec write → write ∈ writes) :
    Follows catalog codec scope (past ++ [delivery]) next writes where
  segments := hsegments.trans h.segments
  versions := by
    intro coord hilbert hpre id bytes
    rw [hversions]
    exact h.versions coord hilbert hpre id bytes
  written write hwrite :=
    (h.written write hwrite).imp fun _ => And.imp_left (mem_append_left _)
  applied := forall_mem_concat.mpr ⟨h.applied, happlied⟩
  logged hlc op hop :=
    (h.logged hlc op (hlog hlc op hop)).imp fun _ => And.imp_left (mem_append_left _)

theorem opLog_recorded {origin : Origin ν} {entry : ArrayEntry ν} {hlc : Hlc} {op : ArrayOp ν}
    (hnew : (origin.opLog entry.scope)[entry.op.header.hlc]? = none)
    (hop : ((origin.append entry.databaseId entry.tenantId entry.op).1.opLog scope)[hlc]? =
      some op) :
    (origin.opLog scope)[hlc]? = some op ∨ scope = entry.scope ∧ hlc = entry.op.header.hlc := by
  rcases Nat.lt_or_ge Origin.maxArrayNameBytes entry.op.header.array.utf8ByteSize
    with hlong | hshort
  · rw [append_of_long hlong] at hop
    exact .inl hop
  · have hsame : ∀ stored ∈ (origin.opLog entry.scope)[entry.op.header.hlc]?,
        stored = entry.op := by simp [hnew]
    refine ((opLog_append hshort hsame).mp hop).imp_right ?_
    rintro ⟨hscope, hhlc, -⟩
    exact ⟨hscope, hhlc⟩

section

variable (h : Follows catalog codec scope past replica writes)
include h

theorem Follows.write {delivery : Delivery ν} (hscope : delivery.entry.scope = scope)
    {write : AppliedWrite ν} (hwrites : delivery.entry.Writes catalog codec write) {hilbert : Nat}
    (hpre : (catalog.schema scope).tilePrefix write.coord = .ok hilbert) {key bytes : Bytes}
    (hstores : Stores codec (key, bytes) (write.coord, write.cell)) {next : Replica ν}
    (hlog : ∀ (hlc : Hlc) (op : ArrayOp ν), (next.origin.opLog scope)[hlc]? = some op →
      (replica.origin.opLog scope)[hlc]? = some op ∨ hlc = delivery.entry.op.header.hlc)
    (hsegments : (next.stores scope).segments = (replica.stores scope).segments) (lsn : Nat)
    (hmemtable : (next.stores scope).memtable =
      (replica.stores scope).memtable.insert ⟨hilbert, write.systemFromMs⟩
        (((replica.stores scope).memtable.getD ⟨hilbert, write.systemFromMs⟩
          TileBuffer.empty).push key bytes lsn)) :
    Follows catalog codec scope (past ++ [delivery]) next (writes ++ [write]) where
  segments := hsegments.trans h.segments
  versions := by
    intro coord other hother id found
    rw [hmemtable, mem_versions_push hstores]
    by_cases hid : id.hilbertPrefix = other
    · rw [lastAt_wrote hpre hother hid]
      simp only [hid, true_and]
      split_ifs
      · constructor
        · rintro rfl
          exact ⟨write.cell, rfl, hstores.bytes⟩
        · rintro ⟨cell, hcell, hencode⟩
          obtain rfl := some.inj hcell
          exact Except.ok.inj (hencode.symm.trans hstores.bytes)
      · rw [h.versions coord other hother id found]
        simp only [hid, true_and]
    · simp only [hid, false_and]
  written := by
    refine forall_mem_concat.mpr ⟨fun other hother => ?_, ?_⟩
    · exact (h.written other hother).imp fun _ => And.imp_left (mem_append_left _)
    · exact ⟨delivery, mem_append_right _ mem_cons_self, hscope, hwrites⟩
  applied := by
    refine forall_mem_concat.mpr ⟨fun other hother hin version hversion => ?_, ?_⟩
    · exact mem_append_left _ (h.applied other hother hin version hversion)
    · intro _ version hversion
      rw [hversion.unique hwrites]
      exact mem_append_right _ mem_cons_self
  logged := by
    intro hlc op hop
    rcases hlog hlc op hop with hold | rfl
    · exact (h.logged hlc op hold).imp fun _ => And.imp_left (mem_append_left _)
    · exact ⟨delivery, mem_append_right _ mem_cons_self, hscope, rfl⟩

theorem Follows.deliver (delivery : Delivery ν) (hdistinct : ∀ earlier ∈ past,
      earlier.entry.op.header.hlc = delivery.entry.op.header.hlc →
        earlier.entry = delivery.entry) :
    ∃ later, Follows catalog codec scope (past ++ [delivery])
        (replica.deliver catalog codec delivery) later ∧
      (delivery.entry.scope = scope → (∀ earlier ∈ past, earlier.entry ≠ delivery.entry) →
        ∀ write, delivery.entry.Writes catalog codec write → later = writes ++ [write]) := by
  unfold Replica.deliver applyArrayOp
  by_cases hseen : replica.alreadySeen delivery.entry.scope delivery.entry.op.header.hlc = true
  · -- it was delivered before
    rw [if_pos hseen]
    have hbefore : delivery.entry.scope = scope →
        ∃ earlier ∈ past, earlier.entry = delivery.entry := by
      intro hscope
      obtain ⟨op, hop⟩ := alreadySeen_iff.mp hseen
      rw [hscope] at hop
      obtain ⟨earlier, hearlier, -, hhlc⟩ := h.logged _ op hop
      exact ⟨earlier, hearlier, hdistinct earlier hearlier hhlc⟩
    refine ⟨writes, h.skip delivery (fun _ _ => id) rfl (fun _ _ => rfl) ?_, ?_⟩
    · intro hscope write hwrite
      obtain ⟨earlier, hearlier, hsame⟩ := hbefore hscope
      exact h.applied earlier hearlier (hsame ▸ hscope) write (hsame ▸ hwrite)
    · intro hscope hnew
      obtain ⟨earlier, hearlier, hsame⟩ := hbefore hscope
      exact absurd hsame (hnew earlier hearlier)
  · rw [if_neg hseen]
    have hnew : (replica.origin.opLog delivery.entry.scope)[delivery.entry.op.header.hlc]? = none :=
      eq_none_iff_forall_not_mem.mpr fun op hop => hseen (alreadySeen_iff.mpr ⟨op, hop⟩)
    rcases @stamp_cases ν catalog codec delivery.entry (replica.stores delivery.entry.scope)
      delivery.lsn with ⟨⟨error, herror⟩, hrefused, hsegments, hversions⟩ |
      ⟨write, hilbert, key, bytes, hwrite, hpre, hstores, hstamp⟩
    · simp only [herror]
      by_cases hscope : scope = delivery.entry.scope
      · subst hscope
        refine ⟨writes, h.skip delivery (fun _ _ => id) ?_ ?_ ?_, ?_⟩
        · simpa only [update_self] using hsegments
        · simpa only [update_self] using hversions
        · exact fun _ write hwrite => absurd hwrite (hrefused write)
        · exact fun _ _ write hwrite => absurd hwrite (hrefused write)
      · refine ⟨writes, h.skip delivery (fun _ _ => id) ?_ ?_ ?_, ?_⟩
        · simp only [update_of_ne hscope]
        · simp only [update_of_ne hscope, implies_true]
        · exact fun hin => absurd hin.symm hscope
        · exact fun hin => absurd hin.symm hscope
    · simp only [hstamp]
      by_cases hscope : scope = delivery.entry.scope
      · subst hscope
        refine ⟨writes ++ [write], ?_, fun _ _ other hother => by rw [hother.unique hwrite]⟩
        refine h.write rfl hwrite hpre hstores ?_ ?_ delivery.lsn ?_
        · exact fun hlc op hop => (opLog_recorded hnew hop).imp_right And.right
        · simp only [update_self]
        · simp only [update_self]
      · refine ⟨writes, h.skip delivery ?_ ?_ ?_ ?_, ?_⟩
        · exact fun hlc op hop => (opLog_recorded hnew hop).resolve_right fun hin => hscope hin.1
        · simp only [update_of_ne hscope]
        · simp only [update_of_ne hscope, implies_true]
        · exact fun hin => absurd hin.symm hscope
        · exact fun hin => absurd hin.symm hscope

theorem Follows.ceiling {coord : Coord} {hilbert : Nat}
    (hpre : (catalog.schema scope).tilePrefix coord = .ok hilbert) (shuffle : Shuffle (Segment ν))
    (systemAsOf : Int) (validAtMs : Option Int) :
    (replica.stores scope).ceilingForCoord codec (catalog.schema scope) shuffle coord systemAsOf
        validAtMs = .ok (referenceAnswer writes coord systemAsOf validAtMs) := by
  have hheld : (replica.stores scope).held codec hilbert coord =
      Memtable.versions codec hilbert coord (replica.stores scope).memtable := by
    rw [ArrayStore.held, ArrayStore.flushed, h.segments]
    rfl
  have hlists : Lists codec writes hilbert coord ((replica.stores scope).held codec hilbert coord) := by
    rw [hheld]
    refine ⟨versions_ascending _ _ _, h.versions coord hilbert hpre, ?_⟩
    intro write hwrite
    obtain ⟨delivery, -, -, hwrites⟩ := h.written write hwrite
    obtain ⟨key, bytes, hstores⟩ := hwrites.bytes
    exact ⟨bytes, hstores.bytes⟩
  exact hlists.ceiling (by simp [h.segments]) hpre shuffle systemAsOf validAtMs

end

end Steps

theorem follows_run (scope : Scope) {deliveries : List (Delivery ν)}
    (hdistinct : ∀ one ∈ deliveries, ∀ other ∈ deliveries,
      one.entry.op.header.hlc = other.entry.op.header.hlc → one.entry = other.entry) :
    ∃ writes, Follows catalog codec scope deliveries (Replica.run catalog codec deliveries)
      writes := by
  refine history_foldl_within
    (fun past replica => ∃ writes, Follows catalog codec scope past replica writes)
    (fun past replica delivery hwithin h _ => ?_) ⟨[], follows_empty scope⟩
    (along_of_forall (Replica.deliver catalog codec) (fun _ _ => trivial) Replica.empty)
  obtain ⟨writes, hfollows⟩ := h
  obtain ⟨later, hlater, -⟩ := hfollows.deliver delivery fun earlier hearlier =>
    hdistinct earlier (hwithin earlier (mem_append_left _ hearlier)) delivery
      (hwithin delivery (mem_append_right _ mem_cons_self))
  exact ⟨later, hlater⟩

/-! ## Reads of two replicas -/

variable {coord : Coord} {entries : List (ArrayEntry ν)}

theorem mem_of_lastAt {applied : List (AppliedWrite ν)} {time : Int} {cell : Cell ν}
    (h : lastAt applied coord time = some cell) :
    (⟨coord, time, cell⟩ : AppliedWrite ν) ∈ applied := by
  obtain ⟨⟨coord', time', cell'⟩, hfind, rfl⟩ := map_eq_some_iff.mp h
  have hfound := find?_some hfind
  obtain ⟨rfl, rfl⟩ := of_decide_eq_true hfound
  exact mem_reverse.mp (mem_of_find?_eq_some hfind)

theorem referenceAnswer_congr {one other : List (AppliedWrite ν)}
    (h : lastAt one coord = lastAt other coord) (systemAsOf : Int) (validAtMs : Option Int) :
    referenceAnswer one coord systemAsOf validAtMs =
      referenceAnswer other coord systemAsOf validAtMs := by
  have htimes : systemTimes one coord systemAsOf = systemTimes other coord systemAsOf := by
    refine List.Pairwise.eq_of_mem_iff (systemTimes_descending one coord systemAsOf)
      (systemTimes_descending other coord systemAsOf) fun time => ?_
    rw [mem_systemTimes, mem_systemTimes, h]
  rw [referenceAnswer, referenceAnswer, htimes, h]

def resultOf : Cell ν → CeilingResult ν
  | .live payload => .live payload
  | .tombstone => .tombstoned
  | .erasure => .erased

theorem resultOf_injective : Function.Injective (resultOf : Cell ν → CeilingResult ν) := by
  intro one other h
  cases one <;> cases other <;> simp_all [resultOf]

theorem referenceAnswer_last (applied : List (AppliedWrite ν)) (write : AppliedWrite ν) :
    referenceAnswer (applied ++ [write]) write.coord write.systemFromMs none =
      resultOf write.cell := by
  have hlast : lastAt (applied ++ [write]) write.coord write.systemFromMs = some write.cell := by
    rw [lastAt_append, if_pos ⟨rfl, rfl⟩]
  have hmem : write.systemFromMs ∈
      systemTimes (applied ++ [write]) write.coord write.systemFromMs := by
    rw [mem_systemTimes, hlast]
    exact ⟨le_rfl, rfl⟩
  rw [referenceAnswer]
  rcases htimes : systemTimes (applied ++ [write]) write.coord write.systemFromMs with _ | ⟨time, rest⟩
  · simp [htimes] at hmem
  · -- nothing read is later than the write
    have hdescending := systemTimes_descending (applied ++ [write]) write.coord write.systemFromMs
    have htime : time ≤ write.systemFromMs :=
      (mem_systemTimes.mp (htimes ▸ mem_cons_self)).1
    rw [htimes] at hmem hdescending
    obtain rfl : write.systemFromMs = time := by
      rcases mem_cons.mp hmem with heq | hrest
      · exact heq
      · have := (pairwise_cons.mp hdescending).1 _ hrest
        omega
    rw [filterMap_cons_some hlast]
    cases write.cell <;> rfl

/-- Operations on one coordinate with one system time write the same cell. -/
def Compatible (catalog : Catalog ν) (codec : CellCodec ν) (entries : List (ArrayEntry ν)) :
    Prop :=
  ∀ one ∈ entries, ∀ other ∈ entries, one.scope = other.scope → ∀ write write',
    one.Writes catalog codec write → other.Writes catalog codec write' →
      write.coord = write'.coord → write.systemFromMs = write'.systemFromMs →
        write.cell = write'.cell

theorem Follows.lastAt_iff {scope : Scope} {deliveries : List (Delivery ν)} {replica : Replica ν}
    {writes : List (AppliedWrite ν)} (h : Follows catalog codec scope deliveries replica writes)
    (hof : DeliveriesOf entries deliveries) (hcompatible : Compatible catalog codec entries)
    {time : Int} {cell : Cell ν} :
    lastAt writes coord time = some cell ↔
      ∃ entry ∈ entries, entry.scope = scope ∧ entry.Writes catalog codec ⟨coord, time, cell⟩ := by
  have hfrom : ∀ other, lastAt writes coord time = some other → ∃ entry ∈ entries,
      entry.scope = scope ∧ entry.Writes catalog codec ⟨coord, time, other⟩ := by
    intro other hother
    obtain ⟨delivery, hdelivery, hscope, hwrites⟩ := h.written _ (mem_of_lastAt hother)
    exact ⟨delivery.entry, (hof _).mpr ⟨delivery, hdelivery, rfl⟩, hscope, hwrites⟩
  refine ⟨hfrom cell, ?_⟩
  rintro ⟨entry, hentry, hscope, hwrites⟩
  obtain ⟨delivery, hdelivery, rfl⟩ := (hof entry).mp hentry
  have hin := h.applied delivery hdelivery hscope _ hwrites
  obtain ⟨other, hother⟩ := isSome_iff_exists.mp
    (lastAt_isSome.mpr ⟨_, hin, rfl, rfl⟩ : (lastAt writes coord time).isSome)
  obtain ⟨entry', hentry', hscope', hwrites'⟩ := hfrom other hother
  have hsame := hcompatible _ hentry' _ hentry (hscope'.trans hscope.symm) _ _ hwrites' hwrites
    rfl rfl
  rw [hother]
  exact congrArg some hsame

theorem exists_deliveries_last {entry : ArrayEntry ν} (hentry : entry ∈ entries) :
    ∃ before : List (Delivery ν), (∀ earlier ∈ before, earlier.entry ≠ entry) ∧
      DeliveriesOf entries (before ++ [⟨entry, 0⟩]) := by
  classical
  refine ⟨(entries.filter fun other => other ≠ entry).map fun other => ⟨other, 0⟩, ?_, ?_⟩
  · intro earlier hearlier
    obtain ⟨other, hother, rfl⟩ := mem_map.mp hearlier
    exact of_decide_eq_true (mem_filter.mp hother).2
  · intro other
    constructor
    · intro hother
      by_cases hsame : other = entry
      · exact ⟨⟨entry, 0⟩, mem_append_right _ mem_cons_self, hsame.symm⟩
      · refine ⟨⟨other, 0⟩, mem_append_left _ (mem_map.mpr ⟨other, ?_, rfl⟩), rfl⟩
        exact mem_filter.mpr ⟨hother, decide_eq_true hsame⟩
    · rintro ⟨delivery, hdelivery, rfl⟩
      rcases mem_append.mp hdelivery with hdelivery | hdelivery
      · obtain ⟨other, hother, rfl⟩ := mem_map.mp hdelivery
        exact (mem_filter.mp hother).1
      · rw [mem_singleton.mp hdelivery]
        exact hentry

theorem ceiling_last (hdistinct : ∀ one ∈ entries, ∀ other ∈ entries,
      one.op.header.hlc = other.op.header.hlc → one = other) {entry : ArrayEntry ν}
    (hentry : entry ∈ entries) {write : AppliedWrite ν} (hwrites : entry.Writes catalog codec write)
    (shuffle : Shuffle (Segment ν)) :
    ∃ deliveries, DeliveriesOf entries deliveries ∧
      ((Replica.run catalog codec deliveries).stores entry.scope).ceilingForCoord codec
        (catalog.schema entry.scope) shuffle write.coord write.systemFromMs none =
          .ok (resultOf write.cell) := by
  obtain ⟨before, hbefore, hof⟩ := exists_deliveries_last hentry
  have hmem : ∀ delivery ∈ before, delivery.entry ∈ entries := fun delivery hdelivery =>
    (hof _).mpr ⟨delivery, mem_append_left _ hdelivery, rfl⟩
  obtain ⟨writes, hfollows⟩ := @follows_run ν catalog codec entry.scope before
    fun one hone other hother => hdistinct _ (hmem one hone) _ (hmem other hother)
  obtain ⟨later, hlater, hlast⟩ := hfollows.deliver ⟨entry, 0⟩ fun earlier hearlier =>
    hdistinct _ (hmem earlier hearlier) entry hentry
  obtain rfl := hlast rfl hbefore write hwrites
  obtain ⟨hilbert, hpre⟩ := hwrites.tile
  refine ⟨before ++ [⟨entry, 0⟩], hof, ?_⟩
  rw [Replica.run, foldl_append]
  exact (hlater.ceiling hpre shuffle write.systemFromMs none).trans
    (congrArg Except.ok (referenceAnswer_last writes write))

/-- Whatever the orders in which two replicas meet the entries, every read of every array is
the same on both: this holds exactly of compatible entries. -/
theorem replicas_converge_iff {entries : List (ArrayEntry ν)}
    (hdistinct : ∀ one ∈ entries, ∀ other ∈ entries,
      one.op.header.hlc = other.op.header.hlc → one = other) :
    (∀ one other, DeliveriesOf entries one → DeliveriesOf entries other →
      ∀ (scope : Scope) (shuffle shuffle' : Shuffle (Segment ν)) (coord : Coord)
        (systemAsOf : Int) (validAtMs : Option Int),
        ((Replica.run catalog codec one).stores scope).ceilingForCoord codec
            (catalog.schema scope) shuffle coord systemAsOf validAtMs =
          ((Replica.run catalog codec other).stores scope).ceilingForCoord codec
            (catalog.schema scope) shuffle' coord systemAsOf validAtMs) ↔
      Compatible catalog codec entries := by
  constructor
  · intro hconverge one hone other hother hscope write write' hwrite hwrite' hcoord htime
    let keep : Shuffle (Segment ν) := ⟨id, fun _ => .rfl⟩
    obtain ⟨deliveries, hof, hread⟩ := ceiling_last hdistinct hone hwrite keep
    obtain ⟨deliveries', hof', hread'⟩ := ceiling_last hdistinct hother hwrite' keep
    have hsame := hconverge deliveries deliveries' hof hof' one.scope keep keep write.coord
      write.systemFromMs none
    rw [hread, hscope, hcoord, htime, hread'] at hsame
    exact resultOf_injective (Except.ok.inj hsame)
  · intro hcompatible one other hone hother scope shuffle shuffle' coord systemAsOf validAtMs
    have hfollow : ∀ deliveries, DeliveriesOf entries deliveries →
        ∃ writes, Follows catalog codec scope deliveries (Replica.run catalog codec deliveries)
          writes := fun deliveries hof =>
      follows_run scope fun one hone other hother =>
        hdistinct _ ((hof _).mpr ⟨one, hone, rfl⟩) _ ((hof _).mpr ⟨other, hother, rfl⟩)
    obtain ⟨writes, hfollows⟩ := hfollow one hone
    obtain ⟨writes', hfollows'⟩ := hfollow other hother
    cases hpre : (catalog.schema scope).tilePrefix coord with
    | ok hilbert =>
      have hlast : lastAt writes coord = lastAt writes' coord := by
        funext time
        refine ext fun cell => ?_
        rw [hfollows.lastAt_iff hone hcompatible, hfollows'.lastAt_iff hother hcompatible]
      rw [hfollows.ceiling hpre, hfollows'.ceiling hpre, referenceAnswer_congr hlast]
    | error error =>
      rw [ceilingForCoord_of_error hpre, ceilingForCoord_of_error hpre]

end Runs

/-! ## Two operations on one cell -/

namespace Sample

open ArrayEngine.Sample

def catalog : Catalog UInt8 where
  schema := fun _ => schema
  coordText := fun _ => "[Int64(0)]"
  checkCell := fun _ attrs => require (attrs.length = 1) (.invalidOp "attrs")

def putEntry (physicalMs : UInt64) (logical : UInt16) (systemFromMs : Int) (value : UInt8) :
    ArrayEntry UInt8 where
  databaseId := 0
  tenantId := 0
  op :=
    { header :=
        { array := "a"
          hlc :=
            { physicalMs := physicalMs
              logical := logical
              replicaId := 1 }
          schemaHlc := Hlc.zero
          validFromMs := 0
          validUntilMs := openUpper
          systemFromMs := systemFromMs }
      kind := .put
      coord := [.int64 0]
      attrs := some [value] }
  cellSurrogate := some 1

def delivered (entries : List (ArrayEntry UInt8)) : List (Delivery UInt8) :=
  entries.map fun entry => ⟨entry, 1⟩

theorem deliveriesOf_delivered {entries order : List (ArrayEntry UInt8)}
    (h : ∀ entry, entry ∈ entries ↔ entry ∈ order) : DeliveriesOf entries (delivered order) := by
  intro entry
  simp [delivered, h]

def readAt (order : List (ArrayEntry UInt8)) (systemAsOf : Int) :
    Except ArrayError (CeilingResult UInt8) :=
  ((Replica.run catalog codec (delivered order)).stores scopeA).ceilingForCoord codec
    (catalog.schema scopeA) keep [.int64 0] systemAsOf none

def first : ArrayEntry UInt8 := putEntry 5 0 5 1

def second : ArrayEntry UInt8 := putEntry 5 1 5 2

def later : ArrayEntry UInt8 := putEntry 6 0 6 2

theorem compatible_first_later : Compatible catalog codec [first, later] := by
  intro one hone other hother _ write write' hwrite hwrite' _ htime
  rw [hwrite.time, hwrite'.time] at htime
  simp only [mem_cons, not_mem_nil, or_false] at hone hother
  rcases hone with rfl | rfl <;> rcases hother with rfl | rfl
  · rw [hwrite.unique hwrite']
  · exact absurd htime (by decide)
  · exact absurd htime (by decide)
  · rw [hwrite.unique hwrite']

end Sample

/-- Two writes of one millisecond: the one applied last is read. -/
theorem replicas_diverge_on_one_millisecond :
    Sample.first.op.header.hlc ≠ Sample.second.op.header.hlc ∧
      Sample.readAt [Sample.first, Sample.second] 5 ≠
        Sample.readAt [Sample.second, Sample.first] 5 := by
  decide +kernel

/-- One replica gets the first operation twice, the other gets it last. -/
theorem replicas_converge_redelivered :
    Sample.readAt [Sample.first, Sample.later, Sample.first] 7 =
        .ok (.live (ArrayEngine.Sample.payload 2)) ∧
      Sample.readAt [Sample.later, Sample.first] 7 =
        Sample.readAt [Sample.first, Sample.later, Sample.first] 7 := by
  refine ⟨by decide +kernel, ?_⟩
  have hdistinct : ∀ one ∈ [Sample.first, Sample.later], ∀ other ∈ [Sample.first, Sample.later],
      one.op.header.hlc = other.op.header.hlc → one = other := by decide
  exact (replicas_converge_iff hdistinct).mpr Sample.compatible_first_later _ _
    (Sample.deliveriesOf_delivered (by simp [or_comm]))
    (Sample.deliveriesOf_delivered (by simp [or_comm])) _ _ _ _ _ _

end NodeDB.ArraySync
