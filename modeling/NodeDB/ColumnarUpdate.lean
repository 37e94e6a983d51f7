import NodeDB.LiveRows

/-!
# Columnar UPDATE statements

A statement gives each row by its old key and its new values.  The rows are
applied one after the other, and what each changed is recorded for the undo.
A row that is refused undoes the rows before it.
-/

namespace NodeDB.Columnar

open Std KeyedFold StepRuns List

variable {runtime : Runtime} {schema : ColumnarSchema} {written : List Value → Prop}

namespace MutationEngine

/-! ## Undo -/

def restoreRow (self : MutationEngine) (entry : Bytes × RowLocation) : MutationEngine :=
  let unmarked := self.unmarkDeleted entry.2
  { unmarked with pkIndex := unmarked.pkIndex.insert entry.1 entry.2 }

def restoreDeletedRows (self : MutationEngine) (rows : List (Bytes × RowLocation)) :
    MutationEngine :=
  rows.foldl restoreRow self

def rollbackMemtableInserts (self : MutationEngine) (rowCountBefore : Nat)
    (insertedPks : List Bytes) (displaced : List (Bytes × RowLocation)) : MutationEngine :=
  let removed : MutationEngine :=
    { self with pkIndex := insertedPks.foldl (fun index pk => index.erase pk) self.pkIndex }
  (removed.restoreDeletedRows displaced).cutMemtableTo rowCountBefore

structure ColumnarUpdateOutcome where
  affected : Nat
  insertedPks : List Bytes
  displaced : List (Bytes × RowLocation)
  restored : List (Bytes × RowLocation)

def undoColumnarUpdate (self : MutationEngine) (rowCountBefore : Nat)
    (outcome : ColumnarUpdateOutcome) : MutationEngine :=
  (self.rollbackMemtableInserts rowCountBefore outcome.insertedPks
    outcome.displaced).restoreDeletedRows outcome.restored

/-! ## The statement -/

inductive UpdateError where
  | engine (error : ColumnarError)
  | geometry (detail : String)
  deriving DecidableEq, Repr

/-- How the checks and the indexing of geometry columns end.  A collection without geometry
columns passes all of them. -/
structure GeometrySteps where
  readPreImages : Except String Unit
  checkSrids : Except String Unit
  indexRow : (affected : Nat) → Except String Unit

section Statement

variable (runtime : Runtime) (flushedRowSurrogate : RowLocation → Option Nat)

/-- One row, and what its undo needs: the row it replaces, the key it binds and the row it
displaces from that key. -/
def updateRow (self : MutationEngine) (outcome : ColumnarUpdateOutcome)
    (row : Value × List Value) : MutationEngine × Except ColumnarError ColumnarUpdateOutcome :=
  let oldPkBytes := encodePk runtime row.1
  let oldLocation := self.pkIndex[oldPkBytes]?
  let newPkBytes := (self.extractPkBytes runtime row.2).toOption
  let displacedEntry := newPkBytes.bind fun nb =>
    if nb ≠ oldPkBytes then (self.pkIndex[nb]?).map fun location => (nb, location) else none
  let flushedSurrogate :=
    (oldLocation.filter fun location => location.segmentId ≠ self.memtableSegmentId).bind
      flushedRowSurrogate
  match self.update runtime row.1 row.2 flushedSurrogate with
  | (written, .error error) => (written, .error error)
  | (written, .ok _) =>
    (written, .ok
      { affected := outcome.affected + 1
        insertedPks := outcome.insertedPks ++ newPkBytes.toList
        restored := outcome.restored ++
          (oldLocation.map fun location => (oldPkBytes, location)).toList
        displaced := outcome.displaced ++ displacedEntry.toList })

/-- The rows in turn, up to the first that is refused or cannot be indexed. -/
def updateRows (geometry : GeometrySteps) :
    MutationEngine → ColumnarUpdateOutcome → List (Value × List Value) →
      MutationEngine × ColumnarUpdateOutcome × Option UpdateError
  | self, outcome, [] => (self, outcome, none)
  | self, outcome, row :: rest =>
    match self.updateRow runtime flushedRowSurrogate outcome row with
    | (written, .error error) => (written, outcome, some (.engine error))
    | (written, .ok outcome) =>
      match geometry.indexRow outcome.affected with
      | .error detail => (written, outcome, some (.geometry detail))
      | .ok _ => updateRows geometry written outcome rest

def applyColumnarUpdateRows (geometry : GeometrySteps) (self : MutationEngine)
    (rows : List (Value × List Value)) :
    MutationEngine × Except UpdateError ColumnarUpdateOutcome :=
  match geometry.readPreImages, geometry.checkSrids with
  | .error detail, _ => (self, .error (.geometry detail))
  | .ok _, .error detail => (self, .error (.geometry detail))
  | .ok _, .ok _ =>
    match updateRows runtime flushedRowSurrogate geometry self ⟨0, [], [], []⟩ rows with
    | (written, outcome, some error) =>
      (written.undoColumnarUpdate self.memtable.rowCount outcome, .error error)
    | (written, outcome, none) => (written, .ok outcome)

def reversedUpdate (geometry : GeometrySteps) (self : MutationEngine)
    (rows : List (Value × List Value)) : MutationEngine :=
  match self.applyColumnarUpdateRows runtime flushedRowSurrogate geometry rows with
  | (reversed, .error _) => reversed
  | (written, .ok outcome) => written.undoColumnarUpdate self.memtable.rowCount outcome

end Statement

/-! ## The surrogate table -/

/-- The surrogate table has an entry for every row of the memtable. -/
def Tallied (self : MutationEngine) : Prop :=
  self.memtableSurrogates.length = self.memtable.rowCount

theorem rowCount_appendRow_error {memtable next : ColumnarMemtable} {values : List Value}
    {error : ColumnarError} (h : memtable.appendRow runtime values = (next, .error error)) :
    next.rowCount = memtable.rowCount := by
  unfold ColumnarMemtable.appendRow at h
  split at h
  · exact (Prod.mk.inj h).1 ▸ rfl
  · split at h
    · exact (Prod.mk.inj h).1 ▸ rfl
    · exact nomatch (Prod.mk.inj h).2

theorem rowCount_appendRow_ok {memtable next : ColumnarMemtable} {values : List Value} {done : Unit}
    (h : memtable.appendRow runtime values = (next, .ok done)) :
    next.rowCount = memtable.rowCount + 1 := by
  unfold ColumnarMemtable.appendRow at h
  split at h
  · exact nomatch (Prod.mk.inj h).2
  · split at h
    · exact nomatch (Prod.mk.inj h).2
    · exact (Prod.mk.inj h).1 ▸ rfl

section Surrogates

variable {self : MutationEngine} {values : List Value} {pkBytes : Bytes} {surrogate : Option Nat}
  {replaced : List RowLocation}

theorem surrogates_commitRow :
    ∃ more, (self.commitRow runtime values pkBytes surrogate replaced).1.memtableSurrogates =
        self.memtableSurrogates ++ more ∧
      (self.commitRow runtime values pkBytes surrogate replaced).1.memtable.rowCount =
        self.memtable.rowCount + more.length := by
  unfold commitRow
  split
  · exact ⟨[], by simp, by simp⟩
  · split
    · rename_i happend
      exact ⟨[], by simp, by simpa using rowCount_appendRow_error happend⟩
    · rename_i memtable _ happend
      obtain ⟨bitmaps, hmarked, _⟩ :=
        @foldl_markDeleted { self with memtable := memtable } replaced
      rw [hmarked]
      exact ⟨[surrogate], rfl, by simpa using rowCount_appendRow_ok happend⟩

theorem surrogates_update {oldPk : Value} {flushedSurrogate : Option Nat} :
    ∃ more, (self.update runtime oldPk values flushedSurrogate).1.memtableSurrogates =
        self.memtableSurrogates ++ more ∧
      (self.update runtime oldPk values flushedSurrogate).1.memtable.rowCount =
        self.memtable.rowCount + more.length := by
  cases hold : self.pkIndex[encodePk runtime oldPk]? with
  | none =>
    simp only [update, hold]
    exact ⟨[], by simp, by simp⟩
  | some oldLocation =>
    cases hextract : self.extractPkBytes runtime values with
    | error refused =>
      simp only [update, hold, hextract]
      exact ⟨[], by simp, by simp⟩
    | ok newPkBytes =>
      simp only [update, hold, hextract]
      split
      · rename_i next _ hcommit
        have hnext := congrArg Prod.fst hcommit
        rw [← hnext]
        exact surrogates_commitRow
      · rename_i next _ hcommit
        have hnext := congrArg Prod.fst hcommit
        have hmore := @surrogates_commitRow runtime self values newPkBytes
          (if oldLocation.segmentId = self.memtableSegmentId then
            (self.memtableSurrogates[oldLocation.rowIndex]?).join else flushedSurrogate)
          (oldLocation :: (if newPkBytes ≠ encodePk runtime oldPk ∧ ¬self.schema.isBitemporal then
            self.pkIndex[newPkBytes]? else none).toList)
        rw [hnext] at hmore
        split <;> exact hmore

section

variable (h : self.Tallied)
include h

theorem Tallied.commitRow :
    (self.commitRow runtime values pkBytes surrogate replaced).1.Tallied := by
  obtain ⟨more, hsurrogates, hcount⟩ :=
    @surrogates_commitRow runtime self values pkBytes surrogate replaced
  rw [Tallied, hsurrogates, hcount, length_append, h]

theorem Tallied.upsertRow : (self.upsertRow runtime values surrogate).1.Tallied := by
  unfold MutationEngine.upsertRow
  split
  · exact h
  · exact h.commitRow

theorem Tallied.insertIfAbsent : (self.insertIfAbsent runtime values).1.Tallied := by
  unfold MutationEngine.insertIfAbsent
  split
  · exact h
  · split
    · exact h
    · exact h.commitRow

theorem Tallied.insertBatchRow {row : BatchRow} {conflict : BatchConflict}
    {priors : Priors} : (self.insertBatchRow runtime row conflict priors).1.Tallied := by
  unfold MutationEngine.insertBatchRow
  split
  · exact h
  · dsimp only
    split_ifs
    all_goals first
      | exact h
      | split <;> rename_i hcommit <;> exact congrArg Prod.fst hcommit ▸ h.commitRow

theorem Tallied.cutMemtableTo (n : Nat) : (self.cutMemtableTo n).Tallied := by
  have hlength : self.memtableSurrogates.length = self.memtable.rowCount := h
  simp only [Tallied, MutationEngine.cutMemtableTo, ColumnarMemtable.truncateTo, length_take]
  split
  · omega
  · dsimp only
    omega

theorem Tallied.undoBatch (start : Nat)
    (entries : List (Bytes × PriorBinding)) : (self.undoBatch start entries).Tallied := by
  obtain ⟨bitmaps, hrestored, _⟩ := @foldl_restoreBinding self entries
  refine Tallied.cutMemtableTo ?_ start
  rw [hrestored]
  exact h

end

theorem Tallied.insertBatchFrom {start : Nat} {conflict : BatchConflict} {iterate : MapOrder}
    {rows : List BatchRow} {priors : Priors} (h : self.Tallied) :
    (insertBatchFrom runtime start conflict iterate self priors rows).1.Tallied := by
  induction rows generalizing self priors with
  | nil => exact h
  | cons row rest ih =>
    have hrow := @Tallied.insertBatchRow runtime self h row conflict priors
    rcases hstep : self.insertBatchRow runtime row conflict priors with
      ⟨next, nextPriors, error | records⟩
    · rw [hstep] at hrow
      simp only [MutationEngine.insertBatchFrom, hstep]
      exact hrow.undoBatch start _
    · rw [hstep] at hrow
      have hrest := @ih next nextPriors hrow
      simp only [MutationEngine.insertBatchFrom, hstep]
      split <;> rename_i hall <;> exact congrArg Prod.fst hall ▸ hrest

end Surrogates

end MutationEngine

theorem tallied_perform {store : Store} {step : Step} (h : store.engine.Tallied)
    (hwithin : step.Within runtime written store) : (store.perform runtime step).engine.Tallied := by
  cases step with
  | insert values | insertWithSurrogate values surrogate => exact h.upsertRow
  | insertIfAbsent values => exact h.insertIfAbsent
  | insertBatch rows conflict iterate => exact h.insertBatchFrom
  | delete pkValue =>
    simp only [Store.perform, MutationEngine.delete]
    split
    · exact h
    · exact h
  | update oldPk newValues flushedSurrogate =>
    obtain ⟨more, hsurrogates, hcount⟩ := @MutationEngine.surrogates_update runtime store.engine
      newValues oldPk flushedSurrogate
    have hlength : store.engine.memtableSurrogates.length = store.engine.memtable.rowCount := h
    rw [MutationEngine.Tallied, Store.perform, hsurrogates, hcount, length_append, hlength]
  | flush =>
    rw [Store.perform, MutationEngine.Tallied, flush_engine (hwithin.segments rfl)]
    rfl

theorem tallied_run {collection : String} {steps : List Step}
    (hwithin : Along (Store.perform runtime) (fun store step => step.Within runtime written store)
      (Store.new collection schema) steps) :
    ((Store.new collection schema).run runtime steps).engine.Tallied :=
  invariant_foldl (fun store : Store => store.engine.Tallied)
    (fun _ _ h hok => tallied_perform h hok) rfl hwithin

namespace MutationEngine

/-! ## What the undo leaves -/

def lastBinding (key : Bytes) : List (Bytes × RowLocation) → Option RowLocation
  | [] => none
  | entry :: rest => (lastBinding key rest).or (if entry.1 = key then some entry.2 else none)

section Recorded

variable {key : Bytes} {entries more : List (Bytes × RowLocation)} {location : RowLocation}

theorem lastBinding_append :
    lastBinding key (entries ++ more) = (lastBinding key more).or (lastBinding key entries) := by
  induction entries with
  | nil => simp [lastBinding]
  | cons entry rest ih => rw [cons_append, lastBinding, lastBinding, ih, Option.or_assoc]

theorem lastBinding_singleton (entry : Bytes × RowLocation) :
    lastBinding key [entry] = if entry.1 = key then some entry.2 else none := rfl

theorem mem_of_lastBinding (h : lastBinding key entries = some location) :
    (key, location) ∈ entries := by
  induction entries with
  | nil => exact nomatch h
  | cons entry rest ih =>
    rw [lastBinding, Option.or_eq_some_iff] at h
    obtain hrest | ⟨_, hentry⟩ := h
    · exact mem_cons_of_mem _ (ih hrest)
    · split at hentry
      · rename_i hkey
        obtain rfl := Option.some.inj hentry
        exact hkey ▸ mem_cons_self
      · exact nomatch hentry

theorem lastBinding_eq_none : lastBinding key entries = none ↔ key ∉ entries.map (·.1) := by
  induction entries with
  | nil => simp [lastBinding]
  | cons entry rest ih =>
    rw [lastBinding, Option.or_eq_none_iff, ih, map_cons, mem_cons, not_or]
    by_cases hkey : entry.1 = key
    · simp [hkey]
    · simp [hkey, Ne.symm hkey]

theorem getElem?_foldl_bind (index : PkIndex) :
    (entries.foldl (fun index entry => index.insert entry.1 entry.2) index)[key]? =
      (lastBinding key entries).or index[key]? := by
  induction entries generalizing index with
  | nil => simp [lastBinding]
  | cons entry rest ih =>
    rw [foldl_cons, ih, lastBinding, Option.or_assoc]
    congr 1
    by_cases hkey : entry.1 = key
    · subst hkey
      simp
    · rw [getElem?_insert_ne _ (Ne.symm hkey), if_neg hkey, Option.none_or]

end Recorded

section Undo

variable {self : MutationEngine} {location : RowLocation}

theorem restoreRow_eq (entry : Bytes × RowLocation) :
    ∃ bitmaps, self.restoreRow entry =
        { self with
          pkIndex := self.pkIndex.insert entry.1 entry.2
          deleteBitmaps := bitmaps } ∧
      ∀ location, isDeleted { self with deleteBitmaps := bitmaps } location = true ↔
        self.isDeleted location = true ∧ location ≠ entry.2 := by
  have heq : self.unmarkDeleted entry.2 =
      { self with deleteBitmaps := (self.unmarkDeleted entry.2).deleteBitmaps } := by
    unfold unmarkDeleted
    split <;> rfl
  refine ⟨(self.unmarkDeleted entry.2).deleteBitmaps, ?_, fun location => ?_⟩
  · simp only [restoreRow]
    rw [heq]
  · rw [← heq, isDeleted_unmarkDeleted]

theorem restoreDeletedRows_eq (rows : List (Bytes × RowLocation)) :
    ∃ bitmaps, self.restoreDeletedRows rows =
        { self with
          pkIndex := rows.foldl (fun index entry => index.insert entry.1 entry.2) self.pkIndex
          deleteBitmaps := bitmaps } ∧
      ∀ location, isDeleted { self with deleteBitmaps := bitmaps } location = true ↔
        self.isDeleted location = true ∧ location ∉ rows.map (·.2) := by
  induction rows generalizing self with
  | nil => exact ⟨self.deleteBitmaps, rfl, by simp⟩
  | cons entry rest ih =>
    obtain ⟨first, hfirst, hunmarked⟩ := @restoreRow_eq self entry
    obtain ⟨bitmaps, hrest, hdeleted⟩ := @ih (self.restoreRow entry)
    refine ⟨bitmaps, ?_, fun location => ?_⟩
    · rw [restoreDeletedRows, foldl_cons, ← restoreDeletedRows, hrest, hfirst]
      rfl
    · rw [map_cons, mem_cons, not_or, ← and_assoc, ← ne_eq, ← hunmarked location]
      rw [hfirst] at hdeleted
      exact hdeleted location

theorem undoColumnarUpdate_eq (outcome : ColumnarUpdateOutcome) (n : Nat) :
    ∃ index bitmaps, self.undoColumnarUpdate n outcome =
        { self with
          pkIndex := index
          deleteBitmaps := bitmaps
          memtable := self.memtable.truncateTo n
          memtableSurrogates := self.memtableSurrogates.take n
          memtableRowCounter := n % 2 ^ 32 } ∧
      (∀ key : Bytes, index[key]? = (lastBinding key outcome.restored).or
        ((lastBinding key outcome.displaced).or
          (if key ∈ outcome.insertedPks then none else self.pkIndex[key]?))) ∧
      ∀ location, isDeleted { self with deleteBitmaps := bitmaps } location = true ↔
        (self.isDeleted location = true ∧ location ∉ outcome.displaced.map (·.2) ∧
          (location.segmentId = self.memtableSegmentId → location.rowIndex < n)) ∧
        location ∉ outcome.restored.map (·.2) := by
  obtain ⟨displacedBitmaps, hdisplaced, hundisplaced⟩ := @restoreDeletedRows_eq
    { self with pkIndex := outcome.insertedPks.foldl (fun index pk => index.erase pk) self.pkIndex }
    outcome.displaced
  obtain ⟨bitmaps, hrestored, hunrestored⟩ := @restoreDeletedRows_eq
    (self.rollbackMemtableInserts n outcome.insertedPks outcome.displaced) outcome.restored
  refine ⟨(self.undoColumnarUpdate n outcome).pkIndex, bitmaps, ?_, fun key => ?_,
    fun location => ?_⟩
  · rw [undoColumnarUpdate, hrestored, rollbackMemtableInserts, hdisplaced]
    rfl
  · rw [undoColumnarUpdate, hrestored, getElem?_foldl_bind, rollbackMemtableInserts, hdisplaced]
    simp only [cutMemtableTo, getElem?_foldl_bind]
    congr 2
    ext bound
    refine (getElem?_foldl_erase_eq_some_iff (fun pk : Bytes => pk) outcome.insertedPks).trans ?_
    split_ifs with hmem
    · simpa using fun _ => hmem
    · simp only [ne_eq, and_iff_left_iff_imp]
      rintro _ pk hpk rfl
      exact hmem hpk
  · refine (hunrestored location).trans (and_congr_left fun _ => ?_)
    rw [rollbackMemtableInserts, isDeleted_cutMemtableTo, hdisplaced]
    refine Iff.trans (and_congr_left fun _ => hundisplaced location) ?_
    rw [and_assoc]
    rfl

end Undo

end MutationEngine

end NodeDB.Columnar
