import NodeDB.CellVersions
import NodeDB.StepRuns

/-!
# Ceiling reads against the writes that were applied

A run puts, deletes and erases cells and flushes the memtable.  The reference
answer of a read looks at the applied writes alone: the last one at each system
time, from the newest time down.

The read walks the memtable before the segments.  It agrees with the reference
as long as no write goes back to a system time at or below a flushed version
of its coordinate, and no coordinate has a negative zero.
-/

namespace NodeDB.ArrayEngine

open ByteFrame Std StepRuns List TreeMap TileBuffer

/-! ## The reference answer -/

structure AppliedWrite (ν : Type) where
  coord : Coord
  systemFromMs : Int
  cell : Cell ν

section Reference

variable {ν : Type}

def lastAt (applied : List (AppliedWrite ν)) (coord : Coord) (time : Int) : Option (Cell ν) :=
  (applied.reverse.find? fun write => write.coord = coord ∧ write.systemFromMs = time).map
    AppliedWrite.cell

/-- The system times of the coordinate's writes up to the cutoff, newest first. -/
def systemTimes (applied : List (AppliedWrite ν)) (coord : Coord) (systemAsOf : Int) : List Int :=
  (((applied.filter fun write => write.coord = coord ∧ write.systemFromMs ≤ systemAsOf).map
    AppliedWrite.systemFromMs).dedup).insertionSort (· ≥ ·)

/-- The first cell that is a tombstone, an erasure, or live at the valid-time point. -/
def firstAnswer (validAtMs : Option Int) : List (Cell ν) → CeilingResult ν
  | [] => .notFound
  | .tombstone :: _ => .tombstoned
  | .erasure :: _ => .erased
  | .live payload :: older =>
    if answersAt validAtMs payload then .live payload else firstAnswer validAtMs older

def referenceAnswer (applied : List (AppliedWrite ν)) (coord : Coord) (systemAsOf : Int)
    (validAtMs : Option Int) : CeilingResult ν :=
  firstAnswer validAtMs ((systemTimes applied coord systemAsOf).filterMap (lastAt applied coord))

theorem lastAt_append (applied : List (AppliedWrite ν)) (write : AppliedWrite ν) (coord : Coord)
    (time : Int) :
    lastAt (applied ++ [write]) coord time =
      if write.coord = coord ∧ write.systemFromMs = time then some write.cell
      else lastAt applied coord time := by
  rw [lastAt, reverse_append, reverse_singleton, singleton_append, find?_cons]
  split
  · rename_i heq
    rw [if_pos (of_decide_eq_true heq)]
    rfl
  · rename_i heq
    rw [if_neg (of_decide_eq_false heq)]
    rfl

variable {applied : List (AppliedWrite ν)} {coord : Coord} {time : Int}

theorem lastAt_isSome :
    (lastAt applied coord time).isSome ↔
      ∃ write ∈ applied, write.coord = coord ∧ write.systemFromMs = time := by
  simp [lastAt, find?_isSome]

theorem exists_of_lastAt {cell : Cell ν}
    (h : lastAt applied coord time = some cell) : ∃ write ∈ applied, write.cell = cell := by
  obtain ⟨write, hfind, hcell⟩ := Option.map_eq_some_iff.mp h
  exact ⟨write, mem_reverse.mp (mem_of_find?_eq_some hfind), hcell⟩

theorem mem_systemTimes {systemAsOf : Int} :
    time ∈ systemTimes applied coord systemAsOf ↔
      time ≤ systemAsOf ∧ (lastAt applied coord time).isSome := by
  rw [systemTimes, mem_insertionSort, mem_dedup, mem_map, lastAt_isSome]
  constructor
  · rintro ⟨write, hwrite, rfl⟩
    obtain ⟨hmem, hcoord, hle⟩ : write ∈ applied ∧ write.coord = coord ∧ _ := by
      simpa using hwrite
    exact ⟨hle, write, hmem, hcoord, rfl⟩
  · rintro ⟨hle, write, hmem, hcoord, rfl⟩
    exact ⟨write, by simp [hmem, hcoord, hle], rfl⟩

theorem systemTimes_descending (applied : List (AppliedWrite ν)) (coord : Coord)
    (systemAsOf : Int) : (systemTimes applied coord systemAsOf).Pairwise (· > ·) := by
  have hdistinct : (systemTimes applied coord systemAsOf).Nodup :=
    (perm_insertionSort _ _).nodup_iff.mpr (nodup_dedup _)
  have hsorted : (systemTimes applied coord systemAsOf).Pairwise (· ≥ ·) :=
    pairwise_insertionSort _ _
  refine (hsorted.and hdistinct).imp fun {one other} h => ?_
  obtain ⟨hle, hne⟩ := h
  omega

end Reference

/-! ## Runs -/

inductive ArrayOp (ν : Type) where
  | putCell (args : PutCell ν)
  | deleteCell (coord : Coord) (systemFromMs : Int) (lsn : Nat)
  | eraseCell (coord : Coord) (systemFromMs : Int) (lsn : Nat)
  | flush (shuffle : TileId → Shuffle (Bytes × Bytes))

structure ArrayRun (ν : Type) where
  store : ArrayStore ν
  applied : List (AppliedWrite ν)

def ArrayRun.initial {ν : Type} : ArrayRun ν where
  store := ArrayStore.empty
  applied := []

section Runs

variable {ν : Type} (schema : ArraySchema) (codec : CellCodec ν)

/-- Takes over the memtable after a write; one that succeeded has been applied. -/
def ArrayRun.wrote (run : ArrayRun ν) (write : AppliedWrite ν)
    (outcome : Memtable × Except ArrayError TileId) : ArrayRun ν where
  store := { run.store with memtable := outcome.1 }
  applied :=
    match outcome.2 with
    | .ok _ => run.applied ++ [write]
    | .error _ => run.applied

def ArrayRun.step (run : ArrayRun ν) : ArrayOp ν → ArrayRun ν
  | .putCell args =>
    run.wrote ⟨args.coord, args.systemFromMs, .live args.payload⟩
      (run.store.memtable.putCell schema codec args)
  | .deleteCell coord systemFromMs lsn =>
    run.wrote ⟨coord, systemFromMs, .tombstone⟩
      (run.store.memtable.deleteCell schema codec coord systemFromMs lsn)
  | .eraseCell coord systemFromMs lsn =>
    run.wrote ⟨coord, systemFromMs, .erasure⟩
      (run.store.memtable.eraseCell schema codec coord systemFromMs lsn)
  | .flush shuffle => { run with store := run.store.flush schema codec shuffle }

def NoNegativeZero (coord : Coord) : Prop := .float64 negativeZero ∉ coord
  deriving Decidable

def ArrayStore.flushedAt (store : ArrayStore ν) (coord : Coord) : List (TileId × Bytes) :=
  match schema.tilePrefix coord with
  | .ok hilbert => store.flushed codec hilbert coord
  | .error _ => []

/-- The write's time is later than every flushed version of its coordinate. -/
def Fresh (store : ArrayStore ν) (coord : Coord) (systemFromMs : Int) : Prop :=
  ∀ version ∈ store.flushedAt schema codec coord, version.1.systemFromMs < systemFromMs
  deriving Decidable

def Forward (run : ArrayRun ν) : ArrayOp ν → Prop
  | .putCell args =>
    NoNegativeZero args.coord ∧ Fresh schema codec run.store args.coord args.systemFromMs
  | .deleteCell coord systemFromMs _ =>
    NoNegativeZero coord ∧ Fresh schema codec run.store coord systemFromMs
  | .eraseCell coord systemFromMs _ =>
    NoNegativeZero coord ∧ Fresh schema codec run.store coord systemFromMs
  | .flush _ => True

instance (run : ArrayRun ν) (op : ArrayOp ν) : Decidable (Forward schema codec run op) := by
  cases op <;> dsimp only [Forward] <;> infer_instance

/-! ## One write -/

def Memtable.pushVersion (memtable : Memtable) (write : AppliedWrite ν) (lsn : Nat) :
    Memtable × Except ArrayError TileId :=
  match schema.tilePrefix write.coord, write.cell.encode codec with
  | .ok hilbert, .ok bytes =>
    memtable.pushCell codec ⟨hilbert, write.systemFromMs⟩ write.coord bytes lsn
  | .ok _, .error error => (memtable, .error error)
  | .error error, _ => (memtable, .error error)

theorem Memtable.pushSentinel_eq {sentinel : Bytes} {cell : Cell ν}
    (hsentinel : cell.encode codec = .ok sentinel) (memtable : Memtable) (coord : Coord)
    (systemFromMs : Int) (lsn : Nat) :
    memtable.pushSentinel schema codec sentinel coord systemFromMs lsn =
      memtable.pushVersion schema codec ⟨coord, systemFromMs, cell⟩ lsn := by
  simp only [Memtable.pushSentinel, Memtable.pushVersion, hsentinel]
  cases schema.tilePrefix coord <;> rfl

variable {run : ArrayRun ν} {op : ArrayOp ν} {key bytes : Bytes} {version : Coord × Cell ν}
  {memtable : Memtable} {hilbert : Nat} {coord : Coord} {id : TileId} {store : ArrayStore ν}
  {error : ArrayError} {write : AppliedWrite ν} {versions : List (TileId × Bytes)}

theorem ArrayRun.step_cases (hforward : Forward schema codec run op) :
    (∃ shuffle, run.step schema codec op =
      { run with store := run.store.flush schema codec shuffle }) ∨
    ∃ write lsn, NoNegativeZero write.coord ∧
      Fresh schema codec run.store write.coord write.systemFromMs ∧
      run.step schema codec op =
        run.wrote write (run.store.memtable.pushVersion schema codec write lsn) := by
  cases op with
  | putCell args => exact .inr ⟨⟨_, _, .live args.payload⟩, args.lsn, hforward.1, hforward.2, rfl⟩
  | deleteCell coord systemFromMs lsn =>
    refine .inr ⟨⟨coord, systemFromMs, .tombstone⟩, lsn, hforward.1, hforward.2, ?_⟩
    rw [ArrayRun.step, Memtable.deleteCell,
      Memtable.pushSentinel_eq schema codec (rfl : Cell.tombstone.encode codec = _)]
  | eraseCell coord systemFromMs lsn =>
    refine .inr ⟨⟨coord, systemFromMs, .erasure⟩, lsn, hforward.1, hforward.2, ?_⟩
    rw [ArrayRun.step, Memtable.eraseCell,
      Memtable.pushSentinel_eq schema codec (rfl : Cell.erasure.encode codec = _)]
  | flush shuffle => exact .inl ⟨shuffle, rfl⟩

variable {schema codec}

theorem Memtable.pushVersion_cases (memtable : Memtable) (write : AppliedWrite ν) (lsn : Nat) :
    (∃ error, (memtable.pushVersion schema codec write lsn).2 = .error error ∧
      ((memtable.pushVersion schema codec write lsn).1 = memtable ∨
        ∃ tile, (memtable.pushVersion schema codec write lsn).1 =
          memtable.insert tile (memtable.getD tile TileBuffer.empty))) ∨
    ∃ hilbert key bytes, schema.tilePrefix write.coord = .ok hilbert ∧
      Stores codec (key, bytes) (write.coord, write.cell) ∧
      memtable.pushVersion schema codec write lsn =
        (memtable.insert ⟨hilbert, write.systemFromMs⟩
          ((memtable.getD ⟨hilbert, write.systemFromMs⟩ TileBuffer.empty).push key bytes lsn),
          .ok ⟨hilbert, write.systemFromMs⟩) := by
  cases hpre : schema.tilePrefix write.coord with
  | error error =>
    have hsame : memtable.pushVersion schema codec write lsn = (memtable, .error error) := by
      simp only [Memtable.pushVersion, hpre]
    rw [hsame]
    exact .inl ⟨error, rfl, .inl rfl⟩
  | ok hilbert =>
    cases hbytes : write.cell.encode codec with
    | error error =>
      have hsame : memtable.pushVersion schema codec write lsn = (memtable, .error error) := by
        simp only [Memtable.pushVersion, hpre, hbytes]
      rw [hsame]
      exact .inl ⟨error, rfl, .inl rfl⟩
    | ok bytes =>
      simp only [Memtable.pushVersion, hpre, hbytes, Memtable.pushCell]
      cases hkey : codec.encodeCoord write.coord with
      | error error => exact .inl ⟨error, rfl, .inr ⟨_, rfl⟩⟩
      | ok key => exact .inr ⟨hilbert, key, bytes, rfl, ⟨hkey, hbytes⟩, rfl⟩

theorem TileBuffer.getCellBytes_push {buffer : TileBuffer} (h : Stores codec (key, bytes) version)
    (lsn : Nat) (coord : Coord) :
    (buffer.push key bytes lsn).getCellBytes codec coord =
      if version.1 = coord then some bytes else buffer.getCellBytes codec coord := by
  by_cases heq : version.1 = coord
  · rw [if_pos heq, ← heq, getCellBytes, h.key]
    exact getElem?_insert_self
  · rw [if_neg heq, getCellBytes, getCellBytes]
    cases hkey : codec.encodeCoord coord with
    | error error => rfl
    | ok other =>
      have hne : key ≠ other := by
        rintro rfl
        have hdecode := codec.decodeCoord_encodeCoord h.key
        rw [codec.decodeCoord_encodeCoord hkey] at hdecode
        exact heq (Except.ok.inj hdecode).symm
      simp only [TileBuffer.push]
      rw [TreeMap.getElem?_insert, if_neg]
      simpa [LawfulEqOrd.compare_eq_iff_eq] using hne

theorem TileBuffer.Sound.push {buffer : TileBuffer} (hsound : buffer.Sound codec)
    (h : Stores codec (key, bytes) version) (hplain : Plain version.1) (lsn : Nat) :
    (buffer.push key bytes lsn).Sound codec := by
  rintro ⟨other, stored⟩ hentry
  rw [TreeMap.mem_toList_iff_getElem?_eq_some] at hentry
  simp only [TileBuffer.push, TreeMap.getElem?_insert, LawfulEqOrd.compare_eq_iff_eq] at hentry
  split at hentry
  · rename_i hkey
    obtain rfl := Option.some.inj hentry
    subst hkey
    exact ⟨version, hplain, h⟩
  · exact hsound _ (TreeMap.mem_toList_iff_getElem?_eq_some.mpr hentry)

theorem Memtable.mem_versions :
    (id, bytes) ∈ Memtable.versions codec hilbert coord memtable ↔
      id.hilbertPrefix = hilbert ∧
        (memtable.getD id TileBuffer.empty).getCellBytes codec coord = some bytes := by
  rw [Memtable.versions, mem_versionsAmong, getD_eq_getD_getElem?]
  refine and_congr_right fun _ => ?_
  cases hid : memtable[id]? with
  | some buffer =>
    simp only [TreeMap.mem_toList_iff_getElem?_eq_some, hid, Option.some.injEq, Option.getD_some]
    constructor
    · rintro ⟨other, rfl, hbytes⟩
      exact hbytes
    · exact fun hbytes => ⟨buffer, rfl, hbytes⟩
  | none =>
    have hempty : TileBuffer.empty.getCellBytes codec coord = none :=
      TileBuffer.getCellBytes_of_size (by simp [TileBuffer.empty]) coord
    simp [TreeMap.mem_toList_iff_getElem?_eq_some, hid, hempty]

theorem Memtable.mem_versions_push {tile : TileId} (h : Stores codec (key, bytes) version)
    (lsn : Nat) {found : Bytes} :
    (id, found) ∈ Memtable.versions codec hilbert coord (memtable.insert tile
        ((memtable.getD tile TileBuffer.empty).push key bytes lsn)) ↔
      id.hilbertPrefix = hilbert ∧
        if tile = id ∧ version.1 = coord then found = bytes
        else (id, found) ∈ Memtable.versions codec hilbert coord memtable := by
  rw [Memtable.mem_versions, getD_insert]
  simp only [LawfulEqOrd.compare_eq_iff_eq]
  refine and_congr_right fun hpre => ?_
  rw [Memtable.mem_versions]
  by_cases hid : tile = id
  · rw [if_pos hid, getCellBytes_push h, hid]
    by_cases hcoord : version.1 = coord
    · simp [hcoord, eq_comm]
    · simp [hcoord, hpre]
  · simp [hid, hpre]

theorem Memtable.versions_ascending (memtable : Memtable) (hilbert : Nat) (coord : Coord) :
    (Memtable.versions codec hilbert coord memtable).Pairwise fun one other =>
      one.1.systemFromMs < other.1.systemFromMs :=
  versionsAmong_ascending ordered_keys_toList

/-! ## What the store holds reflects the applied writes -/

theorem plain_of_tilePrefix (hzero : NoNegativeZero coord)
    (h : schema.tilePrefix coord = .ok hilbert) : Plain coord := by
  intro value hvalue
  cases value with
  | float64 bits =>
    refine ⟨schema.finite_of_tilePrefix h bits hvalue, ?_⟩
    rintro rfl
    exact hzero hvalue
  | int64 value | timestampMs value | string value => trivial

variable (schema codec) in
/-- The store holds, in ascending order of time, the last write at every time. -/
structure ArrayRun.Reflects (run : ArrayRun ν) : Prop where
  kept : run.store.Kept codec schema
  written : ∀ write ∈ run.applied, (∃ hilbert, schema.tilePrefix write.coord = .ok hilbert) ∧
    ∃ bytes, write.cell.encode codec = .ok bytes
  ascending : ∀ coord hilbert, NoNegativeZero coord → schema.tilePrefix coord = .ok hilbert →
    (run.store.held codec hilbert coord).Pairwise fun one other =>
      one.1.systemFromMs < other.1.systemFromMs
  versions : ∀ coord hilbert, NoNegativeZero coord → schema.tilePrefix coord = .ok hilbert →
    ∀ id bytes, (id, bytes) ∈ run.store.held codec hilbert coord ↔
      id.hilbertPrefix = hilbert ∧ ∃ cell, lastAt run.applied coord id.systemFromMs = some cell ∧
        cell.encode codec = .ok bytes

theorem ArrayRun.Reflects.initial : (ArrayRun.initial : ArrayRun ν).Reflects schema codec := by
  have hheld : ∀ coord hilbert,
      (ArrayRun.initial : ArrayRun ν).store.held codec hilbert coord = [] := by
    intro coord hilbert
    simp [ArrayRun.initial, ArrayStore.empty, ArrayStore.held, ArrayStore.flushed,
      Memtable.versions, versionsAmong]
  refine ⟨⟨?_, ?_, ?_⟩, ?_, ?_, ?_⟩
  · simp [ArrayRun.initial, ArrayStore.empty]
  · simp [ArrayRun.initial, ArrayStore.empty]
  · simp [ArrayRun.initial, ArrayStore.empty]
  · simp [ArrayRun.initial]
  · intro coord hilbert _ _
    rw [hheld]
    exact List.Pairwise.nil
  · intro coord hilbert _ _ id bytes
    rw [hheld]
    simp [ArrayRun.initial, lastAt]

theorem ArrayRun.Reflects.of_held {next : ArrayRun ν} (h : run.Reflects schema codec)
    (hkept : next.store.Kept codec schema) (happlied : next.applied = run.applied)
    (hheld : ∀ coord hilbert, NoNegativeZero coord → schema.tilePrefix coord = .ok hilbert →
      next.store.held codec hilbert coord = run.store.held codec hilbert coord) :
    next.Reflects schema codec := by
  refine ⟨hkept, happlied ▸ h.written, ?_, ?_⟩
  · intro coord hilbert hzero hpre
    rw [hheld coord hilbert hzero hpre]
    exact h.ascending coord hilbert hzero hpre
  · intro coord hilbert hzero hpre
    rw [hheld coord hilbert hzero hpre, happlied]
    exact h.versions coord hilbert hzero hpre

theorem ArrayRun.Reflects.flush (h : run.Reflects schema codec)
    (shuffle : TileId → Shuffle (Bytes × Bytes)) :
    ({ run with store := run.store.flush schema codec shuffle } : ArrayRun ν).Reflects
      schema codec :=
  h.of_held (h.kept.flush shuffle) rfl fun _ _ hzero hpre => h.kept.held_flush shuffle
    (plain_of_tilePrefix hzero hpre) (schema.length_of_tilePrefix hpre)

theorem TileBuffer.sound_empty : TileBuffer.empty.Sound codec := by
  intro entry hentry
  exact absurd hentry not_mem_nil

theorem ArrayStore.Kept.buffer (h : store.Kept codec schema) (tile : TileId) :
    (store.memtable.getD tile TileBuffer.empty).Sound codec := by
  rw [getD_eq_getD_getElem?]
  cases htile : store.memtable[tile]? with
  | none => exact sound_empty
  | some buffer => exact h.sound _ (TreeMap.mem_toList_iff_getElem?_eq_some.mpr htile)

theorem ArrayStore.Kept.insert (h : store.Kept codec schema) (tile : TileId) {buffer : TileBuffer}
    (hbuffer : buffer.Sound codec) :
    ({ store with memtable := store.memtable.insert tile buffer } : ArrayStore ν).Kept
      codec schema := by
  refine ⟨?_, h.ascending, h.readable⟩
  rintro ⟨id, other⟩ hother
  rw [TreeMap.mem_toList_iff_getElem?_eq_some, TreeMap.getElem?_insert] at hother
  split at hother
  · obtain rfl := Option.some.inj hother
    exact hbuffer
  · exact h.sound _ (TreeMap.mem_toList_iff_getElem?_eq_some.mpr hother)

theorem Memtable.versions_insert_getD (memtable : Memtable) (tile : TileId) (hilbert : Nat)
    (coord : Coord) :
    Memtable.versions codec hilbert coord
        (memtable.insert tile (memtable.getD tile TileBuffer.empty)) =
      Memtable.versions codec hilbert coord memtable := by
  have : Std.Irrefl fun one other : TileId × Bytes =>
      one.1.systemFromMs < other.1.systemFromMs := ⟨fun _ => Int.lt_irrefl _⟩
  refine List.Pairwise.eq_of_mem_iff (Memtable.versions_ascending _ _ _)
    (Memtable.versions_ascending _ _ _) fun version => ?_
  obtain ⟨id, bytes⟩ := version
  rw [Memtable.mem_versions, Memtable.mem_versions, getD_insert]
  simp only [LawfulEqOrd.compare_eq_iff_eq]
  split
  · rename_i heq
    rw [heq]
  · rfl

theorem ArrayRun.Reflects.refused (h : run.Reflects schema codec) (write : AppliedWrite ν)
    (hmemtable : memtable = run.store.memtable ∨ ∃ tile, memtable =
      run.store.memtable.insert tile (run.store.memtable.getD tile TileBuffer.empty)) :
    (run.wrote write (memtable, .error error)).Reflects schema codec := by
  obtain rfl | ⟨tile, rfl⟩ := hmemtable
  · exact h.of_held h.kept rfl fun _ _ _ _ => rfl
  · refine h.of_held (h.kept.insert tile (h.kept.buffer tile)) rfl fun coord hilbert _ _ => ?_
    simp only [ArrayStore.held, ArrayRun.wrote, Memtable.versions_insert_getD]
    rfl

theorem Fresh.flushed_lt {systemFromMs : Int} (hfresh : Fresh schema codec store coord systemFromMs)
    (hpre : schema.tilePrefix coord = .ok hilbert) {version : TileId × Bytes}
    (hversion : version ∈ store.flushed codec hilbert coord) :
    version.1.systemFromMs < systemFromMs := by
  refine hfresh version ?_
  rw [ArrayStore.flushedAt, hpre]
  exact hversion

theorem lastAt_wrote {applied : List (AppliedWrite ν)}
    (hpre : schema.tilePrefix write.coord = .ok hilbert) {other : Nat}
    (hother : schema.tilePrefix coord = .ok other) (hid : id.hilbertPrefix = other) :
    lastAt (applied ++ [write]) coord id.systemFromMs =
      if (⟨hilbert, write.systemFromMs⟩ : TileId) = id ∧ write.coord = coord then some write.cell
      else lastAt applied coord id.systemFromMs := by
  rw [lastAt_append]
  refine if_congr ⟨?_, ?_⟩ rfl rfl
  · rintro ⟨rfl, htime⟩
    obtain rfl : hilbert = other := Except.ok.inj (hpre.symm.trans hother)
    rw [← hid, htime]
    exact ⟨rfl, rfl⟩
  · rintro ⟨rfl, hcoord⟩
    exact ⟨hcoord, rfl⟩

theorem ArrayRun.Reflects.applied (h : run.Reflects schema codec)
    (hzero : NoNegativeZero write.coord)
    (hfresh : Fresh schema codec run.store write.coord write.systemFromMs)
    (hpre : schema.tilePrefix write.coord = .ok hilbert)
    (hstores : Stores codec (key, bytes) (write.coord, write.cell)) (lsn : Nat) :
    (run.wrote write (run.store.memtable.insert ⟨hilbert, write.systemFromMs⟩
      ((run.store.memtable.getD ⟨hilbert, write.systemFromMs⟩ TileBuffer.empty).push key bytes lsn),
      .ok ⟨hilbert, write.systemFromMs⟩)).Reflects schema codec := by
  have hplain := plain_of_tilePrefix hzero hpre
  refine ⟨h.kept.insert _ ((h.kept.buffer _).push hstores hplain lsn), ?_, ?_, ?_⟩
  · intro other hother
    obtain hold | hnew := mem_append.mp hother
    · exact h.written other hold
    · rw [mem_singleton.mp hnew]
      exact ⟨⟨hilbert, hpre⟩, bytes, hstores.bytes⟩
  · intro coord other hcoord hother
    obtain ⟨hflushed, -, hcross⟩ := pairwise_append.mp (h.ascending coord other hcoord hother)
    refine pairwise_append.mpr ⟨hflushed, Memtable.versions_ascending _ _ _, ?_⟩
    rintro flushed hmem ⟨id, found⟩ hversion
    obtain ⟨-, hversion⟩ := (Memtable.mem_versions_push hstores lsn).mp hversion
    split at hversion
    · rename_i hwritten
      obtain ⟨rfl, rfl⟩ := hwritten
      exact hfresh.flushed_lt hother hmem
    · exact hcross flushed hmem _ hversion
  · intro coord other hcoord hother id found
    have hold := h.versions coord other hcoord hother id found
    rw [ArrayStore.held, mem_append] at hold ⊢
    simp only [ArrayRun.wrote]
    rw [Memtable.mem_versions_push hstores]
    by_cases hid : id.hilbertPrefix = other
    · rw [lastAt_wrote hpre hother hid]
      by_cases hwritten : (⟨hilbert, write.systemFromMs⟩ : TileId) = id ∧ write.coord = coord
      · obtain ⟨rfl, rfl⟩ := hwritten
        -- the flushed versions are older
        have hflushed : ((⟨hilbert, write.systemFromMs⟩ : TileId), found) ∉
            run.store.flushed codec other write.coord :=
          fun hmem => Int.lt_irrefl _ (hfresh.flushed_lt hother hmem)
        simp only [and_self, if_true]
        constructor
        · rintro (hmem | ⟨-, rfl⟩)
          · exact absurd hmem hflushed
          · exact ⟨hid, write.cell, rfl, hstores.bytes⟩
        · rintro ⟨-, cell, hcell, hencode⟩
          obtain rfl := Option.some.inj hcell
          exact .inr ⟨hid, Except.ok.inj (hencode.symm.trans hstores.bytes)⟩
      · simp only [if_neg hwritten]
        rw [← hold]
        exact or_congr_right (and_iff_right hid)
    · constructor
      · rintro (hmem | ⟨hsame, -⟩)
        · exact absurd (hold.mp (.inl hmem)).1 hid
        · exact absurd hsame hid
      · rintro ⟨hsame, -⟩
        exact absurd hsame hid

theorem ArrayRun.Reflects.step (h : run.Reflects schema codec)
    (hforward : Forward schema codec run op) :
    (run.step schema codec op).Reflects schema codec := by
  obtain ⟨shuffle, hstep⟩ | ⟨write, lsn, hzero, hfresh, hstep⟩ :=
    ArrayRun.step_cases schema codec hforward
  · rw [hstep]
    exact h.flush shuffle
  · rw [hstep]
    obtain ⟨error, herror, hmemtable⟩ | ⟨hilbert, key, bytes, hpre, hstores, hpush⟩ :=
      run.store.memtable.pushVersion_cases write lsn
    · have hrefused : (run.wrote write
          ((run.store.memtable.pushVersion schema codec write lsn).1, .error error)).Reflects
            schema codec := h.refused write hmemtable
      rwa [← herror] at hrefused
    · rw [hpush]
      exact h.applied hzero hfresh hpre hstores lsn

/-! ## Reads -/

theorem ceilingResolveCell_eq {applied : List (AppliedWrite ν)} {systemAsOf : Int}
    (htime : ∀ version ∈ versions, version.1.systemFromMs ≤ systemAsOf)
    (hcells : ∀ version ∈ versions, ∃ cell,
      lastAt applied coord version.1.systemFromMs = some cell ∧ cell.encode codec = .ok version.2)
    (validAtMs : Option Int) :
    ceilingResolveCell codec systemAsOf validAtMs versions =
      .ok (firstAnswer validAtMs ((versions.map fun version =>
        version.1.systemFromMs).filterMap (lastAt applied coord))) := by
  induction versions with
  | nil => rfl
  | cons version older ih =>
    obtain ⟨tileId, bytes⟩ := version
    obtain ⟨hhere, htime⟩ := forall_mem_cons.mp htime
    obtain ⟨⟨cell, hcell, hencode⟩, hcells⟩ := forall_mem_cons.mp hcells
    have hnot : ¬ tileId.systemFromMs > systemAsOf := Int.not_lt.mpr hhere
    rw [ceilingResolveCell, if_neg hnot, map_cons, filterMap_cons_some hcell]
    cases cell with
    | tombstone | erasure =>
      obtain rfl := Except.ok.inj hencode
      rfl
    | live payload =>
      have hsentinel := codec.packPayload_not_sentinel (CellPayload.encode_eq_ok.mp hencode).2
      simp only [isCellSentinel, Bool.or_eq_false_iff] at hsentinel
      rw [if_neg (by simp [hsentinel.1]), if_neg (by simp [hsentinel.2]),
        CellPayload.decode_of_encode hencode, firstAnswer, ih htime hcells]
      exact (apply_ite Except.ok _ _ _).symm

/-- A coordinate that no tile can have is refused; one outside the domain is never found. -/
def ArraySchema.admits (schema : ArraySchema) (coord : Coord) : Except ArrayError Unit :=
  match schema.tilePrefix coord with
  | .ok _ => .ok ()
  | .error (.coordOutOfDomain _ _ _) => .ok ()
  | .error _ => .error (.segmentCorruption "ceiling_for_coord: tile id")

/-- The list holds, in ascending order of time, the last write at every time. -/
structure Lists (codec : CellCodec ν) (applied : List (AppliedWrite ν)) (hilbert : Nat)
    (coord : Coord) (versions : List (TileId × Bytes)) : Prop where
  ascending : versions.Pairwise fun one other => one.1.systemFromMs < other.1.systemFromMs
  versions : ∀ id bytes, (id, bytes) ∈ versions ↔
    id.hilbertPrefix = hilbert ∧ ∃ cell, lastAt applied coord id.systemFromMs = some cell ∧
      cell.encode codec = .ok bytes
  written : ∀ write ∈ applied, ∃ bytes, write.cell.encode codec = .ok bytes

theorem Lists.times {applied : List (AppliedWrite ν)}
    (h : Lists codec applied hilbert coord versions) (systemAsOf : Int) :
    ((versions.filter fun version =>
      decide (version.1.systemFromMs ≤ systemAsOf)).reverse.map fun version =>
        version.1.systemFromMs) = systemTimes applied coord systemAsOf := by
  have hascending := h.ascending.filter fun version =>
    decide (version.1.systemFromMs ≤ systemAsOf)
  refine List.Pairwise.eq_of_mem_iff (r := (· > ·))
    (pairwise_map.mpr (pairwise_reverse.mpr hascending))
    (systemTimes_descending applied coord systemAsOf) fun time => ?_
  rw [mem_systemTimes]
  simp only [mem_map, mem_reverse, mem_filter, decide_eq_true_eq, Prod.exists, h.versions]
  constructor
  · rintro ⟨id, bytes, ⟨⟨-, cell, hcell, -⟩, hle⟩, rfl⟩
    exact ⟨hle, Option.isSome_iff_exists.mpr ⟨cell, hcell⟩⟩
  · rintro ⟨hle, hsome⟩
    obtain ⟨cell, hcell⟩ := Option.isSome_iff_exists.mp hsome
    obtain ⟨write, hwrite, rfl⟩ := exists_of_lastAt hcell
    obtain ⟨bytes, hbytes⟩ := h.written write hwrite
    exact ⟨⟨hilbert, time⟩, bytes, ⟨⟨rfl, write.cell, hcell, hbytes⟩, hle⟩, rfl⟩

theorem Lists.ceiling {applied : List (AppliedWrite ν)}
    (h : Lists codec applied hilbert coord (store.held codec hilbert coord))
    (hsegments : ∀ segment ∈ store.segments,
      Ascending segment ∧ Segment.Readable codec coord segment)
    (hpre : schema.tilePrefix coord = .ok hilbert) (shuffle : Shuffle (Segment ν))
    (systemAsOf : Int) (validAtMs : Option Int) :
    store.ceilingForCoord codec schema shuffle coord systemAsOf validAtMs =
      .ok (referenceAnswer applied coord systemAsOf validAtMs) := by
  have hversions := cellVersionsForCoord_eq hsegments
    (pairwise_append.mp h.ascending).1 shuffle systemAsOf
  have htime : ∀ version ∈ ((store.held codec hilbert coord).filter fun version =>
      decide (version.1.systemFromMs ≤ systemAsOf)).reverse,
        version.1.systemFromMs ≤ systemAsOf := fun version hmem =>
    of_decide_eq_true (mem_filter.mp (mem_reverse.mp hmem)).2
  have hcells : ∀ version ∈ ((store.held codec hilbert coord).filter fun version =>
      decide (version.1.systemFromMs ≤ systemAsOf)).reverse, ∃ cell,
        lastAt applied coord version.1.systemFromMs = some cell ∧
          cell.encode codec = .ok version.2 := fun version hmem =>
    ((h.versions version.1 version.2).mp
      (mem_filter.mp (mem_reverse.mp hmem)).1).2
  simp only [ArrayStore.ceilingForCoord, hpre]
  rw [hversions, ok_bind, ceilingResolveCell_eq htime hcells, h.times]
  rfl

theorem ceilingForCoord_of_error (hpre : schema.tilePrefix coord = .error error)
    (store : ArrayStore ν) (shuffle : Shuffle (Segment ν)) (systemAsOf : Int)
    (validAtMs : Option Int) :
    store.ceilingForCoord codec schema shuffle coord systemAsOf validAtMs = (do
      let _ ← schema.admits coord
      return .notFound) := by
  simp only [ArrayStore.ceilingForCoord, ArraySchema.admits, hpre]
  cases error <;> rfl

theorem ArrayRun.Reflects.ceiling (h : run.Reflects schema codec) (shuffle : Shuffle (Segment ν))
    (hzero : NoNegativeZero coord) (systemAsOf : Int) (validAtMs : Option Int) :
    run.store.ceilingForCoord codec schema shuffle coord systemAsOf validAtMs = (do
      let _ ← schema.admits coord
      return referenceAnswer run.applied coord systemAsOf validAtMs) := by
  cases hpre : schema.tilePrefix coord with
  | ok hilbert =>
    have hsegments : ∀ segment ∈ run.store.segments,
        Ascending segment ∧ Segment.Readable codec coord segment := fun segment hmem =>
      ⟨h.kept.ascending segment hmem, h.kept.readable segment hmem coord
        (plain_of_tilePrefix hzero hpre) (schema.length_of_tilePrefix hpre)⟩
    have hlists : Lists codec run.applied hilbert coord (run.store.held codec hilbert coord) :=
      ⟨h.ascending coord hilbert hzero hpre, h.versions coord hilbert hzero hpre,
        fun write hwrite => (h.written write hwrite).2⟩
    rw [hlists.ceiling hsegments hpre shuffle, ArraySchema.admits, hpre]
    rfl
  | error error =>
    have hnone : systemTimes run.applied coord systemAsOf = [] := by
      refine eq_nil_iff_forall_not_mem.mpr fun time htime => ?_
      obtain ⟨write, hwrite, rfl, -⟩ := lastAt_isSome.mp (mem_systemTimes.mp htime).2
      obtain ⟨⟨hilbert, hok⟩, -⟩ := h.written write hwrite
      rw [hok] at hpre
      exact absurd hpre (by simp)
    rw [ceilingForCoord_of_error hpre, referenceAnswer, hnone]
    rfl

/-- In every run whose writes move forward past what was flushed, every read answers as the
reference does. -/
theorem ceilingForCoord_follows_system_time (ops : List (ArrayOp ν))
    (halong : Along (ArrayRun.step schema codec) (Forward schema codec) ArrayRun.initial ops)
    (shuffle : Shuffle (Segment ν)) {coord : Coord} (hzero : NoNegativeZero coord)
    (systemAsOf : Int) (validAtMs : Option Int) :
    (ops.foldl (ArrayRun.step schema codec) ArrayRun.initial).store.ceilingForCoord codec schema
        shuffle coord systemAsOf validAtMs = (do
      let _ ← schema.admits coord
      return referenceAnswer (ops.foldl (ArrayRun.step schema codec) ArrayRun.initial).applied
        coord systemAsOf validAtMs) := by
  have hreflects := invariant_foldl (ArrayRun.Reflects schema codec)
    (fun _ _ h hforward => h.step hforward) ArrayRun.Reflects.initial halong
  exact hreflects.ceiling shuffle hzero systemAsOf validAtMs

end Runs

/-! ## A small array -/

namespace Sample

def payload (value : UInt8) : CellPayload UInt8 where
  validFromMs := 0
  validUntilMs := openUpper
  attrs := [value]
  surrogate := 1

def encodeCoord : Coord → Except ArrayError Bytes
  | [.int64 value] =>
    if value = 0 then .ok [0x91, 0x00]
    else if value = 1 then .ok [0x91, 0x01]
    else .error (.invalidOp "coordinate")
  | [.float64 bits] =>
    if bits = 0 then .ok [0x91, 0xCB, 0x00]
    else if bits = negativeZero then .ok [0x91, 0xCB, 0x80]
    else .error (.invalidOp "coordinate")
  | _ => .error (.invalidOp "coordinate")

def decodeCoord : Bytes → Except ArrayError Coord
  | [0x91, 0x00] => .ok [.int64 0]
  | [0x91, 0x01] => .ok [.int64 1]
  | [0x91, 0xCB, 0x00] => .ok [.float64 0]
  | [0x91, 0xCB, 0x80] => .ok [.float64 negativeZero]
  | _ => .error (.invalidOp "coordinate")

def packPayload (cell : CellPayload UInt8) : Except ArrayError Bytes :=
  match cell.attrs with
  | [value] => if cell = payload value then .ok [0x94, value] else .error (.invalidOp "payload")
  | _ => .error (.invalidOp "payload")

def unpackPayload : Bytes → Except ArrayError (CellPayload UInt8)
  | [0x94, value] => .ok (payload value)
  | _ => .error (.invalidOp "payload")

theorem packPayload_eq_ok {cell : CellPayload UInt8} {bytes : Bytes}
    (h : packPayload cell = .ok bytes) : ∃ value, cell = payload value ∧ bytes = [0x94, value] := by
  unfold packPayload at h
  split at h
  · rename_i value _
    split at h
    · rename_i hcell
      exact ⟨value, hcell, (Except.ok.inj h).symm⟩
    · exact absurd h (by simp)
  · exact absurd h (by simp)

theorem decodeCoord_encodeCoord {coord : Coord} {key : Bytes} (h : encodeCoord coord = .ok key) :
    decodeCoord key = .ok coord := by
  unfold encodeCoord at h
  split at h
  · split_ifs at h with hzero hone
    · obtain rfl := Except.ok.inj h
      rw [hzero]
      rfl
    · obtain rfl := Except.ok.inj h
      rw [hone]
      rfl
  · split_ifs at h with hzero hnegative
    · obtain rfl := Except.ok.inj h
      rw [hzero]
      rfl
    · obtain rfl := Except.ok.inj h
      rw [hnegative]
      rfl
  · exact absurd h (by simp)

def codec : CellCodec UInt8 where
  encodeCoord := encodeCoord
  decodeCoord := decodeCoord
  decodeCoord_encodeCoord := decodeCoord_encodeCoord
  packPayload := packPayload
  unpackPayload := unpackPayload
  unpackPayload_packPayload := by
    intro cell bytes h
    obtain ⟨value, rfl, rfl⟩ := packPayload_eq_ok h
    rfl
  packPayload_not_sentinel := by
    intro cell bytes h
    obtain ⟨value, rfl, rfl⟩ := packPayload_eq_ok h
    rfl

def tilePrefix (coord : Coord) : Except ArrayError Nat :=
  match coord with
  | [.int64 value] =>
    if 0 ≤ value ∧ value < 16 then .ok 0
    else .error (.coordOutOfDomain "readings" "x" "out of domain")
  | [.float64 bits] =>
    if isZero bits then .ok 0 else .error (.coordOutOfDomain "readings" "x" "out of domain")
  | _ => .error (.coordArityMismatch "readings" 1 coord.length)

def schema : ArraySchema where
  name := "readings"
  arity := 1
  attrCount := 1
  tilePrefix := tilePrefix
  length_of_tilePrefix := by
    intro coord hilbert h
    unfold tilePrefix at h
    split at h
    · rfl
    · rfl
    · exact absurd h (by simp)
  finite_of_tilePrefix := by
    intro coord hilbert h bits hbits
    unfold tilePrefix at h
    split at h
    · exact absurd hbits (by simp)
    · rename_i stored
      obtain rfl : bits = stored := by simpa using hbits
      split_ifs at h with hzero
      simp only [isZero, Bool.or_eq_true, beq_iff_eq] at hzero
      obtain rfl | rfl := hzero <;> decide
    · exact absurd h (by simp)

def keep {α : Type} : Shuffle α where
  order := id
  perm := List.Perm.refl

def put (coord : Coord) (value : UInt8) (systemFromMs : Int) : ArrayOp UInt8 :=
  .putCell
    { coord := coord
      payload := payload value
      systemFromMs := systemFromMs
      lsn := 1 }

def after (ops : List (ArrayOp UInt8)) : ArrayRun UInt8 :=
  ops.foldl (ArrayRun.step schema codec) ArrayRun.initial

end Sample

/-- The version in the memtable is older than the flushed one, and is the
answer. -/
theorem ceilingForCoord_prefers_memtable :
    let run := Sample.after [Sample.put [.int64 0] 1 200, .flush fun _ => Sample.keep,
      Sample.put [.int64 0] 2 100]
    run.store.ceilingForCoord Sample.codec Sample.schema Sample.keep [.int64 0] 300 none =
        .ok (.live (Sample.payload 2)) ∧
      referenceAnswer run.applied [.int64 0] 300 none = .live (Sample.payload 1) := by
  decide +kernel

/-- A read between a flushed write and the deletion after it. -/
theorem ceilingForCoord_follows_system_time_flushed :
    (Sample.after [Sample.put [.int64 0] 1 100, .flush fun _ => Sample.keep,
      .deleteCell [.int64 0] 200 2]).store.ceilingForCoord Sample.codec Sample.schema Sample.keep
        [.int64 0] 150 none = .ok (.live (Sample.payload 1)) :=
  (ceilingForCoord_follows_system_time
    [Sample.put [.int64 0] 1 100, .flush fun _ => Sample.keep, .deleteCell [.int64 0] 200 2]
    (by decide +kernel) Sample.keep (by decide) 150 none).trans
    (by decide +kernel)

example :
    (Sample.after [Sample.put [.float64 negativeZero] 1 100]).store.ceilingForCoord Sample.codec
        Sample.schema Sample.keep [.float64 0] 300 none = .ok .notFound ∧
      (Sample.after [Sample.put [.float64 negativeZero] 1 100,
        .flush fun _ => Sample.keep]).store.ceilingForCoord Sample.codec Sample.schema Sample.keep
          [.float64 0] 300 none = .ok (.live (Sample.payload 1)) := by
  decide +kernel

end NodeDB.ArrayEngine
