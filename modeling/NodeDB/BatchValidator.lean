import NodeDB.ConflictEdges

/-!
# Validation of a candidate epoch batch

The candidates are sorted, their conflicts become reorder edges, and positions
are given in a topological order that breaks cycles by rejecting the latest
candidate left.
-/

namespace NodeDB.Sequencer

open Std Calvin List

structure AdmittedTx where
  inboxSeq : Nat
  txClass : TxClass
  deriving DecidableEq, Repr

inductive SequencerError where
  | conflict (positionAdmitted : Nat)
  deriving DecidableEq, Repr

structure ConflictKey where
  tenant : Nat
  engine : String
  collection : String
  deriving DecidableEq, Repr

structure RejectedTx where
  admitted : AdmittedTx
  reason : SequencerError
  conflictContext : Option ConflictKey
  deriving DecidableEq, Repr

/-- A conflict with an admitted transaction: its position, the key and the
key's engine. -/
structure BestConflict where
  position : Nat
  key : KeyId
  engine : String

/-- Keep the conflict with the least position, then the least key. -/
def consider (idx : Nat) (emittedPosition : Nat → Option Nat) (key : FlatKey)
    (best : Option BestConflict) (other : Nat) : Option BestConflict :=
  if other = idx then
    best
  else
    match emittedPosition other with
    | none => best
    | some position =>
      let found : BestConflict := ⟨position, key.keyId, key.engineName⟩
      match best with
      | none => some found
      | some held =>
        if (compare position held.position).then (compare key.keyId held.key) = .lt then
          some found
        else
          some held

/-- The transactions on the other side that conflict with `key`, in the order
they are considered. -/
def conflictingTxns (index : ConflictIndex) (access : Access) (key : FlatKey) : List Nat :=
  let other : Access := match access with
    | .read => .write
    | .write => .read
  let side := index.sideOf other key.collection
  let rows := match key.scope with
    | .row => []
    | .collection => side.rowKeys
  let covers (ref : KeyRef) : Bool := match index.keyAt other ref, access with
    | some found, .read => key.conflicts found
    | some found, .write => found.conflicts key
    | none, _ => false
  index.txnsWith other key.keyId ++ ((side.scopedKeys ++ rows).filter covers).map Prod.fst

def rejectContext (idx tenant : Nat) (index : ConflictIndex)
    (emittedPosition : Nat → Option Nat) : Nat × Option ConflictKey :=
  let considerAll (access : Access) (best : Option BestConflict) (key : FlatKey) :=
    (conflictingTxns index access key).foldl (consider idx emittedPosition key) best
  let best := (index.reads[idx]?.getD []).foldl (considerAll .read) none
  let best := (index.writes[idx]?.getD []).foldl (considerAll .write) best
  match best with
  | some found =>
    (found.position,
      some { tenant := tenant, engine := found.engine, collection := found.key.collection })
  | none => (0, none)

section Validate

variable (xxh3 : List UInt8 → Nat)

def sortKeyLe (a b : AdmittedTx) : Bool :=
  ((compare a.inboxSeq b.inboxSeq).then
    ((compare a.txClass.tenantId b.txClass.tenantId).then
      (compare (xxh3 a.txClass.plans) (xxh3 b.txClass.plans)))).isLE

def flattenBatch (candidates : List AdmittedTx) : List (List FlatKey × List FlatKey) :=
  candidates.map fun tx => (flattenSet tx.txClass.readSet, flattenSet tx.txClass.writeSet)

def emitPositions (batch : List (List FlatKey × List FlatKey)) : CycleBreaking.State :=
  CycleBreaking.run (reorderGraph batch) batch.length
    (CycleBreaking.start batch.length (ConflictIndex.ofKeys batch).edges.inDegree)

def admittedEntry (epoch : Nat) (tx : AdmittedTx) (position : Nat) : Nat × SequencedTxn :=
  (tx.inboxSeq,
    { epoch := epoch,
      position := position,
      txClass := tx.txClass,
      epochSystemMs := 0,
      epochVshardTxnCount := 0,
      lockOwner := tx.txClass.lockOwner })

def rejectedEntry (index : ConflictIndex) (emittedPosition : Nat → Option Nat)
    (tx : AdmittedTx) (idx : Nat) : RejectedTx :=
  let context := rejectContext idx tx.txClass.tenantId index emittedPosition
  { admitted := tx,
    reason := .conflict context.1,
    conflictContext := context.2 }

def validateBatchWithAssignments (epoch : Nat) (candidates : List AdmittedTx) :
    List (Nat × SequencedTxn) × List RejectedTx :=
  if candidates.isEmpty then
    ([], [])
  else
    let sorted := candidates.mergeSort (sortKeyLe xxh3)
    let batch := flattenBatch sorted
    let emitted := (emitPositions batch).emittedPosition
    -- the output is built in sorted order
    (sorted.zipIdx.filterMap fun item =>
        (emitted item.2).map (admittedEntry epoch item.1),
      sorted.zipIdx.filterMap fun item =>
        if (emitted item.2).isNone then
          some (rejectedEntry (ConflictIndex.ofKeys batch) emitted item.1 item.2)
        else
          none)

end Validate

/-! ## Positions of a sorted batch -/

theorem placed_emitPositions (batch : List (List FlatKey × List FlatKey)) :
    CycleBreaking.Placed (reorderGraph batch) (emitPositions batch) :=
  (CycleBreaking.run_start (inDegree_reorderGraph batch)).1

/-- One candidate reads what another one writes. -/
def Precedes (sorted : List AdmittedTx) (idx other : Nat) : Prop :=
  idx ≠ other ∧ ∃ reader ∈ sorted[idx]?, ∃ writer ∈ sorted[other]?,
    KeysConflict reader.txClass.readSet writer.txClass.writeSet

theorem mem_batchKeys_iff {sorted : List AdmittedTx} {listing : Listing} :
    listing ∈ batchKeys (flattenBatch sorted) ↔ ∃ tx, sorted[listing.txn]? = some tx ∧
      (sideKeys listing.access (flattenSet tx.txClass.readSet,
        flattenSet tx.txClass.writeSet))[listing.place]? = some listing.key := by
  simp [batchKeys, flattenBatch]

/-- The reorder edges are the conflicts of the declared sets. -/
theorem mem_reorderGraph_iff_precedes {sorted : List AdmittedTx} {idx other : Nat} :
    other ∈ (reorderGraph (flattenBatch sorted)).out idx ↔ Precedes sorted idx other := by
  rw [mem_reorderGraph_iff, and_comm]
  refine and_congr_right fun _ => ?_
  constructor
  · rintro ⟨⟨_, _, place, key⟩, hread, ⟨_, _, place', key'⟩, hwrite, rfl, rfl, hkeys, rfl, rfl⟩
    obtain ⟨reader, hreader, hkey⟩ := mem_batchKeys_iff.mp hread
    obtain ⟨writer, hwriter, hkey'⟩ := mem_batchKeys_iff.mp hwrite
    exact ⟨reader, hreader, writer, hwriter, key, mem_of_getElem? hkey, key',
      mem_of_getElem? hkey', hkeys⟩
  · rintro ⟨reader, hreader, writer, hwriter, key, hkey, key', hkey', hkeys⟩
    obtain ⟨place, hplace⟩ := getElem?_of_mem hkey
    obtain ⟨place', hplace'⟩ := getElem?_of_mem hkey'
    exact ⟨⟨.read, idx, place, key⟩, mem_batchKeys_iff.mpr ⟨reader, hreader, hplace⟩,
      ⟨.write, other, place', key'⟩, mem_batchKeys_iff.mpr ⟨writer, hwriter, hplace'⟩, rfl, rfl,
      hkeys, rfl, rfl⟩

theorem positions_perm (batch : List (List FlatKey × List FlatKey)) :
    ((List.range batch.length).filterMap (emitPositions batch).emittedPosition).Perm
      (List.range (emitPositions batch).nextPosition) := by
  have hplaced := placed_emitPositions batch
  have hnodup : ((List.range batch.length).filterMap
      (emitPositions batch).emittedPosition).Nodup := by
    refine List.Nodup.filterMap ?_ nodup_range
    intro idx other position hidx hother
    exact hplaced.injective hidx hother
  refine (perm_ext_iff_of_nodup hnodup nodup_range).mpr ?_
  intro position
  rw [mem_filterMap, mem_range]
  constructor
  · rintro ⟨idx, -, hidx⟩
    exact (hplaced.below hidx).2
  · intro hlt
    obtain ⟨idx, hidx⟩ := hplaced.filled hlt
    exact ⟨idx, mem_range.mpr (hplaced.below hidx).1, hidx⟩

theorem position_lt_of_conflict {sorted : List AdmittedTx} {reader writer : AdmittedTx}
    {idx other position position' : Nat} (hreader : sorted[idx]? = some reader)
    (hwriter : sorted[other]? = some writer) (hne : idx ≠ other)
    (hposition : (emitPositions (flattenBatch sorted)).emittedPosition idx = some position)
    (hposition' : (emitPositions (flattenBatch sorted)).emittedPosition other =
      some position')
    (hconflict : KeysConflict reader.txClass.readSet writer.txClass.writeSet) :
    position < position' := by
  have hedge := mem_reorderGraph_iff_precedes.mpr
    ⟨hne, reader, hreader, writer, hwriter, hconflict⟩
  have hplaced := placed_emitPositions (flattenBatch sorted)
  obtain hrejected | ⟨earlier, hlt, hearlier⟩ := hplaced.ordered hedge hposition'
  · have hnone := hplaced.once hrejected
    rw [hposition] at hnone
    cases hnone
  · rw [hposition] at hearlier
    exact Option.some.inj hearlier ▸ hlt

/-! ## The validated batch -/

section Validated

variable (xxh3 : List UInt8 → Nat) (epoch : Nat)

theorem validateBatch_eq (candidates : List AdmittedTx) :
    validateBatchWithAssignments xxh3 epoch candidates =
      let sorted := candidates.mergeSort (sortKeyLe xxh3)
      let emitted := (emitPositions (flattenBatch sorted)).emittedPosition
      (sorted.zipIdx.filterMap fun item =>
          (emitted item.2).map (admittedEntry epoch item.1),
        sorted.zipIdx.filterMap fun item =>
          if (emitted item.2).isNone then
            some (rejectedEntry (ConflictIndex.ofKeys (flattenBatch sorted)) emitted item.1
              item.2)
          else
            none) := by
  unfold validateBatchWithAssignments
  split_ifs with hempty
  · simp [isEmpty_iff.mp hempty]
  · rfl

theorem exists_of_mem_admitted {candidates : List AdmittedTx} {entry : Nat × SequencedTxn}
    (hmem : entry ∈ (validateBatchWithAssignments xxh3 epoch candidates).1) :
    ∃ idx tx, (candidates.mergeSort (sortKeyLe xxh3))[idx]? = some tx ∧
      (emitPositions (flattenBatch (candidates.mergeSort (sortKeyLe xxh3)))).emittedPosition
        idx = some entry.2.position ∧ entry.2.txClass = tx.txClass := by
  rw [validateBatch_eq] at hmem
  obtain ⟨⟨tx, idx⟩, hitem, hentry⟩ := mem_filterMap.mp hmem
  obtain ⟨position, hposition, rfl⟩ := Option.map_eq_some_iff.mp hentry
  exact ⟨idx, tx, mk_mem_zipIdx_iff_getElem?.mp hitem, hposition, rfl⟩

theorem admitted_positions (candidates : List AdmittedTx) :
    ((validateBatchWithAssignments xxh3 epoch candidates).1.map (·.2.position)) =
      (List.range (candidates.mergeSort (sortKeyLe xxh3)).length).filterMap
        (emitPositions (flattenBatch
          (candidates.mergeSort (sortKeyLe xxh3)))).emittedPosition := by
  rw [validateBatch_eq, range_eq_range', ← zipIdx_map_snd, filterMap_map, map_filterMap]
  congr 1
  funext item
  simp [Option.map_map, Function.comp_def, admittedEntry]

theorem admittedOutput_eq (sorted : List AdmittedTx) (emitted : Nat → Option Nat) :
    (sorted.zipIdx.filterMap fun item =>
        (emitted item.2).map (admittedEntry epoch item.1)).map
          (fun entry => AdmittedTx.mk entry.1 entry.2.txClass) =
      (sorted.zipIdx.filter fun item => (emitted item.2).isSome).map Prod.fst := by
  rw [map_filterMap, ← filterMap_eq_map, filterMap_filter]
  congr 1
  funext item
  cases emitted item.2 <;> simp [admittedEntry]

theorem rejectedOutput_eq (index : ConflictIndex) (sorted : List AdmittedTx)
    (emitted : Nat → Option Nat) :
    (sorted.zipIdx.filterMap fun item =>
        if (emitted item.2).isNone then some (rejectedEntry index emitted item.1 item.2)
        else none).map (·.admitted) =
      (sorted.zipIdx.filter fun item => !(emitted item.2).isSome).map Prod.fst := by
  rw [map_filterMap, ← filterMap_eq_map, filterMap_filter]
  congr 1
  funext item
  cases emitted item.2 <;> simp [rejectedEntry]

theorem outputs_perm (candidates : List AdmittedTx) :
    ((validateBatchWithAssignments xxh3 epoch candidates).1.map
        (fun entry => AdmittedTx.mk entry.1 entry.2.txClass) ++
      (validateBatchWithAssignments xxh3 epoch candidates).2.map (·.admitted)).Perm
        candidates := by
  rw [validateBatch_eq]
  dsimp only
  rw [admittedOutput_eq, rejectedOutput_eq, ← map_append]
  have hsplit := (filter_append_perm (fun item : AdmittedTx × Nat =>
    ((emitPositions (flattenBatch (candidates.mergeSort (sortKeyLe xxh3)))).emittedPosition
      item.2).isSome) (candidates.mergeSort (sortKeyLe xxh3)).zipIdx).map Prod.fst
  rw [zipIdx_map_fst] at hsplit
  exact hsplit.trans (mergeSort_perm _ _)

/-- Every candidate is either admitted or rejected, the admitted ones take the
positions from zero on, and a reader precedes every other admitted writer it
conflicts with. -/
theorem validateBatch_orders (candidates : List AdmittedTx) :
    ((validateBatchWithAssignments xxh3 epoch candidates).1.map
        (fun entry => AdmittedTx.mk entry.1 entry.2.txClass) ++
      (validateBatchWithAssignments xxh3 epoch candidates).2.map (·.admitted)).Perm
        candidates ∧
    ((validateBatchWithAssignments xxh3 epoch candidates).1.map (·.2.position)).Perm
      (List.range (validateBatchWithAssignments xxh3 epoch candidates).1.length) ∧
    ∀ (i j : Nat) (reader writer : Nat × SequencedTxn), i ≠ j →
      (validateBatchWithAssignments xxh3 epoch candidates).1[i]? = some reader →
      (validateBatchWithAssignments xxh3 epoch candidates).1[j]? = some writer →
      KeysConflict reader.2.txClass.readSet writer.2.txClass.writeSet →
        reader.2.position < writer.2.position := by
  have hlength : (flattenBatch (candidates.mergeSort (sortKeyLe xxh3))).length =
      (candidates.mergeSort (sortKeyLe xxh3)).length := List.length_map _
  have hpositions := positions_perm (flattenBatch (candidates.mergeSort (sortKeyLe xxh3)))
  rw [hlength, ← admitted_positions xxh3 epoch] at hpositions
  have hcount := hpositions.length_eq
  rw [List.length_map, length_range] at hcount
  rw [← hcount] at hpositions
  refine ⟨outputs_perm xxh3 epoch candidates, hpositions, ?_⟩
  intro i j reader writer hne hreader hwriter hconflict
  obtain ⟨idx, tx, htx, hposition, hclass⟩ :=
    exists_of_mem_admitted xxh3 epoch (mem_of_getElem? hreader)
  obtain ⟨other, tx', htx', hposition', hclass'⟩ :=
    exists_of_mem_admitted xxh3 epoch (mem_of_getElem? hwriter)
  rw [hclass, hclass'] at hconflict
  refine position_lt_of_conflict htx htx' ?_ hposition hposition' hconflict
  rintro rfl
  -- one candidate has one position, and no position is given twice
  have hsame : reader.2.position = writer.2.position :=
    Option.some.inj (hposition.symm.trans hposition')
  have hnodup := hpositions.nodup_iff.mpr nodup_range
  refine hne ((getElem?_inj ?_ hnodup).mp ?_)
  · rw [List.length_map]
    exact (List.getElem?_eq_some_iff.mp hreader).1
  · rw [List.getElem?_map, List.getElem?_map, hreader, hwriter, Option.map_some, Option.map_some,
      hsame]

end Validated

end NodeDB.Sequencer
