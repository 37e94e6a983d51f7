import NodeDB.SequencerMachine

/-!
# Re-delivery of applied sequencer entries

Raft can hand an entry to the state machine again after it was applied.  Such
a delivery changes nothing, so a run ends as if the log had been applied once.
Epochs only move forward, hence no position is fanned out twice.
-/

namespace NodeDB.Sequencer

open Std Calvin List

/-- The entry does not use the value that stands for nothing applied yet, as
its index or as the epoch of a batch, and a floor fits its 64 bits. -/
def LogEntry.Counts (entry : LogEntry) : Prop :=
  entry.index < notYetApplied ∧
    match entry.data with
    | .entry (.epochBatch batch) => batch.epoch < notYetApplied
    | .entry (.epochFloor nextEpoch _) => nextEpoch ≤ notYetApplied
    | _ => True

namespace SequencerStateMachine

variable (home : Nat → String → Option UInt32)

/-! ## What one application does -/

/-- The transactions among the inputs handed out, by vshard and position. -/
def txnKeys (handed : Handed) : List (UInt32 × TxnId) :=
  handed.filterMap fun item =>
    match item.2 with
    | .txn txn => some (item.1, ⟨txn.epoch, txn.position⟩)
    | _ => none

theorem txnKeys_append (first second : Handed) :
    txnKeys (first ++ second) = txnKeys first ++ txnKeys second :=
  filterMap_append

variable {vshards : List UInt32} {after : SequencerStateMachine} {handed : Handed}

theorem txnKeys_map_eq_nil {input : SchedulerInput} (hinput : ∀ txn, input ≠ .txn txn) :
    txnKeys (vshards.map (·, input)) = [] := by
  rw [txnKeys, filterMap_eq_nil_iff]
  intro item hitem
  obtain ⟨vshard, -, rfl⟩ := mem_map.mp hitem
  cases input with
  | txn txn => exact absurd rfl (hinput txn)
  | _ => rfl

theorem participants_nodup {txClass : TxClass}
    (hvshards : participatingVshards home txClass = some vshards) : vshards.Nodup := by
  simp only [participatingVshards, Option.bind_eq_bind, Option.bind_eq_some_iff,
    Option.pure_def, Option.some.injEq] at hvshards
  obtain ⟨writes, -, reads, -, rfl⟩ := hvshards
  refine TreeSet.distinct_toList.imp ?_
  intro a b hne heq
  exact hne (LawfulEqOrd.compare_eq_iff_eq.mpr heq)

variable {batch : EpochBatch} {txns : List (SequencedTxn × List UInt32)}
  {machine : SequencerStateMachine} {entry : LogEntry}

theorem restoreDerived_spec (hderived : restoreDerived home batch = some txns) :
    txns.map Prod.fst = batch.txns ∧
      ∀ item ∈ txns, participatingVshards home item.1.txClass = some item.2 := by
  unfold restoreDerived at hderived
  generalize batch.txns = source at hderived ⊢
  induction source generalizing txns with
  | nil =>
    simp only [mapM_nil, Option.pure_def, Option.some.injEq] at hderived
    subst hderived
    simp
  | cons txn rest ih =>
    rw [mapM_cons] at hderived
    simp only [Option.bind_eq_bind, Option.bind_eq_some_iff, Option.pure_def,
      Option.some.injEq, Option.map_eq_some_iff] at hderived
    obtain ⟨item, ⟨vshards, hvshards, rfl⟩, items, hitems, rfl⟩ := hderived
    obtain ⟨hfst, hparticipants⟩ := ih hitems
    refine ⟨by rw [map_cons, hfst], ?_⟩
    intro item hitem
    obtain rfl | hitem := mem_cons.mp hitem
    · exact hvshards
    · exact hparticipants item hitem

theorem positions_of_restoreDerived (hderived : restoreDerived home batch = some txns) :
    txns.Pairwise fun a b => a.1.position ≠ b.1.position := by
  have hnodup := batch.positions
  rw [← (restoreDerived_spec home hderived).1, map_map] at hnodup
  exact pairwise_map.mp hnodup

theorem txnKeys_fanOut (machine : SequencerStateMachine)
    (hderived : restoreDerived home batch = some txns) :
    (∀ key ∈ txnKeys (machine.fanOutEpochBatch batch.epochSystemMs txns),
        key.2.epoch = batch.epoch) ∧
      (txnKeys (machine.fanOutEpochBatch batch.epochSystemMs txns)).Nodup := by
  have hkeys : txnKeys (machine.fanOutEpochBatch batch.epochSystemMs txns) =
      txns.flatMap fun item => (item.2.filter (machine.hosted.contains ·)).map
        fun vshard => (vshard, (⟨item.1.epoch, item.1.position⟩ : TxnId)) := by
    simp [txnKeys, fanOutEpochBatch, filterMap_flatMap, stampTxn, filterMap_map]
  obtain ⟨hfst, hparticipants⟩ := restoreDerived_spec home hderived
  rw [hkeys]
  refine ⟨?_, nodup_flatMap.mpr ⟨?_, ?_⟩⟩
  · intro key hkey
    obtain ⟨item, hitem, hkey⟩ := mem_flatMap.mp hkey
    obtain ⟨vshard, -, rfl⟩ := mem_map.mp hkey
    exact batch.epochs item.1 (hfst ▸ mem_map_of_mem hitem)
  · intro item hitem
    refine List.Nodup.map ?_ ((participants_nodup home (hparticipants item hitem)).filter _)
    intro vshard vshard' heq
    exact (Prod.mk.inj heq).1
  · refine (positions_of_restoreDerived home hderived).imp ?_
    intro a b hne key hkey hkey'
    obtain ⟨vshard, -, rfl⟩ := mem_map.mp hkey
    obtain ⟨vshard', -, heq⟩ := mem_map.mp hkey'
    exact hne (congrArg (TxnId.position ∘ Prod.snd) heq.symm)

/-- The epoch moves forward over the transactions handed out, and a halted
machine stays halted and hands none out. -/
structure Advances (machine after : SequencerStateMachine) (handed : Handed) : Prop where
  epoch : machine.nextEpoch ≤ after.nextEpoch
  keys : ∀ key ∈ txnKeys handed,
    machine.nextEpoch ≤ key.2.epoch ∧ key.2.epoch < after.nextEpoch
  nodup : (txnKeys handed).Nodup
  halted : machine.halted = true → after.halted = true ∧ txnKeys handed = []

theorem Advances.quiet (hkeys : txnKeys handed = []) (hepoch : machine.nextEpoch ≤ after.nextEpoch)
    (hhalted : machine.halted = true → after.halted = true) :
    Advances machine after handed where
  epoch := hepoch
  keys := by simp [hkeys]
  nodup := by simp [hkeys]
  halted h := ⟨hhalted h, hkeys⟩

theorem Advances.fannedOut (hcounts : batch.epoch < notYetApplied)
    (hrunning : machine.halted = false) (hepoch : machine.nextEpoch ≤ batch.epoch)
    (hafter : after.lastAppliedEpoch = batch.epoch)
    (hkeys : ∀ key ∈ txnKeys handed, key.2.epoch = batch.epoch) (hnodup : (txnKeys handed).Nodup) :
    Advances machine after handed := by
  have hnext : after.nextEpoch = batch.epoch + 1 := by
    rw [nextEpoch, hafter, if_neg hcounts.ne]
  refine ⟨by omega, ?_, hnodup, ?_⟩
  · intro key hkey
    have hsame := hkeys key hkey
    omega
  · intro hhalted
    rw [hrunning] at hhalted
    cases hhalted

theorem advances_applyEpochBatch (machine : SequencerStateMachine) (index : Nat)
    (hcounts : batch.epoch < notYetApplied) :
    Advances machine (machine.applyEpochBatch home index batch).1
      (machine.applyEpochBatch home index batch).2 := by
  unfold applyEpochBatch
  cases hderived : restoreDerived home batch with
  | none => exact .quiet rfl le_rfl id
  | some txns =>
    dsimp only
    unfold epochInOrder
    cases hhalted : machine.halted with
    | true => exact .quiet rfl le_rfl (fun _ => hhalted)
    | false =>
      rw [if_neg Bool.false_ne_true]
      obtain ⟨hkeys, hnodup⟩ := txnKeys_fanOut home machine hderived
      unfold classify
      split_ifs with hequal hahead
      · exact .fannedOut hcounts hhalted hequal.ge rfl hkeys hnodup
      · exact .fannedOut hcounts hhalted hahead.le rfl hkeys hnodup
      · exact .quiet rfl le_rfl (fun _ => rfl)

theorem advances_applyEpochFloor (machine : SequencerStateMachine) {nextEpoch : Nat}
    (epochSystemMs : Int) (hcounts : nextEpoch ≤ notYetApplied) :
    Advances machine (machine.applyEpochFloor nextEpoch epochSystemMs) [] := by
  refine .quiet rfl ?_ id
  unfold SequencerStateMachine.nextEpoch applyEpochFloor
  dsimp only
  split_ifs <;> omega

theorem advances_applyTxnPart (machine : SequencerStateMachine) (txn : TxnId) (part : PartEntry) :
    Advances machine (machine.applyTxnPart txn part).1 (machine.applyTxnPart txn part).2 := by
  unfold applyTxnPart
  split
  · exact .quiet rfl le_rfl id
  split_ifs
  · exact .quiet rfl le_rfl id
  · exact .quiet rfl le_rfl id
  · exact .quiet (txnKeys_map_eq_nil (by simp)) le_rfl id

theorem advances_applyPartsAbandoned (machine : SequencerStateMachine) (txn : TxnId) :
    Advances machine (machine.applyPartsAbandoned txn).1
      (machine.applyPartsAbandoned txn).2 := by
  unfold applyPartsAbandoned
  split
  · exact .quiet rfl le_rfl id
  · exact .quiet (txnKeys_map_eq_nil (by simp)) le_rfl id

theorem advances_apply (machine : SequencerStateMachine) (hcounts : entry.Counts) :
    Advances machine (machine.apply home entry).1 (machine.apply home entry).2 := by
  unfold apply
  split_ifs
  · exact .quiet rfl le_rfl id
  obtain ⟨index, data⟩ := entry
  suffices hmoved : Advances { machine with lastCommittedIndex := index } _ _ from
    ⟨hmoved.epoch, hmoved.keys, hmoved.nodup, hmoved.halted⟩
  cases data with
  | entry decoded =>
    cases decoded with
    | epochBatch batch => exact advances_applyEpochBatch home _ index hcounts.2
    | epochFloor nextEpoch epochSystemMs =>
      exact advances_applyEpochFloor _ epochSystemMs hcounts.2
    | txnPart txn part => exact advances_applyTxnPart _ txn part
    | txnPartsAbandoned txn => exact advances_applyPartsAbandoned _ txn
    | cutMarker hlc restorePoint barrier =>
      exact .quiet (txnKeys_map_eq_nil (by simp)) le_rfl id
    | _ => exact .quiet rfl le_rfl id
  | _ => exact .quiet rfl le_rfl id

/-! ## Whole runs -/

theorem applyAll_append (machine : SequencerStateMachine) (entries : List LogEntry)
    (entry : LogEntry) :
    machine.applyAll home (entries ++ [entry]) =
      (((machine.applyAll home entries).1.apply home entry).1,
        (machine.applyAll home entries).2 ++
          ((machine.applyAll home entries).1.apply home entry).2) := by
  simp [applyAll]

/-- Deliveries of a log's entries in order, with any already delivered ones
again in between; `count` entries have been delivered. -/
inductive Redelivers (log : List LogEntry) : Nat → List LogEntry → Prop where
  | start : Redelivers log 0 []
  | next {count : Nat} {calls : List LogEntry} {entry : LogEntry} :
      Redelivers log count calls → log[count]? = some entry →
        Redelivers log (count + 1) (calls ++ [entry])
  | again {count place : Nat} {calls : List LogEntry} {entry : LogEntry} :
      Redelivers log count calls → place < count → log[place]? = some entry →
        Redelivers log count (calls ++ [entry])

theorem applyEntry_frame (machine : SequencerStateMachine) (index : Nat)
    (decoded : SequencerEntry) :
    (machine.applyEntry home index decoded).1.lastCommittedIndex = machine.lastCommittedIndex ∧
      (machine.applyEntry home index decoded).1.hosted = machine.hosted := by
  cases decoded with
  | epochBatch batch =>
    simp only [applyEntry, applyEpochBatch]
    split
    · exact ⟨rfl, rfl⟩
    unfold epochInOrder
    split_ifs
    · exact ⟨rfl, rfl⟩
    · cases classify machine.nextEpoch batch.epoch <;> exact ⟨rfl, rfl⟩
  | txnPart txn part =>
    simp only [applyEntry, applyTxnPart]
    repeat' split
    all_goals exact ⟨rfl, rfl⟩
  | txnPartsAbandoned txn =>
    simp only [applyEntry, applyPartsAbandoned]
    split <;> exact ⟨rfl, rfl⟩
  | _ => exact ⟨rfl, rfl⟩

theorem lastCommittedIndex_apply
    (hnew : ∀ applied, machine.currentCommittedIndex = some applied → applied < entry.index) :
    (machine.apply home entry).1.lastCommittedIndex = entry.index := by
  unfold apply
  rw [if_neg]
  · cases entry.data with
    | entry decoded => exact (applyEntry_frame home _ _ _).1
    | _ => rfl
  · cases happlied : machine.currentCommittedIndex with
    | none => simp
    | some applied => simpa using hnew applied happlied

theorem apply_of_le {applied : Nat}
    (happlied : machine.currentCommittedIndex = some applied) (hle : entry.index ≤ applied) :
    machine.apply home entry = (machine, []) := by
  unfold apply
  rw [if_pos]
  simp [happlied, hle]

section Log

variable {calls : List LogEntry} {count : Nat}

theorem index_lt_of_getElem? {log : List LogEntry} (hincreasing : log.Pairwise (·.index < ·.index))
    {entry earlier : LogEntry} (hentry : log[count]? = some entry)
    (hmem : earlier ∈ log.take count) : earlier.index < entry.index := by
  obtain ⟨hlt, rfl⟩ := List.getElem?_eq_some_iff.mp hentry
  rw [← List.take_append_drop count log, List.pairwise_append] at hincreasing
  refine hincreasing.2.2 earlier hmem _ ?_
  rw [drop_eq_getElem_cons hlt]
  exact mem_cons_self

theorem index_le_getLast {log : List LogEntry}
    (hincreasing : log.Pairwise (·.index < ·.index)) {entry last : LogEntry}
    (hmem : entry ∈ log) (hlast : log.getLast? = some last) : entry.index ≤ last.index := by
  obtain ⟨init, rfl⟩ := getLast?_eq_some_iff.mp hlast
  obtain hinit | heq := mem_append.mp hmem
  · exact ((List.pairwise_append.mp hincreasing).2.2 entry hinit last mem_cons_self).le
  · rw [mem_singleton.mp heq]

variable {log : List LogEntry} (hosted : TreeSet UInt32)

theorem committedIndex_take (hindexes : ∀ entry ∈ log, entry.index < notYetApplied)
    (hincreasing : log.Pairwise (·.index < ·.index)) (count : Nat) :
    ((new hosted).applyAll home (log.take count)).1.currentCommittedIndex =
      (log.take count).getLast?.map LogEntry.index := by
  induction count with
  | zero => rfl
  | succ count ih =>
    rw [take_add_one]
    cases hentry : log[count]? with
    | none => simpa using ih
    | some entry =>
      have hmem := mem_of_getElem? hentry
      have hnew : ∀ applied, ((new hosted).applyAll home
          (log.take count)).1.currentCommittedIndex = some applied →
            applied < entry.index := by
        intro applied happlied
        rw [ih, Option.map_eq_some_iff] at happlied
        obtain ⟨last, hlast, rfl⟩ := happlied
        exact index_lt_of_getElem? hincreasing hentry (mem_of_getLast? hlast)
      have hindex := lastCommittedIndex_apply home hnew
      rw [Option.toList_some, applyAll_append, currentCommittedIndex, hindex,
        if_neg (hindexes entry hmem).ne, getLast?_append, getLast?_singleton]
      rfl

theorem applyAll_redelivers (hcounts : ∀ entry ∈ log, entry.Counts)
    (hincreasing : log.Pairwise (·.index < ·.index)) (hdelivered : Redelivers log count calls) :
    (new hosted).applyAll home calls = (new hosted).applyAll home (log.take count) := by
  induction hdelivered with
  | start => rfl
  | @next count calls entry _ hentry ih =>
    rw [applyAll_append, ih, take_add_one, hentry, Option.toList_some, applyAll_append]
  | @again count place calls entry _ hplace hentry ih =>
    have hmem : entry ∈ log.take count :=
      mem_of_getElem? ((getElem?_take_of_lt hplace).trans hentry)
    obtain ⟨last, hlast⟩ : ∃ last, (log.take count).getLast? = some last :=
      Option.ne_none_iff_exists'.mp fun hnone =>
        ne_nil_of_mem hmem (getLast?_eq_none_iff.mp hnone)
    have hindex := committedIndex_take home hosted (fun entry h => (hcounts entry h).1)
      hincreasing count
    rw [hlast, Option.map_some] at hindex
    have hle := index_le_getLast (hincreasing.sublist (take_sublist _ _)) hmem hlast
    rw [applyAll_append, ih, apply_of_le home hindex hle, append_nil]

theorem txnKeys_applyAll (calls : List LogEntry) (hcounts : ∀ entry ∈ calls, entry.Counts) :
    (∀ key ∈ txnKeys ((new hosted).applyAll home calls).2,
        key.2.epoch < ((new hosted).applyAll home calls).1.nextEpoch) ∧
      (txnKeys ((new hosted).applyAll home calls).2).Nodup := by
  induction calls using List.reverseRecOn with
  | nil => exact ⟨by simp [applyAll, txnKeys], by simp [applyAll, txnKeys]⟩
  | append_singleton calls entry ih =>
    obtain ⟨hbelow, hnodup⟩ := ih fun other hother =>
      hcounts other (mem_append_left _ hother)
    have hadvances := advances_apply home ((new hosted).applyAll home calls).1
      (hcounts entry (mem_append_right _ mem_cons_self))
    rw [applyAll_append]
    dsimp only
    rw [txnKeys_append]
    refine ⟨?_, nodup_append.mpr ⟨hnodup, hadvances.nodup, ?_⟩⟩
    · intro key hkey
      obtain hold | hnew := mem_append.mp hkey
      · exact (hbelow key hold).trans_le hadvances.epoch
      · exact (hadvances.keys key hnew).2
    · rintro key hold other hnew rfl
      exact absurd (hbelow key hold) (hadvances.keys key hnew).1.not_gt

theorem mem_of_redelivers (hdelivered : Redelivers log count calls) :
    ∀ entry ∈ calls, entry ∈ log := by
  induction hdelivered with
  | start => simp
  | next _ hentry ih | again _ _ hentry ih =>
    intro entry hmem
    obtain hmem | heq := mem_append.mp hmem
    · exact ih entry hmem
    · exact mem_singleton.mp heq ▸ mem_of_getElem? hentry

/-- A run that delivers every entry of a log, some of them again and again,
ends as one application of the log does.  It hands no position to a vshard
twice, the next epoch never falls, and once halted no transaction is handed
out. -/
theorem redelivery_idempotent (hcounts : ∀ entry ∈ log, entry.Counts)
    (hincreasing : log.Pairwise (·.index < ·.index)) {calls : List LogEntry}
    (hdelivered : Redelivers log log.length calls) :
    (new hosted).applyAll home calls = (new hosted).applyAll home log ∧
      (txnKeys ((new hosted).applyAll home calls).2).Nodup ∧
      ∀ before entry after, calls = before ++ entry :: after →
        let machine := ((new hosted).applyAll home before).1
        machine.nextEpoch ≤ (machine.apply home entry).1.nextEpoch ∧
          (machine.halted = true → (machine.apply home entry).1.halted = true ∧
            txnKeys (machine.apply home entry).2 = []) := by
  have hcalls : ∀ entry ∈ calls, entry.Counts := fun entry hmem =>
    hcounts entry (mem_of_redelivers hdelivered entry hmem)
  refine ⟨?_, (txnKeys_applyAll home hosted calls hcalls).2, ?_⟩
  · rw [applyAll_redelivers home hosted hcounts hincreasing hdelivered, take_length]
  · rintro before entry after rfl machine
    have hadvances := advances_apply home machine
      (hcalls entry (mem_append_right _ mem_cons_self))
    exact ⟨hadvances.epoch, hadvances.halted⟩

end Log

def soleTxn (epoch : Nat) (vshard : UInt32) : SequencedTxn :=
  { epoch := epoch,
    position := 0,
    txClass :=
      { readSet := [],
        writeSet := [],
        plans := [],
        tenantId := 0,
        databaseId := 0,
        passiveVshards := [vshard],
        lockOwner := none,
        multiPart := none },
    epochSystemMs := 0,
    epochVshardTxnCount := 0,
    lockOwner := none }

def soleBatch (epoch : Nat) (vshard : UInt32) : EpochBatch :=
  { epoch := epoch,
    txns := [soleTxn epoch vshard],
    epochSystemMs := 0,
    epochs := by simp [soleTxn],
    positions := by simp }

/-- The first entry is delivered three times, the last time after the second
entry. -/
theorem redelivery_idempotent_twice :
    Redelivers [⟨1, .entry (.epochBatch (soleBatch 0 3))⟩, ⟨2, .entry (.epochFloor 5 0)⟩] 2
        [⟨1, .entry (.epochBatch (soleBatch 0 3))⟩, ⟨1, .entry (.epochBatch (soleBatch 0 3))⟩,
          ⟨2, .entry (.epochFloor 5 0)⟩, ⟨1, .entry (.epochBatch (soleBatch 0 3))⟩] ∧
      (new (TreeSet.ofList [(3 : UInt32)])).applyAll (fun _ _ => none)
          [⟨1, .entry (.epochBatch (soleBatch 0 3))⟩, ⟨1, .entry (.epochBatch (soleBatch 0 3))⟩,
            ⟨2, .entry (.epochFloor 5 0)⟩, ⟨1, .entry (.epochBatch (soleBatch 0 3))⟩] =
        (new (TreeSet.ofList [(3 : UInt32)])).applyAll (fun _ _ => none)
          [⟨1, .entry (.epochBatch (soleBatch 0 3))⟩, ⟨2, .entry (.epochFloor 5 0)⟩] := by
  have hdelivers : Redelivers
      [⟨1, .entry (.epochBatch (soleBatch 0 3))⟩, ⟨2, .entry (.epochFloor 5 0)⟩] 2
      [⟨1, .entry (.epochBatch (soleBatch 0 3))⟩, ⟨1, .entry (.epochBatch (soleBatch 0 3))⟩,
        ⟨2, .entry (.epochFloor 5 0)⟩, ⟨1, .entry (.epochBatch (soleBatch 0 3))⟩] :=
    .again (.next (.again (.next .start rfl) Nat.zero_lt_one rfl) rfl) Nat.zero_lt_two rfl
  refine ⟨hdelivers, (redelivery_idempotent _ _ ?_ ?_ hdelivers).1⟩
  · intro entry hentry
    fin_cases hentry <;> simp [LogEntry.Counts, notYetApplied, soleBatch]
  · simp

end SequencerStateMachine
end NodeDB.Sequencer
