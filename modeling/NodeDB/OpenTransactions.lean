import NodeDB.SequencerReplay
import NodeDB.Scheduler

/-!
# Open multi-part transactions

A multi-part transaction is open in the state machine from its header until its
last part or its abandonment.  Every open transaction has its header in the
log, and what a replay hands to a vshard is what the live run handed to it.
-/

namespace NodeDB.Sequencer

open Std Calvin SequencerStateMachine List

section Headers

variable (home : Nat → String → Option UInt32)

/-- The log sequences a multi-part transaction with these participants. -/
def IsHeader (log : List LogEntry) (txn : TxnId) (participants : List UInt32)
    (manifest : MultiPartPlans) : Prop :=
  ∃ entry ∈ log, ∃ batch txns item, entry.data = .entry (.epochBatch batch) ∧
    restoreDerived home batch = some txns ∧ item ∈ txns ∧ item.2 = participants ∧
      item.1.txClass.multiPart = some manifest ∧ txn = ⟨batch.epoch, item.1.position⟩

end Headers

/-! ## What an entry does to the open transactions -/

namespace SequencerStateMachine

variable {machine : SequencerStateMachine} {home : Nat → String → Option UInt32}

def opened (index : Nat) (participants : List UInt32) (manifest : MultiPartPlans) : OpenTxn :=
  { headerIndex := index,
    participants := participants,
    count := manifest.partCount,
    seen := ∅ }

def openHeader (index epoch : Nat) (openParts : TreeMap TxnId OpenTxn)
    (item : SequencedTxn × List UInt32) : TreeMap TxnId OpenTxn :=
  match item.1.txClass.multiPart with
  | none => openParts
  | some manifest =>
    openParts.insert ⟨epoch, item.1.position⟩ (opened index item.2 manifest)

theorem openParts_openMultiParts (index epoch : Nat) (txns : List (SequencedTxn × List UInt32)) :
    (machine.openMultiParts index epoch txns).openParts =
      txns.foldl (openHeader index epoch) machine.openParts :=
  rfl

variable {index epoch : Nat} {txn : TxnId} {txns : List (SequencedTxn × List UInt32)}

theorem getElem?_openHeader_ne (openParts : TreeMap TxnId OpenTxn)
    {item : SequencedTxn × List UInt32} (hne : txn ≠ ⟨epoch, item.1.position⟩) :
    (openHeader index epoch openParts item)[txn]? = openParts[txn]? := by
  unfold openHeader
  split
  · rfl
  · exact KeyedFold.getElem?_insert_ne _ hne _

variable {found : OpenTxn}

theorem getElem?_openHeaders_cases (openParts : TreeMap TxnId OpenTxn)
    (hfound : (txns.foldl (openHeader index epoch) openParts)[txn]? = some found) :
    openParts[txn]? = some found ∨ ∃ item ∈ txns, ∃ manifest,
      item.1.txClass.multiPart = some manifest ∧ txn = ⟨epoch, item.1.position⟩ ∧
        found = opened index item.2 manifest := by
  induction txns using List.reverseRecOn with
  | nil => exact .inl hfound
  | append_singleton txns item ih =>
    rw [foldl_append, foldl_cons, foldl_nil] at hfound
    by_cases heq : txn = ⟨epoch, item.1.position⟩
    · unfold openHeader at hfound
      split at hfound
      · obtain hold | ⟨other, hother, rest⟩ := ih hfound
        · exact .inl hold
        · exact .inr ⟨other, mem_append_left _ hother, rest⟩
      next manifest hmanifest =>
        subst heq
        rw [TreeMap.getElem?_insert_self, Option.some.injEq] at hfound
        exact .inr ⟨item, mem_append_right _ mem_cons_self, manifest, hmanifest,
          rfl, hfound.symm⟩
    · rw [getElem?_openHeader_ne _ heq] at hfound
      obtain hold | ⟨other, hother, rest⟩ := ih hfound
      · exact .inl hold
      · exact .inr ⟨other, mem_append_left _ hother, rest⟩

theorem applyEpochBatch_accepted (index : Nat) {batch : EpochBatch}
    (hderived : restoreDerived home batch = some txns)
    (haccepted : machine.refusesBatch batch = false) :
    (machine.applyEpochBatch home index batch).1.openParts =
        txns.foldl (openHeader index batch.epoch) machine.openParts ∧
      (machine.applyEpochBatch home index batch).1.lastAppliedEpoch = batch.epoch := by
  unfold applyEpochBatch
  rw [hderived]
  dsimp only
  rw [epochInOrder_accepted haccepted]
  exact ⟨openParts_openMultiParts index batch.epoch txns, rfl⟩

def OpenTxn.take (found : OpenTxn) (index : Nat) : Option OpenTxn :=
  if (found.seen.insert index).size = found.count then none
  else some { found with seen := found.seen.insert index }

theorem applyTxnPart_accepted {part : PartEntry} (hfound : machine.openParts[txn]? = some found)
    (hcount : part.index < found.count) (hseen : part.index ∉ found.seen) (other : TxnId) :
    (machine.applyTxnPart txn part).1.openParts[other]? =
      if other = txn then OpenTxn.take found part.index else machine.openParts[other]? := by
  simp only [applyTxnPart, hfound, if_neg hcount.not_ge, TreeSet.contains_iff_mem, if_neg hseen,
    OpenTxn.take]
  by_cases heq : other = txn
  · subst heq
    rw [if_pos rfl]
    split_ifs <;> simp
  · rw [if_neg heq]
    split_ifs
    · exact KeyedFold.getElem?_erase_ne _ heq
    · exact KeyedFold.getElem?_insert_ne _ heq _

/-- Every open transaction has a header in the log. -/
structure OpenFrom (home : Nat → String → Option UInt32) (log : List LogEntry)
    (machine : SequencerStateMachine) : Prop where
  header (txn : TxnId) (found : OpenTxn) : machine.openParts[txn]? = some found →
    ∃ manifest, IsHeader home log txn found.participants manifest ∧
      found.count = manifest.partCount
  seen (txn : TxnId) (found : OpenTxn) : machine.openParts[txn]? = some found →
    ∀ index ∈ found.seen, index < found.count

namespace OpenFrom

variable {log : List LogEntry}

section

variable (hopen : OpenFrom home log machine)
include hopen

theorem sub {after : SequencerStateMachine}
    (hsub : ∀ (txn : TxnId) (found : OpenTxn), after.openParts[txn]? = some found →
      machine.openParts[txn]? = some found) : OpenFrom home log after where
  header txn found h := hopen.header txn found (hsub txn found h)
  seen txn found h := hopen.seen txn found (hsub txn found h)

theorem participants_nodup (txn : TxnId) (found : OpenTxn)
    (hfound : machine.openParts[txn]? = some found) : found.participants.Nodup := by
  obtain ⟨manifest, ⟨-, -, batch, txns, item, -, hderived, hitem, heq, -, -⟩, -⟩ :=
    hopen.header txn found hfound
  rw [← heq]
  exact SequencerStateMachine.participants_nodup home
    ((restoreDerived_spec home hderived).2 item hitem)

variable {entry : LogEntry}

theorem applyEpochBatch (hentry : entry ∈ log) {batch : EpochBatch}
    (hdata : entry.data = .entry (.epochBatch batch)) :
    OpenFrom home log (machine.applyEpochBatch home entry.index batch).1 := by
  cases hderived : restoreDerived home batch with
  | none =>
    rw [applyEpochBatch_underivable entry.index hderived]
    exact hopen
  | some txns =>
    by_cases hrefused : machine.refusesBatch batch = true
    · rw [applyEpochBatch_refused entry.index hderived hrefused]
      exact hopen.sub fun _ _ h => h
    have hparts := (applyEpochBatch_accepted entry.index hderived
      (Bool.eq_false_of_not_eq_true hrefused)).1
    refine ⟨?_, ?_⟩
    · intro txn found hfound
      rw [hparts] at hfound
      obtain hold | ⟨item, hitem, manifest, hmanifest, htxn, rfl⟩ :=
        getElem?_openHeaders_cases _ hfound
      · exact hopen.header txn found hold
      · exact ⟨manifest, ⟨entry, hentry, batch, txns, item, hdata, hderived, hitem, rfl,
          hmanifest, htxn⟩, rfl⟩
    · intro txn found hfound
      rw [hparts] at hfound
      obtain hold | ⟨item, -, manifest, -, -, rfl⟩ := getElem?_openHeaders_cases _ hfound
      · exact hopen.seen txn found hold
      · intro index hindex
        simp [opened] at hindex

theorem applyTxnPart (txn : TxnId) (part : PartEntry) :
    OpenFrom home log (machine.applyTxnPart txn part).1 := by
  by_cases hrefused : machine.refusesPart txn part.index = true
  · rw [applyTxnPart_refused hrefused]
    exact hopen
  obtain ⟨found, hfound, hcount, hseen⟩ :=
    refusesPart_eq_false.mp (Bool.eq_false_of_not_eq_true hrefused)
  have hcases : ∀ (other : TxnId) (now : OpenTxn),
      (machine.applyTxnPart txn part).1.openParts[other]? = some now →
        (other = txn ∧ now = { found with seen := found.seen.insert part.index }) ∨
          machine.openParts[other]? = some now := by
    intro other now h
    rw [applyTxnPart_accepted hfound hcount hseen, OpenTxn.take] at h
    split_ifs at h with heq hclosed
    · exact .inl ⟨heq, (Option.some.inj h).symm⟩
    · exact .inr h
  refine ⟨?_, ?_⟩
  · intro other now h
    obtain ⟨rfl, rfl⟩ | hold := hcases other now h
    · exact hopen.header other found hfound
    · exact hopen.header other now hold
  · intro other now h index hindex
    obtain ⟨rfl, rfl⟩ | hold := hcases other now h
    · rw [TreeSet.mem_insert, LawfulEqOrd.compare_eq_iff_eq] at hindex
      obtain rfl | hindex := hindex
      · exact hcount
      · exact hopen.seen other found hfound index hindex
    · exact hopen.seen other now hold index hindex

theorem applyPartsAbandoned (txn : TxnId) :
    OpenFrom home log (machine.applyPartsAbandoned txn).1 := by
  unfold SequencerStateMachine.applyPartsAbandoned
  split
  · exact hopen
  · exact hopen.sub fun _ _ h => (KeyedFold.getElem?_erase_eq_some_iff.mp h).2

theorem applyEntry (hentry : entry ∈ log) {decoded : SequencerEntry}
    (hdata : entry.data = .entry decoded) :
    OpenFrom home log (machine.applyEntry home entry.index decoded).1 := by
  cases decoded with
  | epochBatch batch => exact hopen.applyEpochBatch hentry hdata
  | epochFloor nextEpoch epochSystemMs => exact hopen.sub fun _ _ h => h
  | txnPart txn part => exact hopen.applyTxnPart txn part
  | txnPartsAbandoned txn => exact hopen.applyPartsAbandoned txn
  | _ => exact hopen

end

end OpenFrom

end SequencerStateMachine

/-! ## Runs of the state machine -/

section MachineRuns

variable (home : Nat → String → Option UInt32) (vshard : UInt32) (fromEpoch toEpoch : Nat)

def LogEntry.Covered (entry : LogEntry) : Prop :=
  match entry.data with
  | .entry decoded => decoded.Covered fromEpoch toEpoch
  | _ => True

def machineAt (hosted : TreeSet UInt32) (log : List LogEntry) (count : Nat) :
    SequencerStateMachine :=
  ((SequencerStateMachine.new hosted).applyAll home (log.take count)).1

def SequencerStateMachine.refusesEntry (machine : SequencerStateMachine) (entry : LogEntry) :
    Bool :=
  match entry.data with
  | .entry decoded => machine.refuses vshard decoded
  | _ => false

/-- The log without the entries of which the state machine refuses what they
would hand to the vshard. -/
def accepted (hosted : TreeSet UInt32) (log : List LogEntry) : List LogEntry :=
  (log.zipIdx.filter fun item =>
    !(machineAt home hosted log item.2).refusesEntry vshard item.1).map Prod.fst

variable {home vshard fromEpoch toEpoch} {hosted : TreeSet UInt32} {log : List LogEntry}

variable {count : Nat} {entry : LogEntry}

theorem machineAt_succ (hentry : log[count]? = some entry) :
    machineAt home hosted log (count + 1) =
      ((machineAt home hosted log count).apply home entry).1 := by
  rw [machineAt, take_add_one, hentry, Option.toList_some, applyAll_append]
  rfl

theorem hosted_apply (machine : SequencerStateMachine) (entry : LogEntry) :
    (machine.apply home entry).1.hosted = machine.hosted := by
  unfold apply
  split_ifs
  · rfl
  · cases entry.data with
    | entry decoded => exact (applyEntry_frame home _ _ _).2
    | _ => rfl

theorem machineAt_succ_none (hentry : log[count]? = none) :
    machineAt home hosted log (count + 1) = machineAt home hosted log count := by
  rw [machineAt, take_add_one, hentry, Option.toList_none, append_nil, ← machineAt]

theorem hosted_machineAt (count : Nat) : (machineAt home hosted log count).hosted = hosted := by
  induction count with
  | zero => rfl
  | succ count ih =>
    cases hentry : log[count]? with
    | none =>
      rw [machineAt_succ_none hentry]
      exact ih
    | some entry => rw [machineAt_succ hentry, hosted_apply, ih]

def reaching (machine : SequencerStateMachine) (entry : LogEntry) : SequencerStateMachine :=
  { machine with lastCommittedIndex := entry.index }

variable (hindexes : ∀ entry ∈ log, entry.index < notYetApplied)
  (hincreasing : log.Pairwise (·.index < ·.index))
include hindexes hincreasing

theorem apply_machineAt (hentry : log[count]? = some entry) :
    (machineAt home hosted log count).apply home entry =
      match entry.data with
      | .entry decoded =>
        (reaching (machineAt home hosted log count) entry).applyEntry home entry.index decoded
      | _ => (reaching (machineAt home hosted log count) entry, []) := by
  have hindex := committedIndex_take home hosted hindexes hincreasing count
  unfold SequencerStateMachine.apply
  rw [if_neg]
  · cases entry.data <;> rfl
  · unfold machineAt
    rw [hindex]
    cases hlast : (log.take count).getLast? with
    | none => simp
    | some last =>
      have hlt := index_lt_of_getElem? hincreasing hentry (mem_of_getLast? hlast)
      simpa using hlt

theorem openFrom_machineAt (count : Nat) : OpenFrom home log (machineAt home hosted log count) := by
  induction count with
  | zero =>
    refine ⟨?_, ?_⟩ <;>
    · intro txn found hfound
      simp [machineAt, applyAll, SequencerStateMachine.new] at hfound
  | succ count ih =>
    cases hentry : log[count]? with
    | none =>
      rw [machineAt_succ_none hentry]
      exact ih
    | some entry =>
      have hmem := mem_of_getElem? hentry
      have hreaching : OpenFrom home log (reaching (machineAt home hosted log count) entry) :=
        ih.sub fun _ _ h => h
      rw [machineAt_succ hentry, apply_machineAt hindexes hincreasing hentry]
      cases hdata : entry.data with
      | entry decoded => exact hreaching.applyEntry hmem hdata
      | _ => exact hreaching

theorem handedTo_apply (hhosted : vshard ∈ hosted)
    (hcovered : ∀ entry ∈ log, entry.Covered fromEpoch toEpoch)
    (hentry : log[count]? = some entry) :
    handedTo vshard ((machineAt home hosted log count).apply home entry).2 =
      if (machineAt home hosted log count).refusesEntry vshard entry then []
      else replayEntry home vshard fromEpoch toEpoch entry := by
  have hcover := hcovered entry (mem_of_getElem? hentry)
  have hopen : OpenFrom home log (reaching (machineAt home hosted log count) entry) :=
    (openFrom_machineAt hindexes hincreasing count).sub fun _ _ h => h
  have hhosted : vshard ∈ (reaching (machineAt home hosted log count) entry).hosted := by
    rw [reaching, hosted_machineAt]
    exact hhosted
  rw [apply_machineAt hindexes hincreasing hentry]
  unfold refusesEntry replayEntry
  unfold LogEntry.Covered at hcover
  cases hdata : entry.data with
  | entry decoded =>
    rw [hdata] at hcover
    cases hrefused : (reaching (machineAt home hosted log count) entry).refuses vshard decoded with
    | true => exact (handedTo_refused home entry.index hrefused).trans (if_pos hrefused).symm
    | false =>
      refine (handedTo_accepted home hhosted hopen.participants_nodup entry.index hcover
        hrefused).symm.trans (if_neg ?_).symm
      exact fun h => Bool.false_ne_true (hrefused.symm.trans h)
  | _ => rfl

/-- A live run hands to a vshard, in order, what the replay of the entries
accepted for it reads. -/
theorem handedTo_applyAll (hhosted : vshard ∈ hosted)
    (hcovered : ∀ entry ∈ log, entry.Covered fromEpoch toEpoch) :
    handedTo vshard ((SequencerStateMachine.new hosted).applyAll home log).2 =
      replayEpochsForVshard home vshard fromEpoch toEpoch (accepted home vshard hosted log) := by
  suffices ∀ count, handedTo vshard
      ((SequencerStateMachine.new hosted).applyAll home (log.take count)).2 =
        replayEpochsForVshard home vshard fromEpoch toEpoch
          (((log.take count).zipIdx.filter fun item =>
            !(machineAt home hosted log item.2).refusesEntry vshard item.1).map Prod.fst) by
    simpa [accepted] using this log.length
  intro count
  induction count with
  | zero => rfl
  | succ count ih =>
    cases hentry : log[count]? with
    | none => simpa [take_add_one, hentry] using ih
    | some entry =>
      have hlength : (log.take count).length = count :=
        List.length_take_of_le (List.getElem?_eq_some_iff.mp hentry).1.le
      have hstep : handedTo vshard ((machineAt home hosted log count).apply home entry).2 = _ :=
        handedTo_apply hindexes hincreasing hhosted hcovered hentry
      rw [take_add_one, hentry, Option.toList_some, applyAll_append, handedTo_append, ih,
        zipIdx_append, filter_append, map_append, hlength]
      unfold machineAt at hstep
      rw [hstep]
      cases hrefused : ((SequencerStateMachine.new hosted).applyAll home
          (log.take count)).1.refusesEntry vshard entry with
      | true | false => simp [replayEpochsForVshard, machineAt, hrefused]

end MachineRuns

/-- A transaction of vshard 4 whose plans come in two parts. -/
def partsBatch : EpochBatch :=
  { epoch := 0,
    txns := [{ soleTxn 0 4 with
      txClass := { (soleTxn 0 4).txClass with multiPart := some ⟨2, [(4, 2)]⟩ } }],
    epochSystemMs := 0,
    epochs := by simp [soleTxn],
    positions := by simp }

/-- The first part of the transaction comes twice, and then it is abandoned.
The abandonment replays for every vshard, but only its participant is handed
it. -/
theorem handedTo_applyAll_parts :
    let part : LogData := .entry (.txnPart ⟨0, 0⟩ ⟨0, 0, [4], by decide, [7], none⟩)
    let log : List LogEntry :=
      [⟨1, .entry (.epochBatch partsBatch)⟩, ⟨2, part⟩, ⟨3, part⟩,
        ⟨4, .entry (.txnPartsAbandoned ⟨0, 0⟩)⟩, ⟨5, .entry (.epochBatch (soleBatch 1 3))⟩]
    let hosted := TreeSet.ofList [(3 : UInt32), 4]
    let handed := ((SequencerStateMachine.new hosted).applyAll (fun _ _ => none) log).2
    (accepted (fun _ _ => none) 4 hosted log).map (·.index) = [1, 2, 4, 5] ∧
      (accepted (fun _ _ => none) 3 hosted log).map (·.index) = [1, 2, 5] ∧
      (handedTo 4 handed).length = 3 ∧
      ∀ vshard ∈ hosted, handedTo vshard handed = replayEpochsForVshard (fun _ _ => none) vshard
        0 9 (accepted (fun _ _ => none) vshard hosted log) := by
  intro part log hosted handed
  refine ⟨by decide, by decide, by decide, fun vshard hhosted => ?_⟩
  exact handedTo_applyAll (by decide) (by decide) hhosted
    (by simp [log, part, LogEntry.Covered, SequencerEntry.Covered, inRange, partsBatch, soleBatch])

end NodeDB.Sequencer
