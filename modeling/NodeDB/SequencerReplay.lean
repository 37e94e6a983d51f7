import NodeDB.Redelivery

/-!
# Replay of the sequencer log for one vshard

A scheduler that missed inputs decodes the committed entries again.  The
decoding keeps no state: it does not ask whether the state machine refused the
entry.  Every entry replays either to what the state machine handed to the
vshard, or the state machine handed it nothing.
-/

namespace NodeDB.Sequencer

open Std Calvin

section Replay

variable (home : Nat → String → Option UInt32) (vshard : UInt32)

def inRange (fromEpoch toEpoch epoch : Nat) : Bool :=
  decide (fromEpoch ≤ epoch ∧ epoch ≤ toEpoch)

def replayDecoded (fromEpoch toEpoch : Nat) : SequencerEntry → List SchedulerInput
  | .epochBatch batch =>
    if inRange fromEpoch toEpoch batch.epoch then
      match restoreDerived home batch with
      | none => []
      | some txns =>
        (txns.filter fun item => decide (vshard ∈ item.2)).map fun item =>
          stampTxn batch.epochSystemMs txns vshard item.1
    else
      []
  | .reserveRead owner target key => if target = vshard then [.reserve owner key] else []
  | .releaseReservation owner target reason =>
    if target = vshard then [.release owner reason] else []
  | .cutMarker hlc restorePoint barrier => [.cutMarker hlc restorePoint barrier]
  | .txnPart txn part =>
    if inRange fromEpoch toEpoch txn.epoch ∧ vshard ∈ part.targets then
      [.txnPart txn part.index part.firstTask part.plans part.chunk]
    else
      []
  | .txnPartsAbandoned txn =>
    if inRange fromEpoch toEpoch txn.epoch then [.partsAbandoned txn] else []
  | .completionAck _ _ => []
  | .vote _ _ => []
  | .abortVote _ _ => []
  | .verdict _ => []
  | .abortVerdict _ => []
  | .epochFloor _ _ => []

def replayEntry (fromEpoch toEpoch : Nat) (entry : LogEntry) : List SchedulerInput :=
  match entry.data with
  | .entry decoded => replayDecoded home vshard fromEpoch toEpoch decoded
  | .empty => []
  | .confChange => []
  | .undecodable => []

def replayEpochsForVshard (fromEpoch toEpoch : Nat) (entries : List LogEntry) :
    List SchedulerInput :=
  entries.flatMap (replayEntry home vshard fromEpoch toEpoch)

end Replay

def handedTo (vshard : UInt32) (handed : SequencerStateMachine.Handed) :
    List SchedulerInput :=
  (handed.filter fun item => decide (item.1 = vshard)).map Prod.snd

theorem handedTo_append (vshard : UInt32) (first second : SequencerStateMachine.Handed) :
    handedTo vshard (first ++ second) = handedTo vshard first ++ handedTo vshard second := by
  simp [handedTo]

theorem handedTo_map {vshard : UInt32} {vshards : List UInt32} (hnodup : vshards.Nodup)
    (input : UInt32 → SchedulerInput) :
    handedTo vshard (vshards.map fun target => (target, input target)) =
      if vshard ∈ vshards then [input vshard] else [] := by
  induction vshards with
  | nil => rfl
  | cons target rest ih =>
    obtain ⟨hfresh, hrest⟩ := List.nodup_cons.mp hnodup
    have ih := ih hrest
    by_cases heq : target = vshard
    · subst heq
      rw [if_neg hfresh] at ih
      simpa [handedTo] using ih
    · simpa [handedTo, heq, Ne.symm heq] using ih

namespace SequencerStateMachine

/-! ## Refused entries -/

section Refusals

variable (machine : SequencerStateMachine)

def refusesBatch (batch : EpochBatch) : Bool :=
  machine.halted || decide (batch.epoch < machine.nextEpoch)

def refusesPart (txn : TxnId) (index : Nat) : Bool :=
  machine.openParts[txn]?.all fun found => decide (found.count ≤ index ∨ index ∈ found.seen)

def refusesAbandonment (vshard : UInt32) (txn : TxnId) : Bool :=
  machine.openParts[txn]?.all fun found => decide (vshard ∉ found.participants)

/-- The state machine refuses what the entry would hand to the vshard. -/
def refuses (vshard : UInt32) : SequencerEntry → Bool
  | .epochBatch batch => machine.refusesBatch batch
  | .txnPart txn part => machine.refusesPart txn part.index
  | .txnPartsAbandoned txn => machine.refusesAbandonment vshard txn
  | _ => false

variable {machine}

variable {batch : EpochBatch} {txn : TxnId} {index : Nat} {vshard : UInt32}

theorem refusesBatch_eq_true :
    machine.refusesBatch batch = true ↔
      machine.halted = true ∨ batch.epoch < machine.nextEpoch := by
  simp [refusesBatch]

theorem refusesBatch_eq_false :
    machine.refusesBatch batch = false ↔
      machine.halted = false ∧ machine.nextEpoch ≤ batch.epoch := by
  simp [refusesBatch]

theorem refusesPart_eq_true :
    machine.refusesPart txn index = true ↔ ∀ found : OpenTxn,
      machine.openParts[txn]? = some found → found.count ≤ index ∨ index ∈ found.seen := by
  simp [refusesPart, Option.all_eq_true]

theorem refusesPart_eq_false :
    machine.refusesPart txn index = false ↔ ∃ found : OpenTxn,
      machine.openParts[txn]? = some found ∧ index < found.count ∧ index ∉ found.seen := by
  simp [refusesPart, Option.all_eq_false]

theorem refusesAbandonment_eq_true :
    machine.refusesAbandonment vshard txn = true ↔ ∀ found : OpenTxn,
      machine.openParts[txn]? = some found → vshard ∉ found.participants := by
  simp [refusesAbandonment, Option.all_eq_true]

theorem refusesAbandonment_eq_false :
    machine.refusesAbandonment vshard txn = false ↔ ∃ found : OpenTxn,
      machine.openParts[txn]? = some found ∧ vshard ∈ found.participants := by
  simp [refusesAbandonment, Option.all_eq_false]

end Refusals

/-! ## What an entry does -/

section Effects

variable {machine : SequencerStateMachine} {home : Nat → String → Option UInt32}

variable {batch : EpochBatch} {txn : TxnId}

theorem epochInOrder_accepted (haccepted : machine.refusesBatch batch = false) :
    machine.epochInOrder batch = (true, machine) := by
  obtain ⟨hrunning, hepoch⟩ := refusesBatch_eq_false.mp haccepted
  unfold epochInOrder classify
  rw [hrunning, if_neg Bool.false_ne_true]
  split_ifs with hequal hahead
  · rfl
  · rfl
  · omega

theorem epochInOrder_refused (hrefused : machine.refusesBatch batch = true) :
    machine.epochInOrder batch = (false, { machine with halted := true }) := by
  have hrefused := refusesBatch_eq_true.mp hrefused
  unfold epochInOrder classify
  split_ifs with hhalted hequal hahead
  · rw [← hhalted]
  · exact absurd (hrefused.resolve_left hhalted) hequal.not_lt
  · exact absurd (hrefused.resolve_left hhalted) hahead.le.not_gt
  · rfl

theorem applyEpochBatch_underivable (index : Nat) (hderived : restoreDerived home batch = none) :
    machine.applyEpochBatch home index batch = (machine, []) := by
  unfold applyEpochBatch
  rw [hderived]

theorem applyEpochBatch_refused (index : Nat) {txns : List (SequencedTxn × List UInt32)}
    (hderived : restoreDerived home batch = some txns)
    (hrefused : machine.refusesBatch batch = true) :
    machine.applyEpochBatch home index batch = ({ machine with halted := true }, []) := by
  unfold applyEpochBatch
  rw [hderived]
  dsimp only
  rw [epochInOrder_refused hrefused]

theorem applyTxnPart_refused {part : PartEntry}
    (hrefused : machine.refusesPart txn part.index = true) :
    machine.applyTxnPart txn part = (machine, []) := by
  unfold applyTxnPart
  split
  · rfl
  next found hfound =>
    obtain hcount | hseen := refusesPart_eq_true.mp hrefused found hfound
    · rw [if_pos hcount]
    · rw [if_pos (TreeSet.contains_iff_mem.mpr hseen), ite_self]

theorem handedTo_abandonment_refused {vshard : UInt32}
    (hrefused : machine.refusesAbandonment vshard txn = true) :
    handedTo vshard (machine.applyPartsAbandoned txn).2 = [] := by
  unfold applyPartsAbandoned
  split
  · rfl
  next found hopen =>
    have hnot := refusesAbandonment_eq_true.mp hrefused found hopen
    simp only [handedTo, List.map_eq_nil_iff, List.filter_eq_nil_iff, List.mem_map]
    rintro _ ⟨target, htarget, rfl⟩ heq
    exact hnot (of_decide_eq_true heq ▸ htarget)

end Effects

end SequencerStateMachine

def SequencerEntry.Covered (fromEpoch toEpoch : Nat) : SequencerEntry → Prop
  | .epochBatch batch => inRange fromEpoch toEpoch batch.epoch = true
  | .txnPart txn _ => inRange fromEpoch toEpoch txn.epoch = true
  | .txnPartsAbandoned txn => inRange fromEpoch toEpoch txn.epoch = true
  | _ => True

section Fidelity

variable (home : Nat → String → Option UInt32) {vshard : UInt32}
  {machine : SequencerStateMachine} {fromEpoch toEpoch : Nat}

open SequencerStateMachine

variable {batch : EpochBatch} {txn : TxnId} {decoded : SequencerEntry}

theorem handedTo_fanOut (hhosted : vshard ∈ machine.hosted)
    {txns : List (SequencedTxn × List UInt32)} (hderived : restoreDerived home batch = some txns) :
    handedTo vshard (machine.fanOutEpochBatch batch.epochSystemMs txns) =
      (txns.filter fun item => decide (vshard ∈ item.2)).map fun item =>
        stampTxn batch.epochSystemMs txns vshard item.1 := by
  have hparticipants := (restoreDerived_spec home hderived).2
  -- the stamp reads the whole batch, the induction only runs over its transactions
  unfold fanOutEpochBatch
  generalize hstamp : stampTxn batch.epochSystemMs txns = stamp
  clear hstamp hderived
  induction txns with
  | nil => rfl
  | cons item rest ih =>
    have hnodup := participants_nodup home (hparticipants item List.mem_cons_self)
    rw [List.flatMap_cons, handedTo_append,
      handedTo_map (hnodup.filter (machine.hosted.contains ·)) (stamp · item.1),
      ih fun other hother => hparticipants other (List.mem_cons_of_mem _ hother)]
    by_cases hmem : vshard ∈ item.2 <;> simp [hmem, hhosted]

theorem replay_epochBatch (hhosted : vshard ∈ machine.hosted) (index : Nat)
    (hrange : inRange fromEpoch toEpoch batch.epoch = true)
    (haccepted : machine.refusesBatch batch = false) :
    replayDecoded home vshard fromEpoch toEpoch (.epochBatch batch) =
      handedTo vshard (machine.applyEpochBatch home index batch).2 := by
  simp only [replayDecoded, hrange, if_true, applyEpochBatch]
  cases hderived : restoreDerived home batch with
  | none => rfl
  | some txns =>
    dsimp only
    rw [epochInOrder_accepted haccepted]
    exact (handedTo_fanOut home hhosted hderived).symm

theorem replay_txnPart {part : PartEntry} (hrange : inRange fromEpoch toEpoch txn.epoch = true)
    (haccepted : machine.refusesPart txn part.index = false) :
    replayDecoded home vshard fromEpoch toEpoch (.txnPart txn part) =
      handedTo vshard (machine.applyTxnPart txn part).2 := by
  obtain ⟨found, hopen, hcount, hseen⟩ := refusesPart_eq_false.mp haccepted
  have hnodup : part.targets.Nodup := part.sorted.imp fun hlt => UInt32.ne_of_lt hlt
  simp only [applyTxnPart, hopen, if_neg hcount.not_ge, TreeSet.contains_iff_mem,
    if_neg hseen, handedTo_map hnodup]
  simp [replayDecoded, hrange]

theorem replay_txnPartsAbandoned {found : OpenTxn}
    (hrange : inRange fromEpoch toEpoch txn.epoch = true)
    (hopen : machine.openParts[txn]? = some found) (hnodup : found.participants.Nodup)
    (hmem : vshard ∈ found.participants) :
    replayDecoded home vshard fromEpoch toEpoch (.txnPartsAbandoned txn) =
      handedTo vshard (machine.applyPartsAbandoned txn).2 := by
  simp only [applyPartsAbandoned, hopen, handedTo_map hnodup, if_pos hmem]
  simp [replayDecoded, hrange]

theorem handedTo_refused (index : Nat) (hrefused : machine.refuses vshard decoded = true) :
    handedTo vshard (machine.applyEntry home index decoded).2 = [] := by
  cases decoded with
  | epochBatch batch =>
    cases hderived : restoreDerived home batch with
    | none =>
      rw [applyEntry, applyEpochBatch_underivable index hderived]
      rfl
    | some txns =>
      rw [applyEntry, applyEpochBatch_refused index hderived hrefused]
      rfl
  | txnPart txn part =>
    rw [applyEntry, applyTxnPart_refused hrefused]
    rfl
  | txnPartsAbandoned txn => exact handedTo_abandonment_refused hrefused
  | _ => cases hrefused

theorem handedTo_accepted (hhosted : vshard ∈ machine.hosted)
    (hparticipants : ∀ (txn : TxnId) (found : OpenTxn),
      machine.openParts[txn]? = some found → found.participants.Nodup) (index : Nat)
    (hcovered : decoded.Covered fromEpoch toEpoch)
    (haccepted : machine.refuses vshard decoded = false) :
    replayDecoded home vshard fromEpoch toEpoch decoded =
      handedTo vshard (machine.applyEntry home index decoded).2 := by
  cases decoded with
  | epochBatch batch => exact replay_epochBatch home hhosted index hcovered haccepted
  | reserveRead owner target key | releaseReservation owner target reason =>
    by_cases heq : target = vshard <;> simp [replayDecoded, applyEntry, handedTo, heq]
  | cutMarker hlc restorePoint barrier =>
    have hnodup : machine.hosted.toList.Nodup :=
      TreeSet.distinct_toList.imp fun hne heq =>
        hne (LawfulEqOrd.compare_eq_iff_eq.mpr heq)
    simp [applyEntry, applyCutMarker, handedTo_map hnodup, hhosted, replayDecoded]
  | txnPart txn part => exact replay_txnPart home hcovered haccepted
  | txnPartsAbandoned txn =>
    obtain ⟨found, hopen, hmem⟩ := refusesAbandonment_eq_false.mp haccepted
    exact replay_txnPartsAbandoned home hcovered hopen (hparticipants txn found hopen) hmem
  | _ => rfl

end Fidelity

end NodeDB.Sequencer
