import NodeDB.SerialOrder

/-!
# The acquisition that never waits

A probe takes a request if none of its keys conflicts, and does nothing
otherwise.  It does not look at what the transaction has pending.  The write
gate probes under ids of its own band, under which nothing is ever acquired:
nothing is pending there, and the probe agrees with an acquisition.
-/

namespace NodeDB.Calvin

open Std

variable {κ : Type} [Ord κ]

namespace LockManager

/-- The transaction holds no key and waits for none. -/
def Idle (manager : LockManager κ) (txn : TxnId) : Prop :=
  ∀ item ∈ manager.table.toList, item.2.holds txn = false ∧ item.2.hasWaiter txn = false
  deriving Decidable

/-- The acquisition takes a key away from a read reservation. -/
def Wounds (manager : LockManager κ) (txn : TxnId) (keys : LockRequest κ) : Prop :=
  ∃ item ∈ manager.table.toList, ∃ holder ∈ item.2.holders,
    holder.1 ≠ txn ∧ holder.1.isReservation = true ∧
      ∀ entry ∈ (manager.acquire txn keys).2.table[item.1]?, entry.holds holder.1 = false

/-- The same locks, held and waited for. -/
structure SameLocks (manager other : LockManager κ) : Prop where
  table : manager.table = other.table
  heldLocks : manager.heldLocks = other.heldLocks
  pendingKeys : manager.pendingKeys.Equiv other.pendingKeys

/-- A refused probe changes nothing.  A probe that takes its request leaves
what the acquisition leaves, and takes it exactly if the acquisition is ready
without a wound. -/
structure ProbeAgrees (manager : LockManager κ) (txn : TxnId) (keys : LockRequest κ) :
    Prop where
  refused : (manager.tryAcquire txn keys).1 = false →
    (manager.tryAcquire txn keys).2 = manager
  taken : (manager.tryAcquire txn keys).1 = true →
    (manager.acquire txn keys).1 = .ready ∧
      SameLocks (manager.tryAcquire txn keys).2 (manager.acquire txn keys).2
  taken_iff : (manager.tryAcquire txn keys).1 = true ↔
    (manager.acquire txn keys).1 = .ready ∧ ¬ manager.Wounds txn keys

/-! ## A request without a conflict -/

theorem foldl_grant_pendingKeys (manager : LockManager κ) (txn : TxnId)
    (items : List (κ × LockMode)) :
    (items.foldl (fun granted item => granted.grant txn item.1 item.2) manager).pendingKeys =
      manager.pendingKeys :=
  StepRuns.foldl_unchanged (fun granted : LockManager κ => granted.pendingKeys)
    (fun granted item => show (granted.grant txn item.1 item.2).pendingKeys = _ from rfl)
    manager items

theorem erase_equiv {manager : LockManager κ} {txn : TxnId}
    (hpending : manager.pendingKeys[txn]? = none) :
    manager.pendingKeys.Equiv (manager.pendingKeys.erase txn) := by
  refine TreeMap.Equiv.of_forall_constGet?_eq fun other => ?_
  by_cases heq : other = txn
  · rw [heq, TreeMap.getElem?_erase_self, hpending]
  · rw [KeyedFold.getElem?_erase_ne _ heq]

variable [TransOrd κ] [LawfulEqOrd κ]

theorem fullRequest_equiv {manager : LockManager κ} {txn : TxnId}
    (hpending : manager.pendingKeys[txn]? = none) (keys : LockRequest κ) :
    (manager.fullRequest txn keys).Equiv keys := by
  refine TreeMap.Equiv.of_forall_constGet?_eq fun key => ?_
  rw [fullRequest, hpending, Option.getD_none, mergeRequest_getElem?]
  cases keys[key]? with
  | none => simp
  | some mode => simp [addMode]

variable {manager : LockManager κ} {txn : TxnId} {keys : LockRequest κ}

theorem acquire_of_free (hpending : manager.pendingKeys[txn]? = none)
    (hfree : manager.conflicts txn keys = false) :
    (manager.acquire txn keys).1 = .ready ∧
      SameLocks (manager.tryAcquire txn keys).2 (manager.acquire txn keys).2 := by
  have hrequest := fullRequest_equiv hpending keys
  have hfree' : ({ manager with pendingKeys := manager.pendingKeys.erase txn } :
      LockManager κ).conflicts txn (manager.fullRequest txn keys) = false := by
    unfold conflicts at hfree ⊢
    rw [hrequest.toList_eq]
    exact hfree
  -- the two differ only in the pending requests they start from
  have hgranted : keys.toList.foldl (fun granted item => granted.grant txn item.1 item.2)
        { manager with pendingKeys := manager.pendingKeys.erase txn } =
      { keys.toList.foldl (fun granted item => granted.grant txn item.1 item.2) manager with
        pendingKeys := manager.pendingKeys.erase txn } :=
    List.foldl_hom (fun granted : LockManager κ =>
      { granted with pendingKeys := manager.pendingKeys.erase txn }) fun _ _ => rfl
  unfold acquire tryAcquire
  rw [if_pos hfree', if_neg (Bool.eq_false_iff.mp hfree), settleKeys_grant,
    hrequest.toList_eq, hgranted]
  refine ⟨rfl, rfl, ?_, ?_⟩
  · unfold finishReady
    rw [hrequest.keys_eq]
  · have hkept := foldl_grant_pendingKeys manager txn keys.toList
    exact (congrArg (TreeMap.Equiv · _) hkept).mpr (erase_equiv hpending)

theorem not_wounds_of_free (hlawful : manager.Lawful)
    (hpending : manager.pendingKeys[txn]? = none)
    (hfree : manager.conflicts txn keys = false) : ¬ manager.Wounds txn keys := by
  rintro ⟨⟨key, entry⟩, hitem, holder, hholder, -, -, hlost⟩
  have hentry := TreeMap.mem_toList_iff_getElem?_eq_some.mp hitem
  have hkept : ∃ entry', (manager.acquire txn keys).2.table[key]? = some entry' ∧
      ∃ mode, (holder.1, mode) ∈ entry'.holders := by
    rw [← (acquire_of_free hpending hfree).2.table]
    obtain hsame | ⟨-, -, hresolves⟩ := tryAcquire_resolves hlawful txn keys
    · rw [hsame]
      exact ⟨entry, hentry, holder.2, hholder⟩
    · obtain ⟨entry', hafter, rfl | ⟨mode, -, htaken | ⟨-, hnever⟩⟩⟩ := hresolves.becomes hentry
      · exact ⟨entry', hafter, holder.2, hholder⟩
      · refine ⟨entry', hafter, ?_⟩
        cases htaken with
        | fresh hbefore => cases hbefore
        | held before hbefore htake hafter =>
          obtain rfl := Option.some.inj hbefore
          rw [hafter]
          exact (LockEntry.hold_names entry txn mode holder.1).mpr (.inr ⟨_, hholder⟩)
      · exact hnever.elim
  obtain ⟨entry', hafter, mode, hmem⟩ := hkept
  have hfalse := hlost entry' hafter
  rw [LockEntry.holds, List.any_eq_false] at hfalse
  exact hfalse _ hmem (decide_eq_true rfl)

/-! ## A request with a conflict -/

theorem Idle.absent (hidle : manager.Idle txn) {key : κ} {entry : LockEntry}
    (hentry : manager.table[key]? = some entry) :
    (∀ holder ∈ entry.holders, holder.1 ≠ txn) ∧
      ∀ waiter ∈ entry.waiters, waiter.1 ≠ txn := by
  obtain ⟨hholds, hwaits⟩ := hidle _ (TreeMap.mem_toList_iff_getElem?_eq_some.mpr hentry)
  constructor
  · intro holder hholder
    exact of_decide_eq_false (Bool.eq_false_iff.mpr (List.any_eq_false.mp hholds holder hholder))
  · intro waiter hwaiter
    exact of_decide_eq_false (Bool.eq_false_iff.mpr (List.any_eq_false.mp hwaits waiter hwaiter))

theorem Idle.mustWait (hidle : manager.Idle txn) {key : κ} {entry : LockEntry}
    {mode asked : LockMode} (hentry : manager.table[key]? = some entry)
    (hwait : entry.MustWait txn asked) (hcovers : mode.Covers asked) : entry.MustWait txn mode := by
  obtain ⟨hholders, hwaiters⟩ := hidle.absent hentry
  cases hwait with
  | waits asked hwaits => exact absurd rfl (hwaiters _ hwaits)
  | holds own hown hexcluded => exact absurd rfl (hholders _ hown)
  | arrives habsent hwaits hexcluded =>
    refine .arrives habsent hwaits (hexcluded.imp_right ?_)
    rintro ⟨holder, hholder, hexcludes⟩
    refine ⟨holder, hholder, ?_⟩
    rw [LockMode.compatible_comm] at hexcludes ⊢
    exact Bool.eq_false_iff.mpr fun hfits =>
      absurd (hcovers.compatible hfits) (Bool.eq_false_iff.mp hexcludes)

theorem exists_fullRequest (manager : LockManager κ) (txn : TxnId) {key : κ} {mode : LockMode}
    (hmode : keys[key]? = some mode) :
    ∃ merged, (manager.fullRequest txn keys)[key]? = some merged ∧ merged.Covers mode := by
  rw [fullRequest, mergeRequest_getElem?, hmode]
  cases ((manager.pendingKeys[txn]?).getD ∅)[key]? with
  | none => exact ⟨mode, rfl, mode.covers_refl⟩
  | some held => exact ⟨held.merge mode, rfl, held.merge_covers_right mode⟩

theorem Idle.wounds (hidle : manager.Idle txn) (hlawful : manager.Lawful)
    (hconflicts : manager.conflicts txn keys = true)
    (hready : (manager.acquire txn keys).1 = .ready) : manager.Wounds txn keys := by
  obtain ⟨⟨key, mode⟩, hitem, hclass⟩ := List.any_eq_true.mp hconflicts
  have hclass := of_decide_eq_true hclass
  obtain ⟨entry, hentry⟩ := exists_entry_of_conflict hclass
  obtain ⟨hconsistent, hheld⟩ := hlawful key entry hentry
  obtain ⟨merged, hmerged, hcovers⟩ := exists_fullRequest manager txn
    (TreeMap.mem_toList_iff_getElem?_eq_some.mp hitem)
  have hwait := hidle.mustWait hentry (mustWait_of_classify hentry hconsistent hheld hclass)
    hcovers
  obtain ⟨-, -, -, hresolves⟩ | ⟨hblocked, -⟩ := acquire_resolves hlawful txn keys
  · obtain ⟨entry', hafter, htaken | ⟨before, hbefore, -, -, hwounded⟩⟩ :=
      hresolves.requested key merged hmerged
    · exact absurd hwait (htaken.not_mustWait hentry hconsistent)
    · obtain rfl := Option.some.inj (hentry.symm.trans hbefore)
      obtain ⟨holder, hholder⟩ := List.exists_mem_of_ne_nil _ hheld
      have hne := (hidle.absent hentry).1 holder hholder
      refine ⟨(key, entry), TreeMap.mem_toList_iff_getElem?_eq_some.mpr hentry, holder, hholder,
        hne, (hwounded.younger holder hholder hne).2.1, ?_⟩
      intro found hfound
      obtain rfl := Option.some.inj (hafter.symm.trans hfound)
      rw [hwounded.after_eq]
      simpa [LockEntry.holds] using hne.symm
  · rw [hready] at hblocked
    cases hblocked

theorem Idle.probeAgrees (hidle : manager.Idle txn) (hlawful : manager.Lawful)
    (hpending : manager.pendingKeys[txn]? = none) : manager.ProbeAgrees txn keys := by
  cases hconflicts : manager.conflicts txn keys with
  | true =>
    have hprobe : manager.tryAcquire txn keys = (false, manager) := if_pos hconflicts
    refine ⟨fun _ => congrArg Prod.snd hprobe, ?_, ?_⟩
    · rw [hprobe]
      exact fun htaken => absurd htaken Bool.false_ne_true
    · rw [hprobe]
      refine iff_of_false Bool.false_ne_true fun hready => ?_
      exact hready.2 (hidle.wounds hlawful hconflicts hready.1)
  | false =>
    have htaken : (manager.tryAcquire txn keys).1 = true := by
      unfold tryAcquire
      rw [if_neg (Bool.eq_false_iff.mp hconflicts)]
    have hfree := acquire_of_free hpending hconflicts
    refine ⟨?_, fun _ => hfree, iff_of_true htaken ⟨hfree.1, ?_⟩⟩
    · rw [htaken]
      exact fun hrefused => absurd hrefused.symm Bool.false_ne_true
    · exact not_wounds_of_free hlawful hpending hconflicts

/-! ## Who is pending -/

theorem mem_pendingKeys_acquire (hlawful : manager.Lawful) {other : TxnId}
    (hother : other ∈ (manager.acquire txn keys).2.pendingKeys) :
    other = txn ∨ other ∈ manager.pendingKeys := by
  obtain ⟨-, hpending, -⟩ | ⟨-, -, hpending, -⟩ := acquire_resolves hlawful txn keys
  · rw [hpending, KeyedFold.mem_erase_iff] at hother
    exact .inr hother.2
  · rw [hpending, TreeMap.mem_insert, LawfulEqOrd.compare_eq_iff_eq, KeyedFold.mem_erase_iff]
      at hother
    exact hother.imp Eq.symm And.right

theorem mem_pendingKeys_reapExpiredShared {epochThreshold : Nat} {other : TxnId}
    (hother : other ∈ (manager.reapExpiredShared epochThreshold).2.pendingKeys) :
    other ∈ manager.pendingKeys := by
  unfold reapExpiredShared reapOwners at hother
  refine List.foldlRecOn (motive := fun state : List TxnId × LockManager κ =>
    other ∈ state.2.pendingKeys → other ∈ manager.pendingKeys) _ _ id ?_ hother
  intro state hstate owner _ hreleased
  exact hstate (((release_promotes state.2 owner).2.2 other).mp hreleased).1

end LockManager

variable [TransOrd κ] [LawfulEqOrd κ]

/-- Only the scheduler's transactions wait. -/
theorem LockCall.mem_pendingKeys_perform {run : LockRun κ} {call : LockCall κ} {txn : TxnId}
    (hlawful : run.manager.Lawful) (hissued : call.Issued)
    (hprobes : txn.isAutocommit = true) (hpending : txn ∈ (call.perform run).manager.pendingKeys) :
    txn ∈ run.manager.pendingKeys := by
  have hother : ∀ owner : TxnId, owner.isAutocommit = false → txn ≠ owner := by
    rintro owner hscheduled rfl
    exact Bool.false_ne_true (hscheduled.symm.trans hprobes)
  cases call with
  | acquire owner keys =>
    exact (LockManager.mem_pendingKeys_acquire hlawful hpending).resolve_left
      (hother owner hissued)
  | acquireShared owner key =>
    exact (LockManager.mem_pendingKeys_acquire hlawful hpending).resolve_left
      (hother owner hissued)
  | tryAcquire owner keys =>
    obtain hsame | ⟨hkept, -⟩ := LockManager.tryAcquire_resolves hlawful owner keys
    · exact hsame ▸ hpending
    · exact hkept ▸ hpending
  | release owner =>
    exact (((LockManager.release_promotes run.manager owner).2.2 txn).mp hpending).1
  | reapExpiredShared epochThreshold => exact LockManager.mem_pendingKeys_reapExpiredShared hpending

/-- In every state that calls of the scheduler and of the write gate lead to, a
probe of the gate for a transaction that neither holds nor waits agrees with the
acquisition. -/
theorem probe_agrees_of_run (calls : List (LockCall κ)) (hissued : ∀ call ∈ calls, call.Issued)
    (txn : TxnId) (keys : LockRequest κ) (hprobe : (LockCall.tryAcquire txn keys).Issued)
    (hidle : (calls.foldl LockCall.perform LockRun.start).manager.Idle txn) :
    (calls.foldl LockCall.perform LockRun.start).manager.ProbeAgrees txn keys := by
  have hnever := StepRuns.invariant_foldl
    (fun run : LockRun κ => run.manager.Lawful ∧ txn ∉ run.manager.pendingKeys)
    (fun run call hinv hcall => ⟨LockCall.lawful_perform hinv.1 call,
      fun hpending => hinv.2 (LockCall.mem_pendingKeys_perform hinv.1 hcall hprobe hpending)⟩)
    ⟨LockCall.lawful_foldl [], by simp [LockRun.start, LockManager.new]⟩
    (StepRuns.along_of_forall LockCall.perform hissued LockRun.start)
  exact hidle.probeAgrees hnever.1 (TreeMap.getElem?_eq_none hnever.2)

/-- A write joins an intent lock and takes a free key after a blocked reservation
has lost one of its keys to a commit. -/
theorem probe_agrees_with_joined :
    let reader : TxnId := ⟨5, TxnId.reservationPositionBand⟩
    let calls : List (LockCall Nat) :=
      [.acquire ⟨1, 0⟩ (.single 0 .intent), .acquire ⟨4, 0⟩ (.single 2 .exclusive),
        .acquireShared reader 2, .acquireShared reader 3,
        .acquire ⟨4, 1⟩ (.single 3 .exclusive), .release ⟨4, 0⟩]
    let manager := (calls.foldl LockCall.perform LockRun.start).manager
    let keys := (LockRequest.single 0 .intent).insert 1 .exclusive
    (manager.tryAcquire ⟨TxnId.autocommitEpoch, 0⟩ keys).1 = true ∧
      manager.ProbeAgrees ⟨TxnId.autocommitEpoch, 0⟩ keys :=
  ⟨by decide, probe_agrees_of_run _ (by decide) _ _ (by decide) (by decide)⟩

end NodeDB.Calvin
