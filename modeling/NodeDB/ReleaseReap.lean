import NodeDB.SerialOrder

/-!
# What a release and a reap leave behind

Every hold and every wait stands in the records of its owner: among the keys
it holds, or in its pending request with a mode that covers it.  A release
goes by these records, so it reaches all of them, and a reap can tell from
them who holds shared locks only.
-/

namespace NodeDB.Calvin

open Std KeyedFold List Option

variable {κ : Type} [Ord κ]

namespace LockEntry

variable {entry : LockEntry} {txn : TxnId} {held : LockMode}

section Served

variable {gone : TxnId} {taken rest : List (TxnId × LockMode)} {served : LockEntry × List TxnId}
  (hserved : Served (entry.leave gone) (entry.leave gone).waiters taken rest served)
include hserved

theorem Served.names (hnames : served.1.Names txn held) : txn ≠ gone ∧ entry.Names txn held := by
  have hleft : (txn, held) ∈ (entry.leave gone).holders ∨
      (txn, held) ∈ (entry.leave gone).waiters := by
    rw [hserved.split, mem_append]
    obtain hholder | hwaiter := hnames
    · rw [hserved.holders, mem_append] at hholder
      exact hholder.imp_right .inl
    · rw [hserved.waiters] at hwaiter
      exact .inr (.inr hwaiter)
  obtain hholder | hwaiter := hleft
  · rw [show (entry.leave gone).holders = _ from dropHolder_holders entry gone] at hholder
    exact ⟨of_decide_eq_true (mem_filter.mp hholder).2,
      .inl (mem_of_mem_filter hholder)⟩
  · have hkept := mem_filter.mp hwaiter
    rw [dropHolder_waiters] at hkept
    exact ⟨of_decide_eq_true hkept.2, .inr hkept.1⟩

theorem Served.keeps (hne : txn ≠ gone) (hholder : (txn, held) ∈ entry.holders) :
    (txn, held) ∈ served.1.holders := by
  rw [hserved.holders, show (entry.leave gone).holders = _ from dropHolder_holders entry gone]
  exact mem_append_left _ (mem_filter.mpr ⟨hholder, decide_eq_true hne⟩)

end Served

end LockEntry

namespace LockManager

def HoldsIn (manager : LockManager κ) (txn : TxnId) (key : κ) (mode : LockMode) : Prop :=
  ∃ entry, manager.table[key]? = some entry ∧ (txn, mode) ∈ entry.holders

def Lists (manager : LockManager κ) (txn : TxnId) (key : κ) : Prop :=
  ∃ keys, manager.heldLocks[txn]? = some keys ∧ key ∈ keys

/-- The records of the transaction account for a key in this mode. -/
def Covered (manager : LockManager κ) (txn : TxnId) (key : κ) (mode : LockMode) : Prop :=
  manager.Lists txn key ∨ ∃ request asked, manager.pendingKeys[txn]? = some request ∧
    request[key]? = some asked ∧ asked.Covers mode

def Known (manager : LockManager κ) (txn : TxnId) : Prop :=
  txn ∈ manager.heldLocks ∨ txn ∈ manager.pendingKeys

/-- Nothing is left of the transaction. -/
structure Gone (manager : LockManager κ) (txn : TxnId) : Prop where
  nowhere : ∀ key, ¬ manager.Has txn key
  unknown : ¬ manager.Known txn

/-- A pending transaction came to hold its whole request. -/
def Moved (before after : LockManager κ) (txn : TxnId) : Prop :=
  ∃ request, before.pendingKeys[txn]? = some request ∧ after.pendingKeys[txn]? = none ∧
    after.HoldsAll txn request ∧ txn ∈ after.heldLocks

/-- An owner of a reservation from before the threshold that holds and
requests nothing but shared locks. -/
structure Expired (manager : LockManager κ) (epochThreshold : Nat) (owner : TxnId) : Prop where
  reservation : owner.isReservation = true
  old : owner.epoch < epochThreshold
  known : manager.Known owner
  held : ∀ key mode, manager.HoldsIn owner key mode → mode = .shared
  requested : ∀ request ∈ manager.pendingKeys[owner]?, ∀ item ∈ request.toList, item.2 = .shared

end LockManager

open LockManager

/-- Every hold and every wait stands in the records of its owner. -/
structure Recorded (manager : LockManager κ) : Prop where
  lawful : manager.Lawful
  covered : ∀ txn key mode, manager.Names txn key mode → manager.Covered txn key mode

variable [TransOrd κ] [LawfulEqOrd κ]

namespace LockManager

variable {before after : LockManager κ} {txn other : TxnId} {request : LockRequest κ}
  {key : κ} {mode : LockMode}

/-! ## Records -/

theorem lists_finishReady (hheld : after.heldLocks = (before.finishReady txn request).heldLocks) :
    after.Lists other key ↔ before.Lists other key ∨ (other = txn ∧ key ∈ request) := by
  unfold Lists
  rw [hheld]
  exact heldLocks_finishReady before txn request other key

omit [TransOrd κ] [LawfulEqOrd κ] in
theorem mem_heldLocks_finishReady
    (hheld : after.heldLocks = (before.finishReady txn request).heldLocks) :
    other ∈ after.heldLocks ↔ other = txn ∨ other ∈ before.heldLocks := by
  rw [hheld, finishReady, mem_iff_exists, mem_iff_exists]
  by_cases heq : other = txn
  · subst heq
    simp
  · rw [getElem?_alter_ne _ heq]
    simp [heq]

/-- The merged request covers what the pending one asked for. -/
theorem fullRequest_covers (keys : LockRequest κ) {pending : LockRequest κ} {asked : LockMode}
    (hpending : before.pendingKeys[txn]? = some pending) (hasked : pending[key]? = some asked) :
    ∃ merged, (before.fullRequest txn keys)[key]? = some merged ∧ merged.Covers asked := by
  unfold fullRequest
  rw [mergeRequest_getElem?, hpending, getD_some, hasked]
  cases keys[key]? with
  | none => exact ⟨asked, rfl, asked.covers_refl⟩
  | some mode => exact ⟨asked.merge mode, rfl, asked.merge_covers_left mode⟩

end LockManager

namespace Recorded

open LockManager

variable {manager after : LockManager κ} {txn other : TxnId} {keys request : LockRequest κ}
  {conflict : LockEntry → LockMode → LockEntry → Prop} {key : κ} {mode : LockMode}

section

variable (hrecorded : Recorded manager)
include hrecorded

/-- A request granted in full lists all its keys. -/
theorem ready (hlawful : after.Lawful)
    (hheld : after.heldLocks = (manager.finishReady txn request).heldLocks)
    (hresolves : Resolves manager after txn request conflict)
    (hconflict : ∀ other mode entry asked entry', conflict entry asked entry' →
      entry'.Names other mode → entry.Names other mode ∨
        (other = txn ∧ LockEntry.Raised (some entry) txn asked mode))
    (hpending : ∀ other pending key, manager.pendingKeys[other]? = some pending → key ∈ pending →
      after.pendingKeys[other]? = some pending ∨ (other = txn ∧ key ∈ request)) :
    Recorded after := by
  refine ⟨hlawful, fun other key mode hnames => ?_⟩
  unfold Covered
  rw [lists_finishReady hheld]
  obtain hbefore | ⟨heq, asked, hasked, -⟩ := hresolves.names hnames
    fun entry asked entry' _ => hconflict other mode entry asked entry'
  · obtain hlists | ⟨pending, asked, hasks, hasked, hcovers⟩ :=
      hrecorded.covered other key mode hbefore
    · exact .inl (.inl hlists)
    · obtain hstill | hgranted := hpending other pending key hasks
        (mem_of_getElem? hasked)
      · exact .inr ⟨pending, asked, hstill, hasked, hcovers⟩
      · exact .inl (.inr hgranted)
  · exact .inl (.inr ⟨heq, mem_of_getElem? hasked⟩)

/-- What the transaction is named with and does not list, a merged request
covers. -/
theorem covers_named (hnames : manager.Names txn key mode) :
    manager.Lists txn key ∨ ∃ merged, (manager.fullRequest txn keys)[key]? = some merged ∧
      merged.Covers mode := by
  obtain hlists | ⟨pending, asked, hpending, hasked, hcovers⟩ :=
    hrecorded.covered txn key mode hnames
  · exact .inl hlists
  · obtain ⟨merged, hmerged, hmore⟩ := fullRequest_covers keys hpending hasked
    exact .inr ⟨merged, hmerged, hmore.trans hcovers⟩

theorem acquire (txn : TxnId) (keys : LockRequest κ) : Recorded (manager.acquire txn keys).2 := by
  have hlawful := hrecorded.lawful.acquire txn keys
  obtain ⟨-, hpending, hheld, hresolves⟩ | ⟨-, -, hpending, hheld, hresolves, -⟩ :=
    acquire_resolves hrecorded.lawful txn keys
  · refine hrecorded.ready hlawful hheld hresolves ?_ ?_
    · rintro other mode entry asked entry' ⟨-, hwounded⟩ hnames
      exact .inr (hwounded.names hnames)
    · intro other pending key hother hkey
      rw [hpending]
      by_cases heq : other = txn
      · subst heq
        exact .inr ⟨rfl, mem_fullRequest manager other keys hother hkey⟩
      · exact .inl ((getElem?_erase_ne _ heq).trans hother)
  · refine ⟨hlawful, fun other key mode hnames => ?_⟩
    unfold Covered LockManager.Lists
    rw [hpending, hheld]
    by_cases heq : other = txn
    · subst heq
      rw [TreeMap.getElem?_insert_self]
      have hnamed : ∀ mode, manager.Names other key mode → manager.Lists other key ∨
          ∃ merged, (manager.fullRequest other keys)[key]? = some merged ∧ merged.Covers mode :=
        fun _ hbefore => hrecorded.covers_named hbefore
      suffices hcovered : manager.Lists other key ∨
          ∃ merged, (manager.fullRequest other keys)[key]? = some merged ∧ merged.Covers mode by
        obtain hlists | ⟨merged, hmerged, hcovers⟩ := hcovered
        · exact .inl hlists
        · exact .inr ⟨_, merged, rfl, hmerged, hcovers⟩
      obtain hbefore | ⟨-, asked, hasked, rfl | ⟨entry, own, hentry, hown, rfl⟩⟩ :=
        hresolves.names hnames fun _ _ _ _ hqueued hin => hqueued.names hin
      · exact hnamed mode hbefore
      · exact .inr ⟨mode, hasked, mode.covers_refl⟩
      · obtain hlists | ⟨merged, hmerged, hcovers⟩ := hnamed own ⟨entry, hentry, hown⟩
        · exact .inl hlists
        · obtain rfl := some.inj (hmerged.symm.trans hasked)
          exact .inr ⟨merged, hmerged, hcovers.merge merged.covers_refl⟩
    · rw [getElem?_insert_ne _ heq, getElem?_erase_ne _ heq]
      have hbefore := hresolves.names hnames fun _ _ _ _ hqueued hin => hqueued.names hin
      exact hrecorded.covered other key mode (hbefore.resolve_right fun hown => heq hown.1)

theorem tryAcquire (txn : TxnId) (keys : LockRequest κ) :
    Recorded (manager.tryAcquire txn keys).2 := by
  obtain hsame | ⟨hpending, hheld, hresolves⟩ :=
    tryAcquire_resolves hrecorded.lawful txn keys
  · rw [hsame]
    exact hrecorded
  · refine hrecorded.ready (hrecorded.lawful.tryAcquire txn keys) hheld hresolves
      (fun _ _ _ _ _ hfalse _ => hfalse.elim) ?_
    intro other pending key hother _
    rw [hpending]
    exact .inl hother

end

end Recorded

/-! ## A release, key by key -/

/-- What holds while `gone` leaves its keys, of which `rest` are still to be
visited.  `start` is the manager without its records. -/
structure Freeing (start : LockManager κ) (gone : TxnId) (rest : List κ)
    (state : LockManager κ × TreeSet TxnId) : Prop where
  lawful : state.1.Lawful
  covered : ∀ txn key mode, state.1.Names txn key mode →
    state.1.Covered txn key mode ∨ (txn = gone ∧ key ∈ rest)
  keeps : ∀ txn key mode, txn ≠ gone → start.HoldsIn txn key mode → state.1.HoldsIn txn key mode
  held : ∀ txn, txn ∈ state.1.heldLocks ↔ txn ∈ start.heldLocks ∨ txn ∈ state.2

namespace Freeing

open LockManager

variable {start : LockManager κ} {gone : TxnId} {rest : List κ}
  {state : LockManager κ × TreeSet TxnId}

theorem afterCheck (hfreeing : Freeing start gone rest state) (next : TxnId) :
    Freeing start gone rest (checkReady state next) := by
  obtain ⟨hsame, -⟩ | ⟨granted, hgranted, -, htable, herased, hheld, hpromoted⟩ :=
    checkReady_cases state next
  · rw [hsame]
    exact hfreeing
  refine ⟨?_, ?_, ?_, ?_⟩
  · unfold Lawful
    rw [htable]
    exact hfreeing.lawful
  · unfold Names Covered
    rw [htable]
    intro txn key mode hnames
    rw [lists_finishReady hheld]
    refine (hfreeing.covered txn key mode hnames).imp_left ?_
    rintro (hlisted | ⟨request, asked, hrequest, hasked, hcovers⟩)
    · exact .inl (.inl hlisted)
    · by_cases heq : txn = next
      · subst heq
        obtain rfl := some.inj (hgranted.symm.trans hrequest)
        exact .inl (.inr ⟨rfl, mem_of_getElem? hasked⟩)
      · rw [herased, getElem?_erase_ne _ heq]
        exact .inr ⟨request, asked, hrequest, hasked, hcovers⟩
  · unfold HoldsIn
    rw [htable]
    exact hfreeing.keeps
  · intro txn
    rw [mem_heldLocks_finishReady hheld, hpromoted, mem_set_insert_iff, hfreeing.held]
    exact or_left_comm

theorem afterKey {key : κ} (hfreeing : Freeing start gone (key :: rest) state) :
    Freeing start gone rest (releaseKey gone state key) := by
  cases hentry : state.1.table[key]? with
  | none =>
    rw [releaseKey_none hentry]
    refine { hfreeing with covered := fun txn place mode hnames => ?_ }
    refine (hfreeing.covered txn place mode hnames).imp_right (Accounted.leaving_rest ?_)
    rintro ⟨-, rfl⟩
    obtain ⟨entry, hfound, -⟩ := hnames
    cases hentry.symm.trans hfound
  | some entry =>
    have hlawful := (hfreeing.lawful.releaseKey (fun _ _ _ => trivial)
      keptByService_true gone key).1
    obtain ⟨table, taken, left, served, hreleases, heq⟩ :=
      releaseKey_served gone hentry (hfreeing.lawful key entry hentry).1
    rw [heq] at hlawful ⊢
    have hserve : Freeing start gone rest ({ state.1 with table := table }, state.2) := by
      refine ⟨?_, ?_, ?_, hfreeing.held⟩
      · unfold Lawful at hlawful
        rw [foldl_checkReady_table] at hlawful
        exact hlawful
      · intro txn place mode hnames
        obtain ⟨hbefore, hnot⟩ := of_released hreleases hreleases.serves.names hnames
        exact (hfreeing.covered txn place mode hbefore).imp_right (Accounted.leaving_rest hnot)
      · intro txn place mode hne hholds
        refine released_of hreleases (fun _ hin => hreleases.serves.keeps hne hin)
          (fun hempty _ => ?_) (hfreeing.keeps txn place mode hne hholds)
        rw [hempty]
        exact not_mem_nil
    exact List.foldlRecOn _ _ hserve fun _ hstate next _ => hstate.afterCheck next

end Freeing

/-- A release as a whole. -/
structure Released (manager : LockManager κ) (gone : TxnId) (promoted : List TxnId)
    (after : LockManager κ) : Prop where
  recorded : Recorded after
  has_iff : ∀ txn key, after.Has txn key ↔ txn ≠ gone ∧ manager.Has txn key
  keeps : ∀ txn key mode, txn ≠ gone → manager.HoldsIn txn key mode → after.HoldsIn txn key mode
  held : ∀ txn, txn ∈ after.heldLocks ↔
    (txn ≠ gone ∧ txn ∈ manager.heldLocks) ∨ txn ∈ promoted
  blocked : ∀ txn ∈ promoted, txn ≠ gone ∧ txn ∈ manager.pendingKeys
  pending : ∀ txn, txn ∈ after.pendingKeys ↔
    txn ∈ manager.pendingKeys ∧ txn ≠ gone ∧ txn ∉ promoted

namespace Recorded

open LockManager

variable {manager : LockManager κ}

omit [LawfulEqOrd κ] in
theorem records (hrecorded : Recorded manager) {txn : TxnId} {key : κ}
    (hhas : manager.Has txn key) : manager.Records txn key := by
  obtain ⟨mode, hnames⟩ : ∃ mode, manager.Names txn key mode := by
    obtain ⟨entry, hentry, ⟨mode, hin⟩ | ⟨mode, hin⟩⟩ := hhas
    · exact ⟨mode, entry, hentry, .inl hin⟩
    · exact ⟨mode, entry, hentry, .inr hin⟩
  refine (hrecorded.covered txn key mode hnames).imp_right ?_
  rintro ⟨request, asked, hrequest, hasked, -⟩
  exact ⟨request, hrequest, mem_of_getElem? hasked⟩

theorem release (hrecorded : Recorded manager) (gone : TxnId) :
    Released manager gone (manager.release gone).1 (manager.release gone).2 := by
  let start := { manager with
    heldLocks := manager.heldLocks.erase gone
    pendingKeys := manager.pendingKeys.erase gone }
  have hstart : Freeing start gone (manager.releaseKeys gone).toList (start, ∅) := by
    refine ⟨hrecorded.lawful, fun txn key mode hnames => ?_, fun _ _ _ _ => id, by simp⟩
    by_cases heq : txn = gone
    · subst heq
      obtain ⟨entry, hentry, hin⟩ := hnames
      exact .inr ⟨rfl, (manager.mem_releaseKeys txn key).mpr
        (hrecorded.records ⟨entry, hentry, hin.has⟩)⟩
    · left
      unfold Covered LockManager.Lists
      rw [getElem?_erase_ne _ heq, getElem?_erase_ne _ heq]
      exact hrecorded.covered txn key mode hnames
  have hfinal : ∀ (keys : List κ) (state : LockManager κ × TreeSet TxnId),
      Freeing start gone keys state →
        Freeing start gone [] (keys.foldl (releaseKey gone) state) := by
    intro keys
    induction keys with
    | nil => exact fun _ hstate => hstate
    | cons key rest ih => exact fun _ hstate => ih _ hstate.afterKey
  have hfreeing := hfinal _ _ hstart
  obtain ⟨-, hblocked, hpending⟩ := manager.release_promotes gone
  refine ⟨⟨hfreeing.lawful, fun txn key mode hnames => ?_⟩, ?_, hfreeing.keeps, fun txn => ?_,
    hblocked, hpending⟩
  · exact (hfreeing.covered txn key mode hnames).resolve_right fun hleft => by cases hleft.2
  · exact has_release_iff hrecorded.lawful fun key => hrecorded.records
  · exact (hfreeing.held txn).trans (or_congr mem_erase_iff TreeSet.mem_toList.symm)

end Recorded

namespace Released

variable {manager after : LockManager κ} {gone txn : TxnId} {promoted : List TxnId}
  (hreleased : Released manager gone promoted after)
include hreleased

omit [TransOrd κ] [LawfulEqOrd κ]

theorem leaves (hleft : txn = gone ∨ manager.Gone txn) : after.Gone txn := by
  refine ⟨fun key hhas => ?_, ?_⟩
  · obtain ⟨hne, hbefore⟩ := (hreleased.has_iff txn key).mp hhas
    exact (hleft.resolve_left hne).nowhere key hbefore
  · have hunknown : txn ≠ gone → ¬ manager.Known txn := fun hne => (hleft.resolve_left hne).unknown
    rintro (hin | hin)
    · obtain ⟨hne, hbefore⟩ | hpromoted := (hreleased.held txn).mp hin
      · exact hunknown hne (.inl hbefore)
      · obtain ⟨hne, hbefore⟩ := hreleased.blocked txn hpromoted
        exact hunknown hne (.inr hbefore)
    · obtain ⟨hbefore, hne, -⟩ := (hreleased.pending txn).mp hin
      exact hunknown hne (.inr hbefore)

theorem known (hne : txn ≠ gone) (hbefore : manager.Known txn) : after.Known txn := by
  obtain hheld | hpending := hbefore
  · exact .inl ((hreleased.held txn).mpr (.inl ⟨hne, hheld⟩))
  · by_cases hin : txn ∈ promoted
    · exact .inl ((hreleased.held txn).mpr (.inr hin))
    · exact .inr ((hreleased.pending txn).mpr ⟨hpending, hne, hin⟩)

end Released

namespace LockManager

variable {manager : LockManager κ}

variable {latest : TreeMap TxnId (LockRequest κ)} {before : LockManager κ} {done : List TxnId}

/-- A release promotes whoever came to hold its whole request. -/
theorem promoted_iff (hrecorded : Recorded manager) (hsound : Sound latest manager)
    (gone txn : TxnId) :
    txn ∈ (manager.release gone).1 ↔ Moved manager (manager.release gone).2 txn := by
  have hreleased := hrecorded.release gone
  constructor
  · intro hin
    obtain ⟨-, -, hgranted⟩ :=
      releasing_release (fun _ _ => False) [] gone hsound (by simp) (by simp)
    obtain ⟨needed, hlatest, hholds⟩ := hgranted txn (.inr hin)
    obtain ⟨-, hblocked⟩ := hreleased.blocked txn hin
    obtain ⟨request, hrequest⟩ := (mem_iff_exists _ _).mp hblocked
    refine ⟨request, hrequest, ?_, ?_, (hreleased.held txn).mpr (.inr hin)⟩
    · exact TreeMap.getElem?_eq_none fun hstill => ((hreleased.pending txn).mp hstill).2.2 hin
    · obtain ⟨-, found, hfound, hawaits⟩ := hsound.pending txn request hrequest
      obtain rfl := some.inj (hfound.symm.trans hlatest)
      -- the modes a request needs cover the ones it asks for
      rintro ⟨key, asked⟩ hitem
      obtain ⟨mode, hneeded, hmode, -⟩ :=
        hawaits.covered key asked (TreeMap.mem_toList_iff_getElem?_eq_some.mp hitem)
      obtain ⟨entry, hentry, held, hheld, hcovers⟩ :=
        hholds (key, mode) (TreeMap.mem_toList_iff_getElem?_eq_some.mpr hneeded)
      exact ⟨entry, hentry, held, hheld, hcovers.trans hmode⟩
  · rintro ⟨request, hrequest, hnone, -, hheld⟩
    obtain ⟨hne, -⟩ | hin := (hreleased.held txn).mp hheld
    · by_contra hnot
      have hstill := (hreleased.pending txn).mpr
        ⟨mem_of_getElem? hrequest, hne, hnot⟩
      obtain ⟨found, hfound⟩ := (mem_iff_exists _ _).mp hstill
      cases hnone.symm.trans hfound
    · exact hin

/-! ## Reaping -/

/-- The owners in `done` are gone, and nobody else lost a hold. -/
structure Reaped (before : LockManager κ) (done : List TxnId) (manager : LockManager κ) :
    Prop where
  recorded : Recorded manager
  gone : ∀ owner ∈ done, manager.Gone owner
  keeps : ∀ owner, owner ∉ done →
    (∀ key mode, before.HoldsIn owner key mode → manager.HoldsIn owner key mode) ∧
      (before.Known owner → manager.Known owner)

theorem Reaped.release (hreaped : Reaped before done manager) (owner : TxnId) :
    Reaped before (done ++ [owner]) (manager.release owner).2 := by
  have hreleased := hreaped.recorded.release owner
  refine ⟨hreleased.recorded, fun other hother => ?_, fun other hother => ?_⟩
  · rw [mem_append, mem_singleton] at hother
    exact hreleased.leaves (hother.symm.imp_right (hreaped.gone other))
  · rw [mem_append, mem_singleton, not_or] at hother
    obtain ⟨hholds, hknown⟩ := hreaped.keeps other hother.1
    exact ⟨fun key mode hin => hreleased.keeps other key mode hother.2 (hholds key mode hin),
      fun hbefore => hreleased.known hother.2 (hknown hbefore)⟩

theorem reaped_reapOwners (owners : List TxnId) (state : List TxnId × LockManager κ)
    (hreaped : Reaped before done state.2) :
    Reaped before (done ++ owners) (reapOwners owners state).2 := by
  induction owners generalizing done state with
  | nil => rwa [append_nil]
  | cons owner rest ih =>
    have hnext := ih (state.1 ++ (state.2.release owner).1, (state.2.release owner).2)
      (hreaped.release owner)
    rwa [append_assoc] at hnext

theorem reaped_reapExpiredShared (hrecorded : Recorded manager) (epochThreshold : Nat) :
    Reaped manager (manager.expiredShared epochThreshold)
      (manager.reapExpiredShared epochThreshold).2 := by
  have hstart : Reaped manager [] manager :=
    ⟨hrecorded, by simp, fun _ _ => ⟨fun _ _ => id, id⟩⟩
  exact reaped_reapOwners (manager.expiredShared epochThreshold) ([], manager) hstart

theorem holdsOnlyShared_iff (hrecorded : Recorded manager) (hsound : Sound latest manager)
    (owner : TxnId) :
    manager.holdsOnlyShared owner = true ↔
      (∀ key mode, manager.HoldsIn owner key mode → mode = .shared) ∧
        ∀ request ∈ manager.pendingKeys[owner]?, ∀ item ∈ request.toList, item.2 = .shared := by
  unfold holdsOnlyShared
  rw [Bool.and_eq_true]
  constructor
  · rintro ⟨hlisted, hwaits⟩
    have hrequested : ∀ request ∈ manager.pendingKeys[owner]?, ∀ item ∈ request.toList,
        item.2 = .shared := by
      intro request hrequest item hitem
      rw [mem_def.mp hrequest] at hwaits
      exact of_decide_eq_true (all_eq_true.mp hwaits item hitem)
    refine ⟨?_, hrequested⟩
    rintro key mode ⟨entry, hentry, hholder⟩
    have hmode : entry.modeOf owner = some mode :=
      (hrecorded.lawful key entry hentry).1.modeOf_eq.mpr hholder
    obtain ⟨keys, hkeys, hkey⟩ | ⟨request, asked, hrequest, hasked, hcovers⟩ :=
      hrecorded.covered owner key mode ⟨entry, hentry, .inl hholder⟩
    · rw [hkeys] at hlisted
      have hshared := all_eq_true.mp hlisted key (TreeSet.mem_toList.mpr hkey)
      rw [hentry, bind_some, hmode] at hshared
      exact of_decide_eq_true hshared
    · -- a key of a blocked request is held in a mode that covers the requested one
      obtain ⟨-, needed, -, hawaits⟩ := hsound.pending owner request hrequest
      obtain ⟨need, -, hneed, hentries⟩ := hawaits.covered key asked hasked
      have hheld := ((hentries entry hentry).held mode hmode).trans hneed
      obtain rfl : asked = .shared := hrequested request hrequest (key, asked)
        (TreeMap.mem_toList_iff_getElem?_eq_some.mpr hasked)
      revert hheld hcovers
      cases mode <;> decide
  · rintro ⟨hheld, hrequested⟩
    constructor
    · cases hkeys : manager.heldLocks[owner]? with
      | none => rfl
      | some keys =>
        refine all_eq_true.mpr fun key hkey => ?_
        cases hmode : (manager.table[key]?).bind fun entry => entry.modeOf owner with
        | none => rfl
        | some mode =>
          obtain ⟨entry, hentry, hown⟩ := bind_eq_some_iff.mp hmode
          exact decide_eq_true
            (hheld key mode ⟨entry, hentry, LockEntry.mem_holders_of_modeOf hown⟩)
    · cases hrequest : manager.pendingKeys[owner]? with
      | none => rfl
      | some request =>
        refine all_eq_true.mpr fun item hitem => ?_
        exact decide_eq_true (hrequested request hrequest item hitem)

theorem mem_expiredShared_iff (hrecorded : Recorded manager) (hsound : Sound latest manager)
    (epochThreshold : Nat) (owner : TxnId) :
    owner ∈ manager.expiredShared epochThreshold ↔ manager.Expired epochThreshold owner := by
  unfold expiredShared
  rw [mem_filter, TreeSet.mem_toList, mem_foldl_insert, mem_filter,
    mem_append, TreeMap.mem_keys, TreeMap.mem_keys, Bool.and_eq_true, decide_eq_true_eq,
    holdsOnlyShared_iff hrecorded hsound]
  constructor
  · rintro ⟨(⟨hknown, hreservation, hold⟩ | hnone), hheld, hrequested⟩
    · exact ⟨hreservation, hold, hknown, hheld, hrequested⟩
    · exact absurd hnone TreeSet.not_mem_emptyc
  · intro hexpired
    exact ⟨.inl ⟨hexpired.known, hexpired.reservation, hexpired.old⟩, hexpired.held,
      hexpired.requested⟩

end LockManager

/-! ## Runs -/

namespace LockCall

/-- An acquire names a key its owner already waits on only in a mode the
queued one covers. -/
def Covering (run : LockRun κ) : LockCall κ → Prop
  | acquire txn keys => run.manager.WaitsCover txn keys
  | acquireShared txn key => run.manager.WaitsCover txn (.single key .shared)
  | tryAcquire _ _ => True
  | release _ => True
  | reapExpiredShared _ => True

instance (run : LockRun κ) (call : LockCall κ) : Decidable (call.Covering run) :=
  match call with
  | acquire txn keys => inferInstanceAs (Decidable (run.manager.WaitsCover txn keys))
  | acquireShared txn _ => inferInstanceAs (Decidable (run.manager.WaitsCover txn _))
  | tryAcquire .. | release _ | reapExpiredShared _ => isTrue trivial

variable {run : LockRun κ}

theorem recorded_perform (hrecorded : Recorded run.manager) (call : LockCall κ) :
    Recorded (call.perform run).manager := by
  cases call with
  | acquire txn keys => exact hrecorded.acquire txn keys
  | acquireShared txn key => exact hrecorded.acquire txn (.single key .shared)
  | tryAcquire txn keys => exact hrecorded.tryAcquire txn keys
  | release txn => exact (hrecorded.release txn).recorded
  | reapExpiredShared epochThreshold =>
    exact (reaped_reapExpiredShared hrecorded epochThreshold).recorded

theorem sound_perform_of_covering {call : LockCall κ} (hsound : Sound run.latest run.manager)
    (hissued : call.Issued) (hcovering : call.Covering run) :
    Sound (call.perform run).latest (call.perform run).manager := by
  cases call with
  | acquire txn keys | acquireShared txn key => exact (hsound.acquire hissued hcovering).1
  | tryAcquire txn keys => exact hsound.tryAcquire hissued keys
  | release txn =>
    exact (releasing_release (fun _ _ => False) [] txn hsound (by simp) (by simp)).1
  | reapExpiredShared epochThreshold =>
    refine List.foldlRecOn (motive := fun state : List TxnId × LockManager κ =>
      Sound run.latest state.2) _ _ hsound ?_
    intro state hstate owner _
    exact (releasing_release (fun _ _ => False) [] owner hstate (by simp) (by simp)).1

end LockCall

omit [LawfulEqOrd κ] in
theorem recorded_start : Recorded (LockRun.start : LockRun κ).manager := by
  constructor <;> simp [LockRun.start, new, LockManager.Lawful, LockManager.Names]

/-- In every run whose acquires are covered by the waits of their owner, a
release leaves nothing of its transaction and promotes whoever came to hold
its whole request, and a reap takes the expired owners of shared locks and
nobody else. -/
theorem released_of_run (calls : List (LockCall κ)) (hissued : ∀ call ∈ calls, call.Issued)
    (hrun : StepRuns.Along LockCall.perform LockCall.Covering LockRun.start calls) :
    let manager := (calls.foldl LockCall.perform LockRun.start).manager
    (∀ gone, (manager.release gone).2.Gone gone ∧
      ∀ txn, txn ∈ (manager.release gone).1 ↔
        LockManager.Moved manager (manager.release gone).2 txn) ∧
      ∀ epochThreshold owner,
        let reaped := (manager.reapExpiredShared epochThreshold).2
        (manager.Expired epochThreshold owner → reaped.Gone owner) ∧
          (¬ manager.Expired epochThreshold owner →
            (∀ key mode, manager.HoldsIn owner key mode → reaped.HoldsIn owner key mode) ∧
              (manager.Known owner → reaped.Known owner)) := by
  intro manager
  have hboth : StepRuns.Along LockCall.perform
      (fun run call => LockCall.Issued call ∧ LockCall.Covering run call)
      LockRun.start calls := hrun.and_of_forall hissued
  obtain ⟨hrecorded, hsound⟩ := StepRuns.invariant_foldl
    (fun run : LockRun κ => Recorded run.manager ∧ Sound run.latest run.manager)
    (fun run call hinv hok => ⟨LockCall.recorded_perform hinv.1 call,
      LockCall.sound_perform_of_covering hinv.2 hok.1 hok.2⟩)
    ⟨recorded_start, sound_start⟩ hboth
  refine ⟨fun gone => ⟨(hrecorded.release gone).leaves (.inl rfl),
    promoted_iff hrecorded hsound gone⟩, fun epochThreshold owner => ?_⟩
  have hreaped := reaped_reapExpiredShared hrecorded epochThreshold
  have hmem := mem_expiredShared_iff hrecorded hsound epochThreshold owner
  exact ⟨fun hexpired => hreaped.gone owner (hmem.mpr hexpired),
    fun hexpired => hreaped.keeps owner fun hin => hexpired (hmem.mp hin)⟩

/-- A reservation owner waits for a row, a second one holds another: the
release of the row's writer promotes the first, and a reap takes the second. -/
theorem released_of_run_reservation :
    let owner : TxnId := ⟨1, TxnId.reservationPositionBand⟩
    let reader : TxnId := ⟨0, TxnId.reservationPositionBand⟩
    let calls : List (LockCall Nat) :=
      [.acquire ⟨1, 0⟩ (.single 0 .exclusive), .acquireShared owner 0, .acquireShared reader 1]
    let manager := (calls.foldl LockCall.perform LockRun.start).manager
    owner ∈ (manager.release ⟨1, 0⟩).1 ∧
      LockManager.Moved manager (manager.release ⟨1, 0⟩).2 owner ∧
      manager.expiredShared 1 = [reader] := by
  refine ⟨by decide, ?_, by decide⟩
  exact ((released_of_run _ (by decide) (by decide)).1 _).2 _ |>.mp (by decide)

/-- A reservation owner waits for a shared lock, then asks for an exclusive
one: the release promotes it with the shared lock alone.  Another owner waits
to read a table by rows and then to read all of it: it holds the table by rows
only, and a reap takes it with the shared owners. -/
theorem promoted_with_stale_wait :
    let owner : TxnId := ⟨1, TxnId.reservationPositionBand⟩
    let calls : List (LockCall Nat) :=
      [.acquire ⟨1, 0⟩ (.single 0 .exclusive), .acquireShared owner 0,
        .acquire owner (.single 0 .exclusive)]
    let reaping : List (LockCall Nat) :=
      [.acquire ⟨1, 0⟩ (.single 0 .exclusive), .acquire ⟨1, 1⟩ (.single 1 .exclusive),
        .acquire owner (.single 0 .intentShared), .acquireShared owner 0,
        .acquireShared owner 1, .release ⟨1, 0⟩]
    let manager := (calls.foldl LockCall.perform LockRun.start).manager
    let reaped := (reaping.foldl LockCall.perform LockRun.start).manager
    ((∀ call ∈ calls, call.Issued) ∧ owner ∈ (manager.release ⟨1, 0⟩).1 ∧
        ¬ LockManager.Moved manager (manager.release ⟨1, 0⟩).2 owner) ∧
      (∀ call ∈ reaping, call.Issued) ∧ reaped.HoldsIn owner 0 .intentShared ∧
        ¬ (reaped.reapExpiredShared 2).2.Known owner := by
  intro owner calls reaping manager reaped
  refine ⟨⟨by decide, by decide, ?_⟩, by decide, ?_, ?_⟩
  · have hlacks : ∀ request ∈ manager.pendingKeys[owner]?,
        ¬ (manager.release ⟨1, 0⟩).2.HoldsAll owner request := by decide
    rintro ⟨request, hrequest, -, hholds, -⟩
    exact hlacks request hrequest hholds
  · have hholds : ∃ entry ∈ reaped.table[0]?, (owner, LockMode.intentShared) ∈ entry.holders := by
      decide
    exact hholds
  · unfold LockManager.Known
    decide

end NodeDB.Calvin
