import NodeDB.LockOrder

/-!
# The serial order of plain transactions

Transactions ask for their locks once each, in ascending order, and release
them in any order after they got them all.  Two transactions that exclude each
other on a key then become ready in transaction order, and the later one only
after the earlier one released.  Nobody is left waiting once all that are
ready have released.
-/

namespace NodeDB.Calvin

open Std KeyedFold TxnId

variable {κ : Type} [Ord κ]

/-! ## Runs of plain transactions -/

inductive LockEvent where
  | ready (txn : TxnId)
  | released (txn : TxnId)
  deriving DecidableEq, Repr

inductive SerialCall (κ : Type) [Ord κ] where
  | acquire (txn : TxnId) (keys : LockRequest κ)
  | release (txn : TxnId)

/-- The manager, the request of every transaction that asked so far, and what
happened, in order. -/
structure SerialRun (κ : Type) [Ord κ] where
  manager : LockManager κ
  requests : TreeMap TxnId (LockRequest κ)
  events : List LockEvent

def SerialRun.start : SerialRun κ :=
  { manager := .new, requests := ∅, events := [] }

namespace SerialCall

def perform (run : SerialRun κ) : SerialCall κ → SerialRun κ
  | acquire txn keys =>
    let acquired := run.manager.acquire txn keys
    { manager := acquired.2
      requests := run.requests.insert txn keys
      events := run.events ++
        match acquired.1 with
        | .ready => [.ready txn]
        | .blocked => [] }
  | release txn =>
    let released := run.manager.release txn
    { run with
      manager := released.2
      events := run.events ++ .released txn :: released.1.map .ready }

/-- Transactions ask in ascending order and under no reservation; whoever
releases is ready and has not released yet. -/
def InSequence (run : SerialRun κ) : SerialCall κ → Prop
  | acquire txn _ => txn.isReservation = false ∧ ∀ earlier ∈ run.requests.keys, earlier < txn
  | release txn => .ready txn ∈ run.events ∧ .released txn ∉ run.events

instance (run : SerialRun κ) (call : SerialCall κ) : Decidable (InSequence run call) := by
  cases call <;> dsimp only [InSequence] <;> infer_instance

end SerialCall

variable [TransOrd κ] [LawfulEqOrd κ]

namespace LockManager

variable {manager : LockManager κ} {state : LockManager κ × TreeSet TxnId}
  {blocked : TreeMap TxnId (LockRequest κ)}

theorem fullRequest_of_new {txn : TxnId} (hnone : manager.pendingKeys[txn]? = none)
    (keys : LockRequest κ) (key : κ) : (manager.fullRequest txn keys)[key]? = keys[key]? := by
  unfold fullRequest
  rw [mergeRequest_getElem?, hnone]
  cases keys[key]? <;> simp [addMode]

/-! ## Who a release leaves on the keys -/

theorem has_releaseKey_iff (hlawful : state.1.Lawful) (gone : TxnId) (key : κ) (txn : TxnId)
    (place : κ) :
    (releaseKey gone state key).1.Has txn place ↔
      state.1.Has txn place ∧ ¬ (txn = gone ∧ place = key) := by
  cases hentry : state.1.table[key]? with
  | none =>
    rw [releaseKey_none hentry]
    refine ⟨fun hhas => ⟨hhas, ?_⟩, And.left⟩
    rintro ⟨-, rfl⟩
    obtain ⟨entry, hfound, -⟩ := hhas
    cases hentry.symm.trans hfound
  | some entry =>
    obtain ⟨table, taken, rest, served, hreleases, heq⟩ :=
      releaseKey_served gone hentry (hlawful key entry hentry).1
    rw [← has_released hreleases, heq]
    unfold Has
    rw [foldl_checkReady_table]

theorem has_foldl_releaseKey_iff (hlawful : state.1.Lawful) (gone : TxnId) (keys : List κ)
    (txn : TxnId) (place : κ) :
    (keys.foldl (releaseKey gone) state).1.Has txn place ↔
      state.1.Has txn place ∧ ¬ (txn = gone ∧ place ∈ keys) := by
  induction keys generalizing state with
  | nil => simp
  | cons key rest ih =>
    rw [List.foldl_cons, ih (hlawful.releaseKey (fun _ _ _ => trivial)
      keptByService_true gone key).1, has_releaseKey_iff hlawful, List.mem_cons]
    tauto

/-- Whoever was promoted was blocked, and the others still are. -/
structure Promotes (blocked : TreeMap TxnId (LockRequest κ))
    (state : LockManager κ × TreeSet TxnId) : Prop where
  wasBlocked : ∀ txn ∈ state.2, txn ∈ blocked
  blocked_iff : ∀ txn : TxnId,
    txn ∈ state.1.pendingKeys ↔ txn ∈ blocked ∧ txn ∉ state.2

theorem Promotes.checkReady (hpromotes : Promotes blocked state) (next : TxnId) :
    Promotes blocked (LockManager.checkReady state next) := by
  obtain ⟨hsame, -⟩ | ⟨pending, hpending, -, -, herased, -, hinserted⟩ :=
    checkReady_cases state next
  · rw [hsame]
    exact hpromotes
  have hnext : next ∈ blocked :=
    ((hpromotes.blocked_iff next).mp (mem_of_getElem? hpending)).1
  refine ⟨?_, ?_⟩
  · intro txn hin
    rw [hinserted, mem_set_insert_iff] at hin
    obtain rfl | hin := hin
    · exact hnext
    · exact hpromotes.wasBlocked txn hin
  · intro txn
    rw [herased, hinserted, mem_erase_iff, mem_set_insert_iff, hpromotes.blocked_iff]
    tauto

theorem Promotes.releaseKey (hpromotes : Promotes blocked state) (gone : TxnId) (key : κ) :
    Promotes blocked (LockManager.releaseKey gone state key) := by
  cases hentry : state.1.table[key]? with
  | none =>
    rw [releaseKey_none hentry]
    exact hpromotes
  | some entry =>
    obtain ⟨table, heq, -⟩ := releaseKey_table gone hentry
    rw [heq]
    refine List.foldlRecOn (motive := Promotes blocked) _ _ ?_ ?_
    · exact ⟨hpromotes.wasBlocked, hpromotes.blocked_iff⟩
    · exact fun _ hstate next _ => hstate.checkReady next

theorem release_promotes (manager : LockManager κ) (gone : TxnId) :
    (manager.release gone).1.Nodup ∧
      (∀ txn ∈ (manager.release gone).1, txn ≠ gone ∧ txn ∈ manager.pendingKeys) ∧
      ∀ txn : TxnId, txn ∈ (manager.release gone).2.pendingKeys ↔
        txn ∈ manager.pendingKeys ∧ txn ≠ gone ∧ txn ∉ (manager.release gone).1 := by
  have hpromotes : Promotes (manager.pendingKeys.erase gone)
      ((manager.releaseKeys gone).toList.foldl (LockManager.releaseKey gone)
        ({ manager with
          heldLocks := manager.heldLocks.erase gone
          pendingKeys := manager.pendingKeys.erase gone }, ∅)) := by
    refine List.foldlRecOn (motive := Promotes (manager.pendingKeys.erase gone)) _ _ ?_ ?_
    · exact ⟨by simp, by simp⟩
    · exact fun _ hstate key _ => hstate.releaseKey gone key
  unfold release
  refine ⟨?_, ?_, ?_⟩
  · refine TreeSet.distinct_toList.imp ?_
    intro a b hdistinct heq
    exact hdistinct (LawfulEqOrd.compare_eq_iff_eq.mpr heq)
  · intro txn hin
    exact mem_erase_iff.mp (hpromotes.wasBlocked txn (TreeSet.mem_toList.mp hin))
  · intro txn
    rw [hpromotes.blocked_iff, mem_erase_iff, TreeSet.mem_toList]
    tauto

theorem has_release_iff (hlawful : manager.Lawful) {gone : TxnId}
    (hrecorded : ∀ key, manager.Has gone key → manager.Records gone key) (txn : TxnId) (key : κ) :
    (manager.release gone).2.Has txn key ↔ txn ≠ gone ∧ manager.Has txn key := by
  unfold release
  rw [has_foldl_releaseKey_iff hlawful]
  refine ⟨?_, fun ⟨hne, hhas⟩ => ⟨hhas, fun hboth => hne hboth.1⟩⟩
  rintro ⟨hhas, hnot⟩
  refine ⟨?_, hhas⟩
  rintro rfl
  exact hnot ⟨rfl, (mem_releaseKeys manager txn key).mpr (hrecorded key hhas)⟩

end LockManager

theorem Accounted.has_release_iff {manager : LockManager κ}
    (haccounted : AllAccounted manager) (gone txn : TxnId) (key : κ) :
    (manager.release gone).2.Has txn key ↔ txn ≠ gone ∧ manager.Has txn key :=
  LockManager.has_release_iff haccounted.lawful
    (fun key hhas => (haccounted.recorded gone key hhas).resolve_right id) txn key

/-! ## The invariant -/

/-- Everybody on a key asked for it in the mode it stands there, and has not
released.  Whoever has not released stands on all its keys.  Whoever is not
ready is blocked. -/
structure Serial (run : SerialRun κ) : Prop where
  accounted : Accounted [] (fun _ _ => False) run.manager
  inOrder : run.manager.InOrder
  asked : ∀ (key : κ) entry, run.manager.table[key]? = some entry →
    ∀ item ∈ entry.holders ++ entry.waiters, item.1.isReservation = false ∧
      ∃ request : LockRequest κ, run.requests[item.1]? = some request ∧
        request[key]? = some item.2
  stands : ∀ (txn : TxnId) (request : LockRequest κ), run.requests[txn]? = some request →
    .released txn ∉ run.events → ∀ key ∈ request, run.manager.Has txn key
  left : ∀ txn : TxnId, .released txn ∈ run.events → ∀ key, ¬ run.manager.Has txn key
  blocked_iff : ∀ txn : TxnId, txn ∈ run.manager.pendingKeys ↔
    txn ∈ run.requests ∧ .ready txn ∉ run.events
  readyKnown : ∀ txn : TxnId, .ready txn ∈ run.events → txn ∈ run.requests
  releasedReady : ∀ txn : TxnId, .released txn ∈ run.events → .ready txn ∈ run.events

namespace Serial

variable {run : SerialRun κ}

section

omit [TransOrd κ] [LawfulEqOrd κ]

theorem known (hserial : Serial run) {txn : TxnId} {key : κ}
    (hhas : run.manager.Has txn key) : txn.isReservation = false ∧ txn ∈ run.requests := by
  obtain ⟨entry, hentry, hin⟩ := hhas
  obtain ⟨mode, hmem⟩ : ∃ mode, (txn, mode) ∈ entry.holders ++ entry.waiters := by
    simpa [LockEntry.Has, exists_or] using hin
  obtain ⟨hplain, request, hrequest, -⟩ := hserial.asked key entry hentry _ hmem
  exact ⟨hplain, mem_of_getElem? hrequest⟩

theorem mode_of_holder (hserial : Serial run) {txn : TxnId} {key : κ} {entry : LockEntry}
    {held : LockMode} {request : LockRequest κ} (hentry : run.manager.table[key]? = some entry)
    (hmem : (txn, held) ∈ entry.holders) (hrequest : run.requests[txn]? = some request) :
    request[key]? = some held := by
  obtain ⟨-, asked, hasked, hheld⟩ :=
    hserial.asked key entry hentry _ (List.mem_append_left _ hmem)
  obtain rfl := Option.some.inj (hrequest.symm.trans hasked)
  exact hheld

end

theorem sparesBlocked (hserial : Serial run) (txn : TxnId) (keys : LockRequest κ) :
    run.manager.SparesBlocked txn keys := by
  rintro hwound ⟨key, mode⟩ hitem hclass entry hentry ⟨holder, held⟩ hmem hne
  have hcan := LockManager.canWound_of_resolveConflict hwound
    (TreeMap.mem_toList_iff_getElem?_eq_some.mp hitem) hclass
  obtain ⟨-, hreservation, -⟩ := LockManager.younger_of_canWound hentry hcan _ hmem hne
  have hhas : run.manager.Has holder key := ⟨entry, hentry, .inl ⟨held, hmem⟩⟩
  cases (hserial.known hhas).1.symm.trans hreservation

structure Newcomer (run : SerialRun κ) (txn : TxnId) : Prop where
  plain : txn.isReservation = false
  last : ∀ earlier ∈ run.requests, earlier < txn

namespace Newcomer

variable {txn : TxnId}

omit [TransOrd κ] [LawfulEqOrd κ] in
theorem not_known (hnew : Newcomer run txn) : txn ∉ run.requests :=
  fun hknown => lt_irrefl txn (hnew.last txn hknown)

section

variable (hnew : Newcomer run txn) (hserial : Serial run)
include hnew hserial

omit [TransOrd κ] [LawfulEqOrd κ]

theorem not_has (key : κ) : ¬ run.manager.Has txn key :=
  fun hhas => hnew.not_known (hserial.known hhas).2

theorem not_pending : run.manager.pendingKeys[txn]? = none := by
  apply TreeMap.getElem?_eq_none
  rw [hserial.blocked_iff]
  exact fun hblocked => hnew.not_known hblocked.1

theorem trails {key : κ} {entry : LockEntry} (hentry : run.manager.table[key]? = some entry) :
    entry.Trails txn := by
  rintro ⟨other, mode⟩ hother -
  obtain hholder | hwaiter := List.mem_append.mp hother
  · exact hnew.last other (hserial.known ⟨entry, hentry, .inl ⟨mode, hholder⟩⟩).2
  · exact hnew.last other (hserial.known ⟨entry, hentry, .inr ⟨mode, hwaiter⟩⟩).2

theorem not_wounded {key : κ} {entry after : LockEntry} {mode : LockMode}
    (hentry : run.manager.table[key]? = some entry) : ¬ LockEntry.Wounded entry txn mode after := by
  intro hwounded
  obtain ⟨-, hheld⟩ := hserial.accounted.lawful key entry hentry
  obtain ⟨⟨holder, held⟩, hmem⟩ := List.exists_mem_of_ne_nil _ hheld
  have hhas : run.manager.Has holder key := ⟨entry, hentry, .inl ⟨held, hmem⟩⟩
  have hne : holder ≠ txn := by
    rintro rfl
    exact hnew.not_has hserial key hhas
  obtain ⟨-, hreservation, -⟩ := hwounded.younger _ hmem hne
  cases (hserial.known hhas).1.symm.trans hreservation

end

end Newcomer

variable {txn : TxnId}

theorem acquired {after : LockManager κ} {keys : LockRequest κ} {added : List LockEvent}
    {conflict : LockEntry → LockMode → LockEntry → Prop} (hserial : Serial run)
    (hnew : Newcomer run txn) (hresolves : LockManager.Resolves run.manager after txn
      (run.manager.fullRequest txn keys) conflict)
    (hconflict : ∀ (key : κ) mode entry entry', run.manager.table[key]? = some entry →
      conflict entry mode entry' → LockEntry.Queued entry txn mode entry')
    (haccounted : AllAccounted after) (horder : after.InOrder)
    (hadded : added = [.ready txn] ∨ added = [])
    (hblocked : ∀ other : TxnId, other ∈ after.pendingKeys ↔
      (other ∈ run.manager.pendingKeys ∧ other ≠ txn) ∨ (other = txn ∧ added = [])) :
    Serial
      { manager := after
        requests := run.requests.insert txn keys
        events := run.events ++ added } := by
  have hasks := LockManager.fullRequest_of_new (hnew.not_pending hserial) keys
  have hold : ∀ {other : TxnId} {request : LockRequest κ},
      run.requests[other]? = some request →
        (run.requests.insert txn keys)[other]? = some request := by
    intro other request hrequest
    rw [getElem?_insert_ne _ ?_, hrequest]
    rintro rfl
    exact hnew.not_known (mem_of_getElem? hrequest)
  have hreleased : ∀ {other : TxnId}, .released other ∈ run.events ++ added →
      .released other ∈ run.events := by
    intro other hin
    obtain hin | hin := List.mem_append.mp hin
    · exact hin
    · obtain rfl | rfl := hadded <;> simp at hin
  refine ⟨haccounted, horder, ?_, ?_, ?_, ?_, ?_, ?_⟩
  · rintro key entry hentry ⟨other, mode⟩ hitem
    have hnames : after.Names other key mode := ⟨entry, hentry, List.mem_append.mp hitem⟩
    obtain ⟨entry, hentry, hin⟩ | ⟨rfl, asked, hasked, hraised⟩ := hresolves.names hnames
      fun entry asked entry' hentry hrelated =>
        (hconflict key asked entry entry' hentry hrelated).names
    · obtain ⟨hplain, request, hrequest, hmode⟩ :=
        hserial.asked key entry hentry (other, mode) (List.mem_append.mpr hin)
      exact ⟨hplain, request, hold hrequest, hmode⟩
    · -- a new transaction stands on a key in the mode it asks for
      obtain rfl | ⟨entry, own, hentry, hown, -⟩ := hraised
      · exact ⟨hnew.plain, keys, TreeMap.getElem?_insert_self, (hasks key).symm.trans hasked⟩
      · exact absurd ⟨entry, hentry, hown.has⟩ (hnew.not_has hserial key)
  · intro other request hrequest hnot key hkey
    by_cases heq : other = txn
    · subst heq
      rw [TreeMap.getElem?_insert_self] at hrequest
      obtain rfl := Option.some.inj hrequest
      obtain ⟨mode, hmode⟩ := (mem_iff_exists _ _).mp hkey
      obtain ⟨entry', hentry', htaken | ⟨entry, hentry, -, hrelated⟩⟩ :=
        hresolves.requested key mode ((hasks key).trans hmode)
      · exact ⟨entry', hentry', (htaken.has_iff other).mpr (.inl rfl)⟩
      · exact ⟨entry', hentry',
          ((hconflict key mode entry entry' hentry hrelated).has_iff other).mpr (.inl rfl)⟩
    · rw [getElem?_insert_ne _ heq] at hrequest
      refine hresolves.has (hserial.stands other request hrequest
        (fun hin => hnot (List.mem_append_left _ hin)) key hkey) ?_
      intro mode entry entry' _ hentry _ hrelated hin
      exact ((hconflict key mode entry entry' hentry hrelated).has_iff other).mpr (.inr hin)
  · intro other hin key hhas
    obtain ⟨rfl, -⟩ | hbefore := hresolves.has_cases hhas fun mode entry entry' hentry hrelated =>
      ((hconflict key mode entry entry' hentry hrelated).has_iff other).mp
    · exact hnew.not_known (hserial.readyKnown other (hserial.releasedReady other (hreleased hin)))
    · exact hserial.left other (hreleased hin) key hbefore
  · intro other
    rw [hblocked, hserial.blocked_iff, mem_insert_iff, List.mem_append]
    have hfresh : .ready txn ∉ run.events := fun hin =>
      hnew.not_known (hserial.readyKnown txn hin)
    by_cases heq : other = txn
    · subst heq
      obtain rfl | rfl := hadded <;> simp [hfresh]
    · obtain rfl | rfl := hadded <;> simp [heq]
  · intro other hin
    rw [mem_insert_iff]
    obtain hin | hin := List.mem_append.mp hin
    · exact .inr (hserial.readyKnown other hin)
    · obtain rfl | rfl := hadded
      · left
        simpa using hin
      · cases hin
  · intro other hin
    exact List.mem_append_left _ (hserial.releasedReady other (hreleased hin))

theorem acquire (hserial : Serial run) (hnew : Newcomer run txn) (keys : LockRequest κ) :
    Serial ((SerialCall.acquire txn keys).perform run) := by
  have hlawful := hserial.accounted.lawful
  have haccounted := hserial.accounted.acquire (hserial.sparesBlocked txn keys)
  have horder : (run.manager.acquire txn keys).2.InOrder :=
    hserial.inOrder.acquire hlawful fun _ _ _ _ entry hentry _ => hnew.trails hserial hentry
  have hnot : txn ∉ run.manager.pendingKeys := by
    rw [hserial.blocked_iff]
    exact fun hblocked => hnew.not_known hblocked.1
  obtain ⟨hready, hpending, -, hresolves⟩ | ⟨hblocked, -, hpending, -, hresolves, -⟩ :=
    LockManager.acquire_resolves hlawful txn keys
  · refine hserial.acquired hnew hresolves ?_ haccounted horder (.inl (by rw [hready])) ?_
    · rintro key mode entry entry' hentry ⟨-, hwounded⟩
      exact absurd hwounded (hnew.not_wounded hserial hentry)
    · intro other
      rw [hpending, hready, mem_erase_iff]
      simp [and_comm]
  · refine hserial.acquired hnew hresolves (fun _ _ _ _ _ hqueued => hqueued)
      haccounted horder (.inr (by rw [hblocked])) ?_
    intro other
    rw [hpending, hblocked, mem_insert_iff, mem_erase_iff]
    by_cases heq : other = txn <;> simp [heq]

variable {other : TxnId}

section

omit [TransOrd κ] [LawfulEqOrd κ]

theorem released_mem_release :
    .released other ∈ ((SerialCall.release txn).perform run).events ↔
      .released other ∈ run.events ∨ other = txn := by
  simp [SerialCall.perform]

theorem ready_mem_release :
    .ready other ∈ ((SerialCall.release txn).perform run).events ↔
      .ready other ∈ run.events ∨ other ∈ (run.manager.release txn).1 := by
  simp [SerialCall.perform]

end

theorem release (hserial : Serial run) (hready : .ready txn ∈ run.events) :
    Serial ((SerialCall.release txn).perform run) := by
  have hlawful := hserial.accounted.lawful
  obtain ⟨-, hwas, hstill⟩ := run.manager.release_promotes txn
  have hhas := hserial.accounted.has_release_iff txn
  refine ⟨hserial.accounted.release txn, hserial.inOrder.release hlawful txn,
    ?_, ?_, ?_, ?_, ?_, ?_⟩
  · refine (hlawful.release hserial.asked ?_ txn).2
    intro gone key entry taken rest served hasked hserved item hitem
    apply hasked
    rw [hserved.holders, hserved.waiters, List.append_assoc, ← hserved.split] at hitem
    unfold LockEntry.leave at hitem
    dsimp only at hitem
    rw [LockEntry.dropHolder_holders, LockEntry.dropHolder_waiters, ← List.filter_append] at hitem
    exact List.mem_of_mem_filter hitem
  · intro other request hrequest hnot key hkey
    rw [released_mem_release, not_or] at hnot
    exact (hhas other key).mpr ⟨hnot.2, hserial.stands other request hrequest hnot.1 key hkey⟩
  · intro other hin key hstands
    obtain ⟨hne, hbefore⟩ := (hhas other key).mp hstands
    exact hserial.left other ((released_mem_release.mp hin).resolve_right hne) key hbefore
  · intro other
    refine (hstill other).trans ?_
    rw [hserial.blocked_iff, ready_mem_release, not_or]
    constructor
    · rintro ⟨⟨hknown, hnot⟩, -, hpromoted⟩
      exact ⟨hknown, hnot, hpromoted⟩
    · rintro ⟨hknown, hnot, hpromoted⟩
      refine ⟨⟨hknown, hnot⟩, ?_, hpromoted⟩
      rintro rfl
      exact hnot hready
  · intro other hin
    obtain hin | hpromoted := ready_mem_release.mp hin
    · exact hserial.readyKnown other hin
    · exact ((hserial.blocked_iff other).mp (hwas other hpromoted).2).1
  · intro other hin
    obtain hin | rfl := released_mem_release.mp hin
    · exact List.mem_append_left _ (hserial.releasedReady other hin)
    · exact List.mem_append_left _ hready

end Serial

/-! ## The order of events -/

def LockRequest.Excludes (request other : LockRequest κ) : Prop :=
  ∃ (key : κ) (mode mode' : LockMode), request[key]? = some mode ∧
    other[key]? = some mode' ∧ mode.compatible mode' = false

omit [LawfulEqOrd κ] in
theorem Serial.released_of_ready {run : SerialRun κ} (hserial : Serial run)
    {earlier later : TxnId} (hlt : earlier < later) {request request' : LockRequest κ}
    (hearlier : run.requests[earlier]? = some request)
    (hlater : run.requests[later]? = some request') (hexcludes : request.Excludes request')
    (hready : .ready later ∈ run.events) (hstill : .released later ∉ run.events) :
    .released earlier ∈ run.events := by
  by_contra hnot
  obtain ⟨key, mode, mode', hmode, hmode', hincompatible⟩ := hexcludes
  obtain ⟨entry, hentry, hstands⟩ := hserial.stands earlier request hearlier hnot key
    (mem_of_getElem? hmode)
  obtain ⟨found, hfound, hholds⟩ := hserial.stands later request' hlater hstill key
    (mem_of_getElem? hmode')
  obtain rfl := Option.some.inj (hentry.symm.trans hfound)
  -- the later one is not blocked, so it holds the key
  have hholder : ∃ held, (later, held) ∈ entry.holders := by
    obtain hholder | hwaits := hholds
    · exact hholder
    · obtain ⟨pending, hpending, -⟩ :=
        (hserial.accounted.queued later key ⟨entry, hentry, hwaits⟩).resolve_right id
      have hblocked := (hserial.blocked_iff later).mp
        (mem_of_getElem? hpending)
      exact absurd hready hblocked.2
  obtain ⟨held, hmem⟩ := hholder
  obtain rfl := Option.some.inj (hmode'.symm.trans (hserial.mode_of_holder hentry hmem hlater))
  obtain ⟨held, hother⟩ | ⟨waited, hother⟩ := hstands
  · obtain rfl :=
      Option.some.inj (hmode.symm.trans (hserial.mode_of_holder hentry hother hearlier))
    have hne : (earlier, mode) ≠ (later, mode') := by
      intro heq
      rw [(Prod.mk.inj heq).1] at hlt
      exact lt_irrefl later hlt
    have hcompatible :=
      (hserial.accounted.lawful key entry hentry).1.compatible_of_ne hother hmem hne
    rw [hincompatible] at hcompatible
    cases hcompatible
  · have hbehind := (hserial.inOrder key entry hentry).behind _ hmem _ hother
    exact lt_irrefl earlier (lt_trans hlt hbehind)

/-- Each event happens once, releases follow readiness, and transactions that
exclude each other are ready in order. -/
structure InSerialOrder (run : SerialRun κ) : Prop where
  once : run.events.Nodup
  released : ∀ txn : TxnId, .released txn ∈ run.events →
    [.ready txn, .released txn].Sublist run.events
  ordered : ∀ (earlier later : TxnId) (request request' : LockRequest κ), earlier < later →
    run.requests[earlier]? = some request → run.requests[later]? = some request' →
    request.Excludes request' → .ready later ∈ run.events →
      [.ready earlier, .released earlier, .ready later].Sublist run.events

namespace InSerialOrder

variable {run : SerialRun κ}

omit [LawfulEqOrd κ] in
theorem of_append (hserial : Serial run) {before readied : List LockEvent}
    (hevents : run.events = before ++ readied)
    (hreadied : ∀ event ∈ readied, ∃ txn, event = .ready txn) (honce : run.events.Nodup)
    (hreleased : ∀ txn : TxnId, .released txn ∈ before →
      [.ready txn, .released txn].Sublist before)
    (hordered : ∀ (earlier later : TxnId) (request request' : LockRequest κ),
      earlier < later → run.requests[earlier]? = some request →
      run.requests[later]? = some request' → request.Excludes request' →
      .ready later ∈ before →
        [.ready earlier, .released earlier, .ready later].Sublist before) : InSerialOrder run := by
  have hbefore : ∀ txn : TxnId, .released txn ∈ run.events → .released txn ∈ before := by
    intro txn hin
    rw [hevents] at hin
    obtain hin | hin := List.mem_append.mp hin
    · exact hin
    · obtain ⟨other, heq⟩ := hreadied _ hin
      cases heq
  have hkept : before.Sublist run.events := by
    rw [hevents]
    exact List.sublist_append_left before readied
  refine ⟨honce, fun txn hin => (hreleased txn (hbefore txn hin)).trans hkept, ?_⟩
  intro earlier later request request' hlt hearlier hlater hexcludes hready
  have hcases := hready
  rw [hevents] at hcases
  obtain hold | hnew := List.mem_append.mp hcases
  · exact (hordered earlier later request request' hlt hearlier hlater hexcludes hold).trans hkept
  · have hstill : .released later ∉ run.events := by
      intro hin
      have hfirst := (hreleased later (hbefore later hin)).subset List.mem_cons_self
      rw [hevents, List.nodup_append] at honce
      exact honce.2.2 _ hfirst _ hnew rfl
    have hgone := hbefore earlier
      (hserial.released_of_ready hlt hearlier hlater hexcludes hready hstill)
    rw [hevents]
    exact (hreleased earlier hgone).append (List.singleton_sublist.mpr hnew)

variable {txn : TxnId}

theorem acquire (horder : InSerialOrder run) (hserial : Serial run) (hnew : Serial.Newcomer run txn)
    (keys : LockRequest κ) : InSerialOrder ((SerialCall.acquire txn keys).perform run) := by
  have hserial' := hserial.acquire hnew keys
  have hreadied : ∀ event ∈ (match (run.manager.acquire txn keys).1 with
      | .ready => [LockEvent.ready txn]
      | .blocked => []), event = .ready txn := by
    cases (run.manager.acquire txn keys).1 <;> simp
  refine of_append hserial' rfl (fun event hevent => ⟨txn, hreadied event hevent⟩) ?_
    horder.released ?_
  · unfold SerialCall.perform
    rw [List.nodup_append]
    refine ⟨horder.once, ?_, ?_⟩
    · cases (run.manager.acquire txn keys).1 <;> simp
    · rintro event hold _ hadded rfl
      rw [hreadied event hadded] at hold
      exact hnew.not_known (hserial.readyKnown txn hold)
  · intro earlier later request request' hlt hearlier hlater hexcludes hready
    have hlast := hnew.last later (hserial.readyKnown later hready)
    have hne : ∀ other, other = earlier ∨ other = later → other ≠ txn := by
      rintro other (rfl | rfl) rfl
      · exact lt_irrefl other (lt_trans hlt hlast)
      · exact lt_irrefl other hlast
    dsimp only [SerialCall.perform] at hearlier hlater
    rw [getElem?_insert_ne _ (hne earlier (.inl rfl))] at hearlier
    rw [getElem?_insert_ne _ (hne later (.inr rfl))] at hlater
    exact horder.ordered earlier later request request' hlt hearlier hlater hexcludes hready

theorem release (horder : InSerialOrder run) (hserial : Serial run)
    (hready : .ready txn ∈ run.events) (hstill : .released txn ∉ run.events) :
    InSerialOrder ((SerialCall.release txn).perform run) := by
  have hserial' := hserial.release hready
  obtain ⟨hdistinct, hwas, -⟩ := run.manager.release_promotes txn
  have hevents : ((SerialCall.release txn).perform run).events =
      (run.events ++ [.released txn]) ++ (run.manager.release txn).1.map .ready := by
    simp [SerialCall.perform]
  have hkept : run.events.Sublist (run.events ++ [.released txn]) :=
    List.sublist_append_left _ _
  refine of_append hserial' hevents ?_ ?_ ?_ ?_
  · intro event hevent
    obtain ⟨promoted, -, rfl⟩ := List.mem_map.mp hevent
    exact ⟨promoted, rfl⟩
  · rw [hevents, List.nodup_append, List.nodup_append]
    refine ⟨⟨horder.once, List.nodup_singleton _, ?_⟩, ?_, ?_⟩
    · rintro event hold _ hnew rfl
      rw [List.mem_singleton.mp hnew] at hold
      exact hstill hold
    · exact hdistinct.map fun _ _ heq => LockEvent.ready.inj heq
    · rintro event hold _ hnew rfl
      obtain ⟨promoted, hpromoted, rfl⟩ := List.mem_map.mp hnew
      have hblocked := (hserial.blocked_iff promoted).mp (hwas promoted hpromoted).2
      simp only [List.mem_append, List.mem_singleton, reduceCtorEq, or_false] at hold
      exact hblocked.2 hold
  · intro other hin
    simp only [List.mem_append, List.mem_singleton, LockEvent.released.injEq] at hin
    obtain hin | rfl := hin
    · exact (horder.released other hin).trans hkept
    · exact (List.singleton_sublist.mpr hready).append (List.Sublist.refl _)
  · intro earlier later request request' hlt hearlier hlater hexcludes hin
    simp only [List.mem_append, List.mem_singleton, reduceCtorEq, or_false] at hin
    exact (horder.ordered earlier later request request' hlt hearlier hlater hexcludes
      hin).trans hkept

end InSerialOrder

/-! ## Runs -/

theorem TxnId.lt_iff (txn other : TxnId) :
    txn < other ↔ txn.epoch < other.epoch ∨
      (txn.epoch = other.epoch ∧ txn.position < other.position) := by
  change (compare txn.epoch other.epoch).then (compare txn.position other.position) = .lt ↔ _
  rw [Ordering.then_eq_lt, Nat.compare_eq_lt, Nat.compare_eq_eq, Nat.compare_eq_lt]

theorem TxnId.lt_wf : WellFounded fun txn other : TxnId => txn < other := by
  refine Subrelation.wf ?_ (InvImage.wf (fun txn : TxnId => (txn.epoch, txn.position))
    (Prod.lex ⟨_, Nat.lt_wfRel.wf⟩ ⟨_, Nat.lt_wfRel.wf⟩).wf)
  intro txn other hlt
  exact Prod.lex_def.mpr ((lt_iff txn other).mp hlt)

omit [TransOrd κ] [LawfulEqOrd κ] in
theorem Serial.not_pending {run : SerialRun κ} (hserial : Serial run)
    (hall : ∀ txn : TxnId, .ready txn ∈ run.events → .released txn ∈ run.events)
    (txn : TxnId) : txn ∉ run.manager.pendingKeys := by
  induction txn using lt_wf.induction with
  | _ txn ih =>
    intro hblocked
    obtain ⟨request, hrequest⟩ := (mem_iff_exists _ _).mp hblocked
    obtain ⟨key, -, entry, hentry, mode, hwaiter⟩ :=
      hserial.accounted.waits txn request hrequest List.not_mem_nil
    obtain ⟨-, hheld⟩ := hserial.accounted.lawful key entry hentry
    obtain ⟨⟨holder, held⟩, hmem⟩ := List.exists_mem_of_ne_nil _ hheld
    have hhas : run.manager.Has holder key := ⟨entry, hentry, .inl ⟨held, hmem⟩⟩
    refine ih holder ((hserial.inOrder key entry hentry).behind _ hmem _ hwaiter) ?_
    rw [hserial.blocked_iff]
    exact ⟨(hserial.known hhas).2, fun hready => hserial.left holder (hall holder hready) key hhas⟩

omit [LawfulEqOrd κ] in
theorem serial_start : Serial (SerialRun.start : SerialRun κ) := by
  refine ⟨accounted_new, ?_, ?_, ?_, ?_, ?_, ?_, ?_⟩
  all_goals simp [SerialRun.start, LockManager.new, LockManager.InOrder]

/-- In every run of plain transactions that ask in ascending order, each event
happens once, and two transactions that exclude each other on a key become
ready in transaction order, the earlier one released before the later one is
ready.  When all that are ready have released, nobody is blocked. -/
theorem serial_order (calls : List (SerialCall κ))
    (hsequence : StepRuns.Along SerialCall.perform SerialCall.InSequence SerialRun.start calls) :
    let run := calls.foldl SerialCall.perform SerialRun.start
    run.events.Nodup ∧
    (∀ (earlier later : TxnId) (request request' : LockRequest κ), earlier < later →
      run.requests[earlier]? = some request → run.requests[later]? = some request' →
      request.Excludes request' → .ready later ∈ run.events →
        [.ready earlier, .released earlier, .ready later].Sublist run.events) ∧
    ((∀ txn : TxnId, .ready txn ∈ run.events → .released txn ∈ run.events) →
      ∀ txn : TxnId, txn ∉ run.manager.pendingKeys) := by
  intro run
  have hboth : Serial run ∧ InSerialOrder run := by
    refine StepRuns.invariant_foldl
      (fun run : SerialRun κ => Serial run ∧ InSerialOrder run) ?_ ?_ hsequence
    · rintro run call ⟨hserial, horder⟩ hcall
      cases call with
      | acquire txn keys =>
        have hnew : Serial.Newcomer run txn :=
          ⟨hcall.1, fun earlier hearlier => hcall.2 earlier (TreeMap.mem_keys.mpr hearlier)⟩
        exact ⟨hserial.acquire hnew keys, horder.acquire hserial hnew keys⟩
      | release txn =>
        exact ⟨hserial.release hcall.1, horder.release hserial hcall.1 hcall.2⟩
    · exact ⟨serial_start, by simp [SerialRun.start], by simp [SerialRun.start],
        by simp [SerialRun.start]⟩
  exact ⟨hboth.2.once, hboth.2.ordered, hboth.1.not_pending⟩

/-- Three writers of two keys, each waiting for the one before. -/
theorem serial_order_three_writers : let calls : List (SerialCall Nat) :=
      [.acquire ⟨1, 0⟩ (.single 0 .exclusive),
        .acquire ⟨1, 1⟩ ((LockRequest.single 0 .exclusive).insert 1 .shared),
        .acquire ⟨2, 0⟩ (.single 1 .exclusive),
        .release ⟨1, 0⟩, .release ⟨1, 1⟩, .release ⟨2, 0⟩]
    let run := calls.foldl SerialCall.perform SerialRun.start
    run.events = [.ready ⟨1, 0⟩, .released ⟨1, 0⟩, .ready ⟨1, 1⟩, .released ⟨1, 1⟩,
        .ready ⟨2, 0⟩, .released ⟨2, 0⟩] ∧
      ∀ txn : TxnId, txn ∉ run.manager.pendingKeys := by
  intro calls run
  have hevents : run.events = [.ready ⟨1, 0⟩, .released ⟨1, 0⟩, .ready ⟨1, 1⟩,
      .released ⟨1, 1⟩, .ready ⟨2, 0⟩, .released ⟨2, 0⟩] := by decide
  refine ⟨hevents, (serial_order calls (by decide)).2.2 ?_⟩
  intro txn hready
  rw [hevents] at hready ⊢
  simpa using hready

end NodeDB.Calvin
