import NodeDB.LockRequests
import NodeDB.StepRuns

/-!
# Grants of the Calvin lock manager

Whoever the manager reports as ready or promoted should hold each key of its
latest request, in a mode that covers the request and what it held when it
asked.  A release hands keys on from the front of their queues; a blocked
request whose holds and waits stay covered is complete when the last of its
keys is handed over.
-/

namespace NodeDB.Calvin

open Std KeyedFold TreeMap LockEntry

variable {κ : Type} [Ord κ]

/-! ## Calls -/

inductive LockCall (κ : Type) [Ord κ] where
  | acquire (txn : TxnId) (keys : LockRequest κ)
  | acquireShared (txn : TxnId) (key : κ)
  | tryAcquire (txn : TxnId) (keys : LockRequest κ)
  | release (txn : TxnId)
  | reapExpiredShared (epochThreshold : Nat)

/-- The manager, the latest request of each transaction with the modes it
needs, and the transactions that the last call reported as ready or
promoted. -/
structure LockRun (κ : Type) [Ord κ] where
  manager : LockManager κ
  latest : TreeMap TxnId (LockRequest κ)
  reported : List TxnId

namespace LockRun

def start : LockRun κ :=
  { manager := .new, latest := ∅, reported := [] }

def acquire (run : LockRun κ) (txn : TxnId) (keys : LockRequest κ) : LockRun κ :=
  let acquired := run.manager.acquire txn keys
  { manager := acquired.2
    latest := run.latest.insert txn
      (run.manager.needs txn (run.manager.fullRequest txn keys))
    reported :=
      match acquired.1 with
      | .ready => [txn]
      | .blocked => [] }

end LockRun

namespace LockCall

def perform (run : LockRun κ) : LockCall κ → LockRun κ
  | acquire txn keys => run.acquire txn keys
  | acquireShared txn key => run.acquire txn (.single key .shared)
  | tryAcquire txn keys =>
    { run with manager := (run.manager.tryAcquire txn keys).2, reported := [] }
  | release txn =>
    let released := run.manager.release txn
    { run with manager := released.2, reported := released.1 }
  | reapExpiredShared epochThreshold =>
    let reaped := run.manager.reapExpiredShared epochThreshold
    { run with manager := reaped.2, reported := reaped.1 }

/-- The autocommit fast path probes under ids of its own band; the scheduler
acquires under schedule positions and reservation owners. -/
def Issued : LockCall κ → Prop
  | acquire txn _ => txn.isAutocommit = false
  | acquireShared txn _ => txn.isAutocommit = false
  | tryAcquire txn _ => txn.isAutocommit = true
  | release _ => True
  | reapExpiredShared _ => True

/-- An acquire names a key its owner already waits on only in a mode the
queued one covers, and a reap releases no blocked owner that one of its
earlier releases could complete. -/
def Admissible (run : LockRun κ) : LockCall κ → Prop
  | acquire txn keys => run.manager.WaitsCover txn keys
  | acquireShared txn key =>
    run.manager.WaitsCover txn (.single key .shared)
  | tryAcquire _ _ => True
  | release _ => True
  | reapExpiredShared epochThreshold =>
    run.manager.HeldUpInTurn [] (run.manager.expiredShared epochThreshold)

end LockCall

open LockCall

namespace LockCall

instance (call : LockCall κ) : Decidable call.Issued := by
  cases call <;> dsimp only [Issued] <;> infer_instance

instance (run : LockRun κ) (call : LockCall κ) : Decidable (Admissible run call) := by
  cases call <;> dsimp only [Admissible] <;> infer_instance

end LockCall

variable [TransOrd κ] [LawfulEqOrd κ]

/-! ## One key of a release -/

namespace LockManager

theorem releaseKey_table (gone : TxnId) {state : LockManager κ × TreeSet TxnId}
    {key : κ} {entry : LockEntry} (hentry : state.1.table[key]? = some entry) :
    let served := (entry.leave gone).serve (entry.leave gone).waiters
    ∃ table : TreeMap κ LockEntry,
      releaseKey gone state key =
          served.2.foldl checkReady ({ state.1 with table := table }, state.2) ∧
        (∀ other, other ≠ key → table[other]? = state.1.table[other]?) ∧
        ((table[key]? = some served.1 ∧ ¬ (served.1.holders = [] ∧ served.1.waiters = [])) ∨
          (table[key]? = none ∧ served.1.holders = [] ∧ served.1.waiters = [])) := by
  intro served
  unfold releaseKey promoteWaiters
  simp only [hentry, getElem?_insert_self, Bool.and_eq_true, List.isEmpty_iff]
  split
  next hempty =>
    refine ⟨_, rfl, ?_, .inr ⟨getElem?_erase_self, hempty⟩⟩
    intro other hne
    rw [getElem?_erase_ne _ hne, getElem?_insert_ne _ hne]
  next hkept =>
    refine ⟨_, rfl, ?_, .inl ⟨getElem?_insert_self, hkept⟩⟩
    intro other hne
    rw [getElem?_insert_ne _ hne, getElem?_insert_ne _ hne]

omit [TransOrd κ] [LawfulEqOrd κ] in
theorem releaseKey_none {gone : TxnId} {state : LockManager κ × TreeSet TxnId}
    {key : κ} (hentry : state.1.table[key]? = none) : releaseKey gone state key = state := by
  simp only [releaseKey, hentry]

/-- A granted waiter that holds every key of its request leaves the blocked
transactions and is promoted.  One that lacks a key is left alone. -/
theorem checkReady_cases (state : LockManager κ × TreeSet TxnId) (next : TxnId) :
    (checkReady state next = state ∧ ∀ pending, state.1.pendingKeys[next]? = some pending →
        ∃ key ∈ pending, ∀ entry, state.1.table[key]? = some entry →
          entry.holds next = false) ∨
      ∃ pending, state.1.pendingKeys[next]? = some pending ∧
        (∀ item ∈ pending.toList, ∃ entry, state.1.table[item.1]? = some entry ∧
          entry.holds next = true) ∧
        (checkReady state next).1.table = state.1.table ∧
        (checkReady state next).1.pendingKeys = state.1.pendingKeys.erase next ∧
        (checkReady state next).1.heldLocks = (state.1.finishReady next pending).heldLocks ∧
        (checkReady state next).2 = state.2.insert next := by
  unfold checkReady
  dsimp only
  split
  next hnone => exact .inl ⟨rfl, fun pending hpending => by cases hnone.symm.trans hpending⟩
  next pending hpending =>
    split
    next hall =>
      refine .inr ⟨pending, hpending, ?_, rfl, rfl, rfl, rfl⟩
      rintro ⟨key, mode⟩ hmem
      have hkey : key ∈ pending.keys :=
        mem_keys.mpr (mem_of_getElem? (mem_toList_iff_getElem?_eq_some.mp hmem))
      have hheld := List.all_eq_true.mp hall key hkey
      cases hentry : state.1.table[key]? with
      | none => simp [hentry] at hheld
      | some entry =>
        rw [hentry] at hheld
        exact ⟨entry, rfl, hheld⟩
    next hall =>
      refine .inl ⟨rfl, fun found hfound => ?_⟩
      obtain rfl := Option.some.inj (hpending.symm.trans hfound)
      obtain ⟨key, hkey, hlacks⟩ := List.all_eq_false.mp (Bool.eq_false_of_not_eq_true hall)
      refine ⟨key, mem_keys.mp hkey, fun entry hentry => ?_⟩
      rw [hentry] at hlacks
      exact Bool.eq_false_of_not_eq_true hlacks

end LockManager

open LockManager

/-! ## A whole release -/

/-- What holds throughout the release of `gone`: blocked requests stay
covered, whoever was promoted holds what it needs, and no transaction that the
releases of its `leaving` hold up is promoted. -/
structure Releasing (latest : TreeMap TxnId (LockRequest κ))
    (watched : List TxnId → TxnId → Prop) (before : List TxnId) (gone : TxnId)
    (state : LockManager κ × TreeSet TxnId) : Prop where
  sound : Sound latest state.1
  left : state.1.pendingKeys[gone]? = none
  heldUp : ∀ leaving txn, watched leaving txn →
    gone ∈ leaving ∧ txn ∉ state.2 ∧ state.1.HeldUp leaving txn
  granted : ∀ txn, txn ∈ before ∨ txn ∈ state.2 →
    txn ≠ gone ∧ Granted latest state.1 txn

namespace Releasing

variable {latest : TreeMap TxnId (LockRequest κ)}
  {watched : List TxnId → TxnId → Prop} {before : List TxnId} {gone : TxnId}
  {state : LockManager κ × TreeSet TxnId}

variable {entry : LockEntry} {txn : TxnId} {mode : LockMode}

theorem modesCover_served (hne : txn ≠ gone) (hcover : entry.ModesCover txn mode) :
    ((entry.leave gone).serve (entry.leave gone).waiters).1.ModesCover txn mode := by
  apply modesCover_serve
  refine ⟨?_, ?_⟩
  · intro own hown
    have hkept : (entry.dropHolder gone).modeOf txn = some own := hown
    rw [modeOf_dropHolder_ne entry hne] at hkept
    exact hcover.held own hkept
  · intro own hown
    have hkept := List.mem_of_mem_filter hown
    rw [dropHolder_waiters] at hkept
    exact hcover.queued own hkept

theorem modeOf_served (hne : txn ≠ gone) (hmode : entry.modeOf txn = some mode) :
    ∃ stronger, ((entry.leave gone).serve (entry.leave gone).waiters).1.modeOf txn =
      some stronger ∧ stronger.Covers mode := by
  apply modeOf_serve
  exact (modeOf_dropHolder_ne entry hne).trans hmode

section

variable (hreleasing : Releasing latest watched before gone state)
include hreleasing

omit [TransOrd κ] [LawfulEqOrd κ] in
theorem ne_gone {request : LockRequest κ} (hpending : state.1.pendingKeys[txn]? = some request) :
    txn ≠ gone := by
  rintro rfl
  cases hreleasing.left.symm.trans hpending

theorem afterServe {key : κ} {entry : LockEntry} (hentry : state.1.table[key]? = some entry)
    {table : TreeMap κ LockEntry}
    (hothers : ∀ other, other ≠ key → table[other]? = state.1.table[other]?) (hkey : table[key]? =
        some ((entry.leave gone).serve (entry.leave gone).waiters).1 ∨
      table[key]? = none ∧
        ((entry.leave gone).serve (entry.leave gone).waiters).1.holders = []) :
    Releasing latest watched before gone ({ state.1 with table := table }, state.2) := by
  have htidy : (entry.leave gone).Tidy := (hreleasing.sound.tidy key entry hentry).leave gone
  have hcases : ∀ {other found}, table[other]? = some found →
      (other = key ∧ found = ((entry.leave gone).serve (entry.leave gone).waiters).1) ∨
        state.1.table[other]? = some found := by
    intro other found hfound
    by_cases hother : other = key
    · subst hother
      rcases hkey with hsome | ⟨hnone, -⟩
      · exact .inl ⟨rfl, Option.some.inj (hfound.symm.trans hsome)⟩
      · cases hnone.symm.trans hfound
    · exact .inr ((hothers other hother).symm.trans hfound)
  refine ⟨⟨?_, ?_⟩, hreleasing.left, ?_, ?_⟩
  · intro other found hfound
    rcases hcases hfound with ⟨rfl, rfl⟩ | hold
    · exact tidy_serve _ _ htidy
    · exact hreleasing.sound.tidy other found hold
  · intro txn request hpending
    rcases hreleasing.sound.pending txn request hpending with
      ⟨hscheduled, needed, hlatest, hawaits⟩
    refine ⟨hscheduled, needed, hlatest, hawaits.requested, ?_⟩
    intro other asked hasked
    rcases hawaits.covered other asked hasked with ⟨mode, hmode, hcovers, hentries⟩
    refine ⟨mode, hmode, hcovers, ?_⟩
    intro found hfound
    rcases hcases hfound with ⟨rfl, rfl⟩ | hold
    · exact modesCover_served (hreleasing.ne_gone hpending) (hentries entry hentry)
    · exact hentries found hold
  · intro leaving txn hwatched
    rcases hreleasing.heldUp leaving txn hwatched with ⟨hgone, hnot, hheld⟩
    refine ⟨hgone, hnot, ?_⟩
    intro request hpending
    rcases hheld request hpending with ⟨⟨other, asked⟩, hitem, hblocked⟩
    refine ⟨(other, asked), hitem, ?_⟩
    intro found hfound
    rcases hcases hfound with ⟨rfl, rfl⟩ | hold
    · exact (heldUp_serve _ _ htidy.grouped
        ((hblocked entry hentry).leave hgone (hreleasing.ne_gone hpending))).1
    · exact hblocked found hold
  · intro txn hpromoted
    rcases hreleasing.granted txn hpromoted with ⟨hne, needed, hlatest, hholds⟩
    refine ⟨hne, needed, hlatest, ?_⟩
    rw [holdsAll_iff] at hholds ⊢
    intro other mode hmode
    rcases hholds other mode hmode with ⟨found, hfound, held, hheld, hcovers⟩
    by_cases hother : other = key
    · subst hother
      obtain rfl := Option.some.inj (hentry.symm.trans hfound)
      rcases modeOf_served hne hheld with ⟨stronger, hstronger, hstrong⟩
      rcases hkey with hsome | ⟨-, hempty⟩
      · exact ⟨_, hsome, stronger, hstronger, hstrong.trans hcovers⟩
      · have hin := mem_holders_of_modeOf hstronger
        rw [hempty] at hin
        cases hin
    · exact ⟨found, (hothers other hother).trans hfound, held, hheld, hcovers⟩

theorem afterCheck (next : TxnId) :
    Releasing latest watched before gone (LockManager.checkReady state next) := by
  rcases checkReady_cases state next with ⟨hsame, -⟩ | hready
  · rw [hsame]
    exact hreleasing
  rcases hready with ⟨pending, hpending, hheld, htable, herased, -, hinserted⟩
  rcases hreleasing.sound.pending next pending hpending with
    ⟨-, needed, hlatest, hawaits⟩
  have hkeys : ∀ (key : κ) asked, pending[key]? = some asked →
      ∃ entry, state.1.table[key]? = some entry ∧ entry.holds next = true := by
    intro key asked hasked
    exact hheld (key, asked) (mem_toList_iff_getElem?_eq_some.mpr hasked)
  -- A transaction that is held up lacks one of its keys, so it is not this one.
  have hother : ∀ leaving txn, watched leaving txn → txn ≠ next := by
    rintro leaving txn hwatched rfl
    rcases (hreleasing.heldUp leaving txn hwatched).2.2 pending hpending with
      ⟨item, hitem, hblocked⟩
    rcases hheld item hitem with ⟨entry, hentry, hholds⟩
    rcases (entry.holds_iff_modeOf txn).mp hholds with ⟨mode, hmode⟩
    cases (hblocked entry hentry).1.symm.trans hmode
  have hstill : ∀ (txn : TxnId) request,
      (checkReady state next).1.pendingKeys[txn]? = some request →
        state.1.pendingKeys[txn]? = some request := by
    intro txn request hrequest
    rw [herased] at hrequest
    exact (getElem?_erase_eq_some_iff.mp hrequest).2
  refine ⟨⟨?_, ?_⟩, ?_, ?_, ?_⟩
  · rw [htable]
    exact hreleasing.sound.tidy
  · intro txn request hrequest
    rcases hreleasing.sound.pending txn request (hstill txn request hrequest) with
      ⟨hscheduled, wanted, hwanted, hwaits⟩
    refine ⟨hscheduled, wanted, hwanted, hwaits.requested, ?_⟩
    rw [htable]
    exact hwaits.covered
  · rw [herased, getElem?_erase_ne _ (hreleasing.ne_gone hpending).symm]
    exact hreleasing.left
  · intro leaving txn hwatched
    rcases hreleasing.heldUp leaving txn hwatched with ⟨hgone, hnot, hblocked⟩
    refine ⟨hgone, ?_, ?_⟩
    · rw [hinserted, mem_set_insert_iff, not_or]
      exact ⟨hother leaving txn hwatched, hnot⟩
    · intro request hrequest
      rcases hblocked request (hstill txn request hrequest) with ⟨item, hitem, hentries⟩
      refine ⟨item, hitem, ?_⟩
      rw [htable]
      exact hentries
  · intro txn hpromoted
    rw [hinserted, mem_set_insert_iff, or_left_comm] at hpromoted
    rcases hpromoted with rfl | hearlier
    · refine ⟨hreleasing.ne_gone hpending, needed, hlatest, ?_⟩
      rw [holdsAll_iff, htable]
      intro key mode hmode
      rcases hawaits.requested key mode hmode with ⟨asked, hasked⟩
      rcases hawaits.covered key asked hasked with ⟨mode', hmode', -, hentries⟩
      obtain rfl := Option.some.inj (hmode.symm.trans hmode')
      rcases hkeys key asked hasked with ⟨entry, hentry, hholds⟩
      rcases (entry.holds_iff_modeOf txn).mp hholds with ⟨held, hmodeOf⟩
      exact ⟨entry, hentry, held, hmodeOf, (hentries entry hentry).held held hmodeOf⟩
    · rcases hreleasing.granted txn hearlier with ⟨hne, wanted, hwanted, hholds⟩
      refine ⟨hne, wanted, hwanted, ?_⟩
      rw [holdsAll_iff] at hholds ⊢
      rw [htable]
      exact hholds

theorem afterKey (key : κ) :
    Releasing latest watched before gone (LockManager.releaseKey gone state key) := by
  cases hentry : state.1.table[key]? with
  | none =>
    rw [releaseKey_none hentry]
    exact hreleasing
  | some entry =>
    obtain ⟨table, heq, hothers, hkey⟩ := releaseKey_table gone hentry
    rw [heq]
    exact List.foldlRecOn _ _ (hreleasing.afterServe hentry hothers
        (hkey.imp And.left fun hempty => ⟨hempty.1, hempty.2.1⟩))
      fun _ hstate next _ => hstate.afterCheck next

end

end Releasing

variable {latest : TreeMap TxnId (LockRequest κ)} {manager : LockManager κ}

theorem releasing_release (watched : List TxnId → TxnId → Prop) (before : List TxnId) (gone : TxnId)
    (hsound : Sound latest manager) (hheld : ∀ leaving txn, watched leaving txn →
      gone ∈ leaving ∧ manager.HeldUp leaving txn)
    (hbefore : ∀ txn ∈ before, txn ≠ gone ∧ Granted latest manager txn) :
    Sound latest (manager.release gone).2 ∧
      (∀ leaving txn, watched leaving txn → txn ∉ (manager.release gone).1 ∧
        (manager.release gone).2.HeldUp leaving txn) ∧
      ∀ txn, txn ∈ before ∨ txn ∈ (manager.release gone).1 →
        Granted latest (manager.release gone).2 txn := by
  let start := { manager with
    heldLocks := manager.heldLocks.erase gone
    pendingKeys := manager.pendingKeys.erase gone }
  have hstill : ∀ (txn : TxnId) request, start.pendingKeys[txn]? = some request →
      manager.pendingKeys[txn]? = some request := fun _ _ hrequest =>
    (getElem?_erase_eq_some_iff.mp hrequest).2
  have hstart : Releasing latest watched before gone (start, ∅) := by
    refine ⟨⟨hsound.tidy, ?_⟩, getElem?_erase_self, ?_, ?_⟩
    · intro txn request hrequest
      rcases hsound.pending txn request (hstill txn request hrequest) with
        ⟨hscheduled, needed, hlatest, hawaits⟩
      exact ⟨hscheduled, needed, hlatest, hawaits.requested, hawaits.covered⟩
    · intro leaving txn hwatched
      rcases hheld leaving txn hwatched with ⟨hgone, hblocked⟩
      refine ⟨hgone, TreeSet.not_mem_emptyc, ?_⟩
      intro request hrequest
      exact hblocked request (hstill txn request hrequest)
    · rintro txn (hin | hin)
      · exact hbefore txn hin
      · exact absurd hin TreeSet.not_mem_emptyc
  have hfinal := List.foldlRecOn (manager.releaseKeys gone).toList
    (releaseKey gone) hstart fun _ hstate key _ => hstate.afterKey key
  refine ⟨hfinal.sound, ?_, ?_⟩
  · intro leaving txn hwatched
    rcases hfinal.heldUp leaving txn hwatched with ⟨-, hnot, hblocked⟩
    exact ⟨fun hin => hnot (TreeSet.mem_toList.mp hin), hblocked⟩
  · rintro txn (hin | hin)
    · exact (hfinal.granted txn (.inl hin)).2
    · exact (hfinal.granted txn (.inr (TreeSet.mem_toList.mp hin))).2

/-! ## Reaping -/

omit [TransOrd κ] [LawfulEqOrd κ] in
theorem LockManager.HeldUpInTurn.split {manager : LockManager κ}
    {done owners : List TxnId} (hturn : manager.HeldUpInTurn done owners)
    {earlier later : List TxnId} {txn : TxnId}
    (hsplit : owners = earlier ++ txn :: later) (hne : done ++ earlier ≠ []) :
    manager.HeldUp (done ++ earlier) txn := by
  induction earlier generalizing done owners with
  | nil =>
    subst hsplit
    rw [List.append_nil] at hne ⊢
    exact hturn.1 hne
  | cons first earlier ih =>
    subst hsplit
    have hrest := ih hturn.2 rfl (by simp)
    simpa using hrest

theorem granted_reapOwners (done rest : List TxnId) (state : List TxnId × LockManager κ)
    (hsound : Sound latest state.2) (hheld : ∀ earlier txn later, rest = earlier ++ txn :: later →
      txn ∉ state.1 ∧ (done ++ earlier ≠ [] → state.2.HeldUp (done ++ earlier) txn))
    (hgranted : ∀ txn ∈ state.1, Granted latest state.2 txn) :
    Sound latest (LockManager.reapOwners rest state).2 ∧
      ∀ txn ∈ (LockManager.reapOwners rest state).1,
        Granted latest (LockManager.reapOwners rest state).2 txn := by
  induction rest generalizing done state with
  | nil => exact ⟨hsound, hgranted⟩
  | cons gone rest ih =>
    let watched (leaving : List TxnId) (txn : TxnId) : Prop :=
      ∃ earlier later, rest = earlier ++ txn :: later ∧
        leaving = done ++ gone :: earlier
    have hwatched : ∀ leaving txn, watched leaving txn →
        gone ∈ leaving ∧ state.2.HeldUp leaving txn := by
      rintro leaving txn ⟨earlier, later, hrest, rfl⟩
      refine ⟨by simp, ?_⟩
      exact (hheld (gone :: earlier) txn later (by rw [hrest]; rfl)).2 (by simp)
    have hbefore : ∀ txn ∈ state.1, txn ≠ gone ∧ Granted latest state.2 txn := by
      intro txn hin
      refine ⟨?_, hgranted txn hin⟩
      rintro rfl
      exact (hheld [] txn rest rfl).1 hin
    rcases releasing_release watched state.1 gone hsound hwatched hbefore with
      ⟨hsound', hheld', hgranted'⟩
    apply ih (done ++ [gone])
      (state.1 ++ (state.2.release gone).1, (state.2.release gone).2) hsound'
    · intro earlier txn later hrest
      rcases hheld' (done ++ gone :: earlier) txn ⟨earlier, later, hrest, rfl⟩ with
        ⟨hnot, hblocked⟩
      have hearlier := (hheld (gone :: earlier) txn later (by rw [hrest]; rfl)).1
      refine ⟨?_, fun _ => by simpa using hblocked⟩
      intro hin
      rcases List.mem_append.mp hin with hin | hin
      · exact hearlier hin
      · exact hnot hin
    · intro txn hin
      exact hgranted' txn (List.mem_append.mp hin)

theorem granted_reapExpiredShared (hsound : Sound latest manager) {epochThreshold : Nat}
    (hturn : manager.HeldUpInTurn [] (manager.expiredShared epochThreshold)) :
    Sound latest (manager.reapExpiredShared epochThreshold).2 ∧
      ∀ txn ∈ (manager.reapExpiredShared epochThreshold).1,
        Granted latest (manager.reapExpiredShared epochThreshold).2 txn := by
  have hreaped := granted_reapOwners [] (manager.expiredShared epochThreshold)
    ([], manager) hsound
    (fun earlier txn later hsplit => ⟨by simp, fun hne => hturn.split hsplit hne⟩)
    (by simp)
  refine ⟨hreaped.1, ?_⟩
  intro txn hin
  have hin := TreeSet.mem_toList.mp hin
  rw [mem_foldl_insert] at hin
  rcases hin with hin | hin
  · exact hreaped.2 txn hin
  · exact absurd hin TreeSet.not_mem_emptyc

/-! ## Runs -/

theorem sound_perform {run : LockRun κ} {call : LockCall κ}
    (hsound : Sound run.latest run.manager) (hissued : call.Issued)
    (hadmissible : call.Admissible run) :
    Sound (call.perform run).latest (call.perform run).manager ∧
      ∀ txn ∈ (call.perform run).reported,
        Granted (call.perform run).latest (call.perform run).manager txn := by
  have hacquire : ∀ txn keys, txn.isAutocommit = false →
      run.manager.WaitsCover txn keys →
        Sound (run.acquire txn keys).latest (run.acquire txn keys).manager ∧
          ∀ reported ∈ (run.acquire txn keys).reported,
            Granted (run.acquire txn keys).latest (run.acquire txn keys).manager
              reported := by
    intro txn keys hscheduled hwaits
    rcases hsound.acquire hscheduled hwaits with ⟨hsound', hready⟩
    refine ⟨hsound', ?_⟩
    intro reported hin
    unfold LockRun.acquire at hin
    dsimp only at hin
    split at hin
    next houtcome =>
      obtain rfl : reported = txn := by simpa using hin
      exact ⟨_, getElem?_insert_self, hready houtcome⟩
    next => simp at hin
  cases call with
  | acquire txn keys => exact hacquire txn keys hissued hadmissible
  | acquireShared txn key => exact hacquire txn _ hissued hadmissible
  | tryAcquire txn keys =>
    dsimp only [perform]
    exact ⟨hsound.tryAcquire hissued keys, by simp⟩
  | release txn =>
    dsimp only [perform]
    rcases releasing_release (fun _ _ => False) [] txn hsound (by simp) (by simp) with
      ⟨hsound', -, hgranted⟩
    exact ⟨hsound', fun promoted hin => hgranted promoted (.inr hin)⟩
  | reapExpiredShared epochThreshold =>
    dsimp only [perform]
    exact granted_reapExpiredShared hsound hadmissible

omit [LawfulEqOrd κ] in
theorem sound_start :
    Sound (LockRun.start : LockRun κ).latest (LockRun.start : LockRun κ).manager := by
  constructor <;> simp [LockRun.start, new]

/-- In every run of admissible calls, whoever a call reports as ready or
promoted holds every key of its latest request, in a mode that covers the
requested one merged with what it held. -/
theorem granted_of_run (calls : List (LockCall κ)) (hissued : ∀ call ∈ calls, call.Issued)
    (hrun : StepRuns.Along LockCall.perform LockCall.Admissible LockRun.start calls) :
    let run := calls.foldl LockCall.perform LockRun.start
    ∀ txn ∈ run.reported, Granted run.latest run.manager txn := by
  intro run
  have hboth : StepRuns.Along perform
      (fun run call => LockCall.Issued call ∧ LockCall.Admissible run call)
      LockRun.start calls := hrun.and_of_forall hissued
  have hinv := StepRuns.invariant_foldl
    (fun run : LockRun κ => Sound run.latest run.manager ∧
      ∀ txn ∈ run.reported, Granted run.latest run.manager txn)
    (fun run call hinv hok => sound_perform hinv.1 hok.1 hok.2)
    ⟨sound_start, by simp [LockRun.start]⟩ hboth
  exact hinv.2

/-- A reservation owner waits for a shared row lock and its commit asks for a
second row; a reader waits behind it.  Releases promote both. -/
theorem granted_of_run_reservation :
    let owner : TxnId := ⟨1, TxnId.reservationPositionBand⟩
    let reader : TxnId := ⟨2, TxnId.reservationPositionBand⟩
    let calls : List (LockCall Nat) :=
      [.acquire ⟨1, 0⟩ (.single 0 .exclusive), .acquireShared owner 0,
        .acquire owner (.single 1 .exclusive), .acquireShared reader 1,
        .tryAcquire ⟨TxnId.autocommitEpoch, 0⟩ (.single 2 .intent),
        .release ⟨1, 0⟩, .reapExpiredShared 1, .release owner]
    let run := calls.foldl perform LockRun.start
    run.reported = [reader] ∧ Granted run.latest run.manager reader := by
  refine ⟨by decide, ?_⟩
  exact granted_of_run _ (by decide) (by decide) _ (by decide)

/-- A reservation owner waits for a shared lock, then its commit asks for an
exclusive one.  The release promotes it with the shared lock alone.  In the
second run a reap promotes a blocked reservation and then releases it. -/
theorem promoted_without_its_lock :
    let owner : TxnId := ⟨1, TxnId.reservationPositionBand⟩
    let other : TxnId := ⟨1, TxnId.reservationPositionBand + 1⟩
    let upgraded : TxnId := ⟨20, TxnId.reservationPositionBand⟩
    let calls : List (LockCall Nat) :=
      [.acquire ⟨1, 0⟩ (.single 0 .exclusive), .acquireShared owner 0,
        .acquire owner (.single 0 .exclusive), .release ⟨1, 0⟩]
    let reaping : List (LockCall Nat) :=
      [.acquire upgraded (.single 0 .intent),
        .acquire ⟨1, 1⟩ (.single 0 .intentShared), .acquireShared owner 0,
        .acquireShared other 0, .acquireShared upgraded 0, .reapExpiredShared 10]
    let run := calls.foldl perform LockRun.start
    let reaped := reaping.foldl perform LockRun.start
    ((∀ call ∈ calls, call.Issued) ∧ run.reported = [owner] ∧
        ¬ Granted run.latest run.manager owner) ∧
      (∀ call ∈ reaping, call.Issued) ∧ reaped.reported = [other] ∧
        ¬ Granted reaped.latest reaped.manager other := by
  decide

end NodeDB.Calvin
