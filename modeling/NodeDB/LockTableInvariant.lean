import NodeDB.LockGrants
import NodeDB.LockTable

/-!
# The lock table of the Calvin lock manager

What a call does to each key: an acquire takes the key, wounds its holders or
queues on it; a release leaves the key and serves its queue.  Every entry
keeps its shape.  Its front waiter stays excluded by a holder as long as no
holder gives up a key in front of a waiter that only it excludes.
-/

namespace NodeDB.Calvin

open Std List

variable {κ : Type} [Ord κ]

namespace LockEntry

/-- The requester became a holder of a free key or next to the holders. -/
inductive Taken (before : Option LockEntry) (txn : TxnId) (mode : LockMode)
    (after : LockEntry) : Prop
  | fresh (hbefore : before = none)
      (hafter : after = { mode := mode, holders := [(txn, mode)], waiters := [] })
  | held (entry : LockEntry) (hbefore : before = some entry)
      (htake : entry.CanTake txn mode) (hafter : after = entry.hold txn mode)

/-- The requester took the key from younger read reservations. -/
structure Wounded (entry : LockEntry) (txn : TxnId) (mode : LockMode)
    (after : LockEntry) : Prop where
  waiters : entry.waiters = []
  younger : ∀ holder ∈ entry.holders, holder.1 ≠ txn →
    holder.2 = .shared ∧ holder.1.isReservation = true ∧ compare txn holder.1 = .lt
  after_eq : after = { entry with
    holders := [(txn, entry.neededMode txn mode)]
    mode := entry.neededMode txn mode }

end LockEntry

open LockEntry

namespace LockManager

def Lawful (manager : LockManager κ) : Prop :=
  ∀ (key : κ) (entry : LockEntry), manager.table[key]? = some entry →
    entry.Consistent ∧ entry.holders ≠ []

def FrontsBlocked (manager : LockManager κ) : Prop :=
  ∀ (key : κ) (entry : LockEntry), manager.table[key]? = some entry → entry.FrontBlocked

/-! ## What an acquire does to each key -/

variable {manager : LockManager κ} {txn : TxnId} {key : κ} {mode : LockMode} {entry : LockEntry}
  {P : κ → LockEntry → Prop}

section

variable (hentry : manager.table[key]? = some entry)
include hentry

section

variable (hconsistent : entry.Consistent) (hheld : entry.holders ≠ [])
include hconsistent hheld

theorem canTake_of_classify
    (hclass : manager.classify txn key mode ≠ .conflict) : entry.CanTake txn mode := by
  simp only [classify, hentry] at hclass
  cases hmode : entry.modeOf txn with
  | some own =>
    have hown := mem_holders_of_modeOf hmode
    simp only [hmode] at hclass
    split at hclass
    next hcases =>
      refine .raise own hown fun holder hmem hne => ?_
      obtain hsame | hothers := hcases
      · rw [hsame]
        exact hconsistent.compatible_of_ne hmem hown fun heq => hne (congrArg Prod.fst heq)
      · have hkept : holder ∈ entry.holders.filter fun holder => decide (holder.1 ≠ txn) :=
          mem_filter.mpr ⟨hmem, decide_eq_true hne⟩
        exact all_eq_true.mp hothers holder hkept
    next => exact absurd rfl hclass
  | none =>
    simp only [hmode] at hclass
    split at hclass
    next => exact absurd rfl hclass
    next =>
      split at hclass
      next hjoin =>
        rw [Bool.and_eq_true, List.isEmpty_iff] at hjoin
        exact .join (modeOf_eq_none.mp hmode) hjoin.2
          ((hconsistent.mode_compatible_iff hheld mode).mp hjoin.1)
      next => exact absurd rfl hclass

theorem mustWait_of_classify
    (hclass : manager.classify txn key mode = .conflict) : entry.MustWait txn mode := by
  simp only [classify, hentry] at hclass
  cases hmode : entry.modeOf txn with
  | some own =>
    have hown := mem_holders_of_modeOf hmode
    simp only [hmode] at hclass
    split at hclass
    next => cases hclass
    next hcases =>
      push Not at hcases
      have hothers := Bool.eq_false_of_not_eq_true hcases.2
      obtain ⟨holder, hmem, hexcludes⟩ := all_eq_false.mp hothers
      obtain ⟨hin, hne⟩ := mem_filter.mp hmem
      exact .holds own hown ⟨holder, hin, of_decide_eq_true hne,
        Bool.eq_false_of_not_eq_true hexcludes⟩
  | none =>
    simp only [hmode] at hclass
    split at hclass
    next hwaits =>
      obtain ⟨asked, hmem⟩ := (entry.hasWaiter_iff txn).mp hwaits
      exact .waits asked hmem
    next hwaits =>
      split at hclass
      next => cases hclass
      next hjoin =>
        have habsent := modeOf_eq_none.mp hmode
        have hnot := not_mem_waiters (Bool.eq_false_of_not_eq_true hwaits)
        refine .arrives habsent ?_ ?_
        · rintro ⟨waiter, asked⟩ hmem rfl
          exact hnot asked hmem
        · rw [Bool.and_eq_true, not_and_or, List.isEmpty_iff] at hjoin
          obtain hexcluded | hqueue := hjoin
          · right
            by_contra hnone
            push Not at hnone
            exact hexcluded ((hconsistent.mode_compatible_iff hheld mode).mpr
              fun holder hmem => Bool.eq_true_of_not_eq_false (hnone holder hmem))
          · exact .inl hqueue

theorem classify_of_mustWait
    (hwait : entry.MustWait txn mode) : manager.classify txn key mode = .conflict := by
  by_contra hclass
  have htake := canTake_of_classify hentry hconsistent hheld hclass
  exact htake.not_mustWait hconsistent hwait

end

end

/-- Each requested key was taken or its conflict resolved, and nothing else in
the table changed. -/
structure Resolves (before after : LockManager κ) (txn : TxnId)
    (request : LockRequest κ) (conflict : LockEntry → LockMode → LockEntry → Prop) :
    Prop where
  requested : ∀ (key : κ) (mode : LockMode), request[key]? = some mode →
    ∃ entry', after.table[key]? = some entry' ∧
      (LockEntry.Taken before.table[key]? txn mode entry' ∨
        ∃ entry, before.table[key]? = some entry ∧ entry.MustWait txn mode ∧
          conflict entry mode entry')
  others : ∀ key : κ, request[key]? = none → after.table[key]? = before.table[key]?

section

variable {before after : LockManager κ} {txn : TxnId} {request : LockRequest κ}
  {conflict : LockEntry → LockMode → LockEntry → Prop} {key : κ} {entry entry' : LockEntry}

/-- How an entry found afterwards came about. -/
theorem Resolves.cases (hresolves : Resolves before after txn request conflict)
    (hentry' : after.table[key]? = some entry') :
    before.table[key]? = some entry' ∨ ∃ mode, request[key]? = some mode ∧
      (LockEntry.Taken before.table[key]? txn mode entry' ∨
        ∃ entry, before.table[key]? = some entry ∧ entry.MustWait txn mode ∧
          conflict entry mode entry') := by
  cases hmode : request[key]? with
  | none => exact .inl ((hresolves.others key hmode).symm.trans hentry')
  | some mode =>
    obtain ⟨found, hfound, hcases⟩ := hresolves.requested key mode hmode
    obtain rfl := Option.some.inj (hfound.symm.trans hentry')
    exact .inr ⟨mode, rfl, hcases⟩

/-- What becomes of an entry found before. -/
theorem Resolves.becomes (hresolves : Resolves before after txn request conflict)
    (hentry : before.table[key]? = some entry) :
    ∃ entry', after.table[key]? = some entry' ∧ (entry' = entry ∨
      ∃ mode, request[key]? = some mode ∧ (LockEntry.Taken (some entry) txn mode entry' ∨
        entry.MustWait txn mode ∧ conflict entry mode entry')) := by
  cases hmode : request[key]? with
  | none => exact ⟨entry, (hresolves.others key hmode).trans hentry, .inl rfl⟩
  | some mode =>
    obtain ⟨entry', hentry', hcases⟩ := hresolves.requested key mode hmode
    refine ⟨entry', hentry', .inr ⟨mode, rfl, hcases.imp (hentry ▸ ·) ?_⟩⟩
    rintro ⟨old, hold, hrelated⟩
    obtain rfl := Option.some.inj (hold.symm.trans hentry)
    exact hrelated

end

variable [TransOrd κ] [LawfulEqOrd κ]

section

omit [TransOrd κ] [LawfulEqOrd κ]

theorem SettledBy.resolves {settle : LockMode → Option LockEntry → Option LockEntry}
    {after : LockManager κ} {request : LockRequest κ}
    (hsettled : SettledBy settle manager after txn request) (hlawful : manager.Lawful)
    (conflict : LockEntry → LockMode → LockEntry → Prop)
    (hconflict : ∀ (key : κ) mode entry, request[key]? = some mode →
      manager.table[key]? = some entry → manager.classify txn key mode = .conflict →
      ∃ entry', settle mode (some entry) = some entry' ∧ conflict entry mode entry') :
    Resolves manager after txn request conflict := by
  refine ⟨fun key mode hmode => ?_, fun key => hsettled.others⟩
  refine hsettled.requested hmode _ (fun hclass => ?_) fun entry hentry hclass => ?_
  · cases hentry : manager.table[key]? with
    | none => exact ⟨_, rfl, .inl (.fresh rfl rfl)⟩
    | some entry =>
      obtain ⟨hconsistent, hheld⟩ := hlawful key entry hentry
      exact ⟨_, rfl, .inl
        (.held entry rfl (canTake_of_classify hentry hconsistent hheld hclass) rfl)⟩
  · obtain ⟨hconsistent, hheld⟩ := hlawful key entry hentry
    obtain ⟨entry', hentry', hrelated⟩ := hconflict key mode entry hmode hentry hclass
    exact ⟨entry', hentry', .inr ⟨entry, hentry,
      mustWait_of_classify hentry hconsistent hheld hclass, hrelated⟩⟩

theorem younger_of_canWound (hentry : manager.table[key]? = some entry)
    (hwound : manager.canWound txn key = true) :
    ∀ holder ∈ entry.holders, holder.1 ≠ txn →
      holder.2 = .shared ∧ holder.1.isReservation = true ∧
        compare txn holder.1 = .lt := by
  intro holder hmem hne
  simp only [canWound, hentry, Bool.and_eq_true] at hwound
  have hin : holder ∈ entry.holders.filter fun holder => decide (holder.1 ≠ txn) :=
    mem_filter.mpr ⟨hmem, decide_eq_true hne⟩
  have hyoung := all_eq_true.mp hwound.2 holder hin
  simpa [and_assoc] using hyoung

end

/-- An acquire takes all it asks for, wounds reservations to take it, or
blocks: then it queues on every key it cannot take, and there is one. -/
theorem acquire_resolves (hlawful : manager.Lawful) (txn : TxnId) (keys : LockRequest κ) :
    let request := manager.fullRequest txn keys
    let outcome := (manager.acquire txn keys).1
    let after := (manager.acquire txn keys).2
    (outcome = .ready ∧ after.pendingKeys = manager.pendingKeys.erase txn ∧
        after.heldLocks = (manager.finishReady txn request).heldLocks ∧
        Resolves manager after txn request fun entry mode entry' =>
          manager.resolveConflict txn request = .wound ∧
            LockEntry.Wounded entry txn mode entry') ∨
      (outcome = .blocked ∧ manager.resolveConflict txn request = .block ∧
        after.pendingKeys = (manager.pendingKeys.erase txn).insert txn request ∧
        after.heldLocks = manager.heldLocks ∧
        (Resolves manager after txn request fun entry mode entry' =>
          LockEntry.Queued entry txn mode entry') ∧
        ∃ (key : κ) (mode : LockMode) (entry : LockEntry), request[key]? = some mode ∧
          manager.table[key]? = some entry ∧ entry.MustWait txn mode) := by
  intro request outcome after
  obtain ⟨hready, hpending, hheld, settle, hsettled, hwounds⟩ |
      ⟨hblocked, hresolve, hpending, hheld, hsettled, key, mode, hmode, hclass⟩ :=
    acquire_settled manager txn keys
  · refine .inl ⟨hready, hpending, hheld, hsettled.resolves hlawful _ ?_⟩
    intro key mode entry hmode hentry hclass
    obtain ⟨rfl, hresolve, hwound⟩ := hwounds key mode hmode hclass
    exact ⟨_, rfl, hresolve, waiters_of_canWound hentry hwound,
      younger_of_canWound hentry hwound, rfl⟩
  · have hwait : ∀ {key : κ} {mode entry}, manager.table[key]? = some entry →
        manager.classify txn key mode = .conflict → entry.MustWait txn mode :=
      fun hentry hclass => mustWait_of_classify hentry (hlawful _ _ hentry).1
        (hlawful _ _ hentry).2 hclass
    obtain ⟨entry, hentry⟩ := exists_entry_of_conflict hclass
    refine .inr ⟨hblocked, hresolve, hpending, hheld, hsettled.resolves hlawful _ ?_, key, mode,
      entry, hmode, hentry, hwait hentry hclass⟩
    intro key mode entry hmode hentry hclass
    obtain ⟨hconsistent, hheld⟩ := hlawful key entry hentry
    exact hconsistent.enqueue hheld (hwait hentry hclass)

/-! ## What a release does to each key -/

theorem checkReady_table (state : LockManager κ × TreeSet TxnId) (next : TxnId) :
    (checkReady state next).1.table = state.1.table := by
  obtain ⟨hsame, -⟩ | ⟨_, _, _, htable, _⟩ := checkReady_cases state next
  · rw [hsame]
  · exact htable

theorem foldl_checkReady_table (state : LockManager κ × TreeSet TxnId)
    (granted : List TxnId) : (granted.foldl checkReady state).1.table = state.1.table :=
  StepRuns.foldl_unchanged (fun state : LockManager κ × TreeSet TxnId => state.1.table)
    checkReady_table state granted

/-- The table after `gone` left a key and its queue was served. -/
structure Releases (manager : LockManager κ) (gone : TxnId) (key : κ) (entry : LockEntry)
    (table : TreeMap κ LockEntry) (taken rest : List (TxnId × LockMode))
    (served : LockEntry × List TxnId) : Prop where
  found : manager.table[key]? = some entry
  serves : LockEntry.Served (entry.leave gone) (entry.leave gone).waiters taken rest served
  others : ∀ other, other ≠ key → table[other]? = manager.table[other]?
  here : (table[key]? = some served.1 ∧ served.1.holders ≠ []) ∨
    (table[key]? = none ∧ served.1.holders = [] ∧ rest = [])

theorem releaseKey_served (gone : TxnId) {state : LockManager κ × TreeSet TxnId}
    (hentry : state.1.table[key]? = some entry) (hconsistent : entry.Consistent) :
    ∃ table taken rest served, Releases state.1 gone key entry table taken rest served ∧
      releaseKey gone state key =
        (taken.map Prod.fst).foldl checkReady ({ state.1 with table := table }, state.2) := by
  obtain ⟨taken, rest, hserved⟩ := exists_served (entry.leave gone)
    (entry.leave gone).waiters (hconsistent.leave gone)
  obtain ⟨table, heq, hothers, hkey⟩ := releaseKey_table gone hentry
  rw [hserved.granted] at heq
  refine ⟨table, taken, rest, _, ⟨hentry, hserved, hothers, ?_⟩, heq⟩
  rw [hserved.waiters] at hkey
  refine hkey.imp_left fun hkept => ⟨hkept.1, fun hholders => hkept.2 ⟨hholders, ?_⟩⟩
  exact hserved.waiters.symm.trans (hserved.waiters_eq_nil hholders)

omit [TransOrd κ] [LawfulEqOrd κ] in
theorem Releases.cases {gone : TxnId} {table : TreeMap κ LockEntry}
    {taken rest : List (TxnId × LockMode)} {served : LockEntry × List TxnId}
    (hreleases : Releases manager gone key entry table taken rest served) {place : κ}
    {found : LockEntry} (hfound : table[place]? = some found) :
    (place = key ∧ found = served.1 ∧ found.holders ≠ []) ∨
      (place ≠ key ∧ manager.table[place]? = some found) := by
  by_cases hplace : place = key
  · subst hplace
    obtain ⟨hsome, hheld⟩ | ⟨hnone, -⟩ := hreleases.here
    · obtain rfl := Option.some.inj (hsome.symm.trans hfound)
      exact .inl ⟨rfl, rfl, hheld⟩
    · cases hnone.symm.trans hfound
  · exact .inr ⟨hplace, (hreleases.others place hplace).symm.trans hfound⟩

def KeptByService (P : κ → LockEntry → Prop) : Prop :=
  ∀ (gone : TxnId) (key : κ) (entry : LockEntry) (taken rest : List (TxnId × LockMode))
    (served : LockEntry × List TxnId), P key entry →
      LockEntry.Served (entry.leave gone) (entry.leave gone).waiters taken rest served →
        P key served.1

theorem Lawful.releaseKey {state : LockManager κ × TreeSet TxnId} (hlawful : state.1.Lawful)
    (hentries : ∀ (key : κ) entry, state.1.table[key]? = some entry → P key entry)
    (hserved : KeptByService P) (gone : TxnId) (key : κ) :
    (LockManager.releaseKey gone state key).1.Lawful ∧
      ∀ (other : κ) entry,
        (LockManager.releaseKey gone state key).1.table[other]? = some entry →
          P other entry := by
  cases hentry : state.1.table[key]? with
  | none =>
    rw [releaseKey_none hentry]
    exact ⟨hlawful, hentries⟩
  | some entry =>
    obtain ⟨table, taken, rest, served, hreleases, heq⟩ :=
      releaseKey_served gone hentry (hlawful key entry hentry).1
    have htable : (LockManager.releaseKey gone state key).1.table = table := by
      rw [heq]
      exact foldl_checkReady_table _ _
    have hboth : ∀ (other : κ) found, table[other]? = some found →
        (found.Consistent ∧ found.holders ≠ []) ∧ P other found := by
      intro other found hfound
      obtain ⟨rfl, rfl, hheld⟩ | ⟨-, hold⟩ := hreleases.cases hfound
      · exact ⟨⟨hreleases.serves.consistent, hheld⟩, hserved gone other entry taken rest served
          (hentries other entry hentry) hreleases.serves⟩
      · exact ⟨hlawful other found hold, hentries other found hold⟩
    unfold Lawful
    rw [htable]
    exact ⟨fun other found hfound => (hboth other found hfound).1,
      fun other found hfound => (hboth other found hfound).2⟩

section

variable (hlawful : manager.Lawful)
  (hentries : ∀ (key : κ) entry, manager.table[key]? = some entry → P key entry)
  (hserved : KeptByService P)
include hlawful hentries hserved

theorem Lawful.release (gone : TxnId) : (manager.release gone).2.Lawful ∧
      ∀ (key : κ) entry, (manager.release gone).2.table[key]? = some entry → P key entry := by
  unfold LockManager.release
  refine List.foldlRecOn (motive := fun state : LockManager κ × TreeSet TxnId =>
    state.1.Lawful ∧ ∀ (key : κ) entry, state.1.table[key]? = some entry → P key entry)
    _ _ ?_ ?_
  · exact ⟨hlawful, hentries⟩
  · exact fun _ hstate key _ => hstate.1.releaseKey hstate.2 hserved gone key

theorem Lawful.reapExpiredShared (epochThreshold : Nat) :
    (manager.reapExpiredShared epochThreshold).2.Lawful ∧
      ∀ (key : κ) entry,
        (manager.reapExpiredShared epochThreshold).2.table[key]? = some entry →
          P key entry := by
  unfold LockManager.reapExpiredShared reapOwners
  refine List.foldlRecOn (motive := fun state : List TxnId × LockManager κ =>
    state.2.Lawful ∧ ∀ (key : κ) entry, state.2.table[key]? = some entry → P key entry)
    _ _ ?_ ?_
  · exact ⟨hlawful, hentries⟩
  · exact fun _ hstate owner _ => hstate.1.release hstate.2 hserved owner

end

section

omit [Ord κ] [TransOrd κ] [LawfulEqOrd κ]

theorem keptByService_true : KeptByService fun (_ : κ) _ => True :=
  fun _ _ _ _ _ _ _ _ => trivial

theorem keptByService_frontBlocked : KeptByService fun (_ : κ) entry => entry.FrontBlocked :=
  fun _ _ _ _ _ _ _ hserved => hserved.frontBlocked

end

/-! ## The calls keep the table -/

section

omit [TransOrd κ] [LawfulEqOrd κ]

theorem Taken.lawful {before : Option LockEntry}
    {after : LockEntry} (htaken : LockEntry.Taken before txn mode after)
    (hbefore : ∀ entry, before = some entry → entry.Consistent) :
    after.Consistent ∧ after.holders ≠ [] := by
  cases htaken with
  | fresh _ hafter =>
    rw [hafter]
    exact ⟨consistent_new txn mode, by simp⟩
  | held entry hentry htake hafter =>
    rw [hafter]
    exact ⟨(hbefore entry hentry).take htake, entry.hold_holders_ne_nil txn mode⟩

theorem Resolves.everywhere {before after : LockManager κ}
    {request : LockRequest κ} {conflict : LockEntry → LockMode → LockEntry → Prop}
    (hresolves : Resolves before after txn request conflict)
    (hbefore : ∀ (key : κ) entry, before.table[key]? = some entry → P key entry)
    (htaken : ∀ (key : κ) mode entry', request[key]? = some mode →
      LockEntry.Taken before.table[key]? txn mode entry' → P key entry')
    (hconflict : ∀ (key : κ) mode entry entry', request[key]? = some mode →
      before.table[key]? = some entry → entry.MustWait txn mode →
      conflict entry mode entry' → P key entry') :
    ∀ (key : κ) entry, after.table[key]? = some entry → P key entry := by
  intro key found hfound
  obtain hold | ⟨mode, hmode, htake | ⟨entry, hentry, hwait, hrelated⟩⟩ := hresolves.cases hfound
  · exact hbefore key found hold
  · exact htaken key mode found hmode htake
  · exact hconflict key mode entry found hmode hentry hwait hrelated

end

theorem Lawful.acquire (hlawful : manager.Lawful)
    (txn : TxnId) (keys : LockRequest κ) : (manager.acquire txn keys).2.Lawful := by
  have hconsistent : ∀ (key : κ) entry, manager.table[key]? = some entry →
      entry.Consistent := fun key entry hentry => (hlawful key entry hentry).1
  obtain ⟨-, -, -, hresolves⟩ | ⟨-, -, -, -, hresolves, -⟩ := acquire_resolves hlawful txn keys
  · refine hresolves.everywhere hlawful
      (fun key _ _ _ htaken => Taken.lawful htaken (hconsistent key)) ?_
    rintro key mode entry entry' - hentry - ⟨-, hwounded⟩
    rw [hwounded.after_eq]
    refine ⟨⟨?_, pairwise_singleton _ _, nodup_singleton _, ?_, ?_⟩, by simp⟩
    · rintro _ ⟨⟩
      rfl
    · rw [hwounded.waiters]
      exact nodup_nil
    · rw [hwounded.waiters]
      simp
  · refine hresolves.everywhere hlawful
      (fun key _ _ _ htaken => Taken.lawful htaken (hconsistent key)) ?_
    rintro key mode entry entry' - - - hqueued
    exact ⟨hqueued.consistent, hqueued.held⟩

theorem Taken.frontBlocked {before : Option LockEntry}
    {after : LockEntry} (htaken : LockEntry.Taken before txn mode after)
    (hbefore : ∀ entry, before = some entry → entry.FrontBlocked) : after.FrontBlocked := by
  cases htaken with
  | fresh _ hafter =>
    rw [hafter]
    rintro front ⟨⟩
  | held entry hentry _ hafter =>
    rw [hafter]
    exact (hbefore entry hentry).hold txn mode

/-- No key that the request conflicts on is given up by its owner in front of
a waiter that only the owner excludes. -/
def KeepsFronts (manager : LockManager κ) (txn : TxnId) (keys : LockRequest κ) : Prop :=
  ∀ item ∈ (manager.fullRequest txn keys).toList, ∀ entry ∈ manager.table[item.1]?,
    manager.classify txn item.1 item.2 = .conflict → entry.holds txn = true →
      entry.KeepsFront txn
  deriving Decidable

theorem FrontsBlocked.acquire (hlawful : manager.Lawful)
    (hfronts : manager.FrontsBlocked) {keys : LockRequest κ}
    (hkeeps : manager.KeepsFronts txn keys) : (manager.acquire txn keys).2.FrontsBlocked := by
  obtain ⟨-, -, -, hresolves⟩ | ⟨-, -, -, -, hresolves, -⟩ := acquire_resolves hlawful txn keys
  · refine hresolves.everywhere hfronts
      (fun key _ _ _ htaken => Taken.frontBlocked htaken (hfronts key)) ?_
    rintro key mode entry entry' - - - ⟨-, hwounded⟩
    rw [hwounded.after_eq]
    intro front hfront
    rw [hwounded.waiters] at hfront
    cases hfront
  · refine hresolves.everywhere hfronts
      (fun key _ _ _ htaken => Taken.frontBlocked htaken (hfronts key)) ?_
    intro key mode entry entry' hmode hentry hwait hqueued
    have hconsistent := (hlawful key entry hentry).1
    apply hqueued.frontBlocked
    by_cases hholds : entry.holds txn = true
    · exact hkeeps (key, mode) (TreeMap.mem_toList_iff_getElem?_eq_some.mpr hmode) entry hentry
        (classify_of_mustWait hentry hconsistent (hlawful key entry hentry).2 hwait) hholds
    · refine (hfronts key entry hentry).keepsFront fun holder hmem heq => hholds ?_
      exact any_eq_true.mpr ⟨holder, hmem, decide_eq_true heq⟩

theorem tryAcquire_resolves (hlawful : manager.Lawful) (txn : TxnId) (keys : LockRequest κ) :
    let after := (manager.tryAcquire txn keys).2
    after = manager ∨ (after.pendingKeys = manager.pendingKeys ∧
      after.heldLocks = (manager.finishReady txn keys).heldLocks ∧
      Resolves manager after txn keys fun _ _ _ => False) := by
  obtain hsame | ⟨hnone, hpending, hheld, hsettled⟩ := tryAcquire_settled manager txn keys
  · exact .inl hsame
  · exact .inr ⟨hpending, hheld, hsettled.resolves hlawful _ fun key mode entry hmode _ hclass =>
      absurd hclass (classify_of_conflicts hnone hmode)⟩

theorem Lawful.tryAcquire (hlawful : manager.Lawful) (txn : TxnId) (keys : LockRequest κ) :
    (manager.tryAcquire txn keys).2.Lawful := by
  obtain hsame | ⟨-, -, hresolves⟩ := tryAcquire_resolves hlawful txn keys
  · rw [hsame]
    exact hlawful
  · exact hresolves.everywhere hlawful
      (fun key _ _ _ htaken => Taken.lawful htaken
        fun entry hentry => (hlawful key entry hentry).1)
      (fun _ _ _ _ _ _ _ hfalse => hfalse.elim)

end LockManager

open LockManager

/-! ## Runs -/

namespace LockCall

variable [TransOrd κ] [LawfulEqOrd κ]

/-- No acquire gives up a key in front of a waiter that only its owner
excludes. -/
def KeepsFronts (run : LockRun κ) : LockCall κ → Prop
  | acquire txn keys => run.manager.KeepsFronts txn keys
  | acquireShared txn key => run.manager.KeepsFronts txn (.single key .shared)
  | _ => True

instance (run : LockRun κ) (call : LockCall κ) : Decidable (KeepsFronts run call) :=
  match call with
  | acquire txn keys => inferInstanceAs (Decidable (run.manager.KeepsFronts txn keys))
  | acquireShared txn _ => inferInstanceAs (Decidable (run.manager.KeepsFronts txn _))
  | tryAcquire .. | release _ | reapExpiredShared _ => isTrue trivial

theorem lawful_perform {run : LockRun κ} (hlawful : run.manager.Lawful)
    (call : LockCall κ) : (call.perform run).manager.Lawful := by
  cases call with
  | acquire txn keys => exact hlawful.acquire txn keys
  | acquireShared txn key => exact hlawful.acquire txn (.single key .shared)
  | tryAcquire txn keys => exact hlawful.tryAcquire txn keys
  | release txn =>
    exact (hlawful.release (fun _ _ _ => trivial) keptByService_true txn).1
  | reapExpiredShared epochThreshold =>
    exact (hlawful.reapExpiredShared (fun _ _ _ => trivial) keptByService_true
      epochThreshold).1

theorem frontsBlocked_perform {run : LockRun κ} (hlawful : run.manager.Lawful)
    (hfronts : run.manager.FrontsBlocked) {call : LockCall κ}
    (hkeeps : call.KeepsFronts run) : (call.perform run).manager.FrontsBlocked := by
  cases call with
  | acquire txn keys | acquireShared txn key => exact hfronts.acquire hlawful hkeeps
  | tryAcquire txn keys =>
    dsimp only [LockCall.perform]
    obtain hsame | ⟨-, -, hresolves⟩ := tryAcquire_resolves hlawful txn keys
    · rw [hsame]
      exact hfronts
    · exact hresolves.everywhere hfronts
        (fun key _ _ _ htaken => LockManager.Taken.frontBlocked htaken (hfronts key))
        (fun _ _ _ _ _ _ _ hfalse => hfalse.elim)
  | release txn => exact (hlawful.release hfronts keptByService_frontBlocked txn).2
  | reapExpiredShared epochThreshold =>
    exact (hlawful.reapExpiredShared hfronts keptByService_frontBlocked
      epochThreshold).2

theorem lawful_foldl (calls : List (LockCall κ)) :
    (calls.foldl perform LockRun.start).manager.Lawful := by
  refine List.foldlRecOn (motive := fun run : LockRun κ => run.manager.Lawful) _ _ ?_ ?_
  · intro key entry hentry
    simp [LockRun.start, new] at hentry
  · exact fun _ hlawful call _ => lawful_perform hlawful call

end LockCall

open LockCall

variable [TransOrd κ] [LawfulEqOrd κ]

/-- In every run each entry has a holder, pairwise compatible holders, their
merged mode and nobody twice.  Its front waiter is excluded by another holder
if no acquire gives up a key in front of a waiter that only its owner
excludes. -/
theorem entries_of_run (calls : List (LockCall κ)) :
    let run := calls.foldl LockCall.perform LockRun.start
    (∀ (key : κ) entry, run.manager.table[key]? = some entry →
      entry.holders ≠ [] ∧ entry.Consistent) ∧
    (StepRuns.Along LockCall.perform LockCall.KeepsFronts LockRun.start calls →
      ∀ (key : κ) entry, run.manager.table[key]? = some entry → entry.FrontBlocked) := by
  intro run
  refine ⟨fun key entry hentry => (lawful_foldl calls key entry hentry).symm, ?_⟩
  intro hkeeps
  have hinv := StepRuns.invariant_foldl
    (fun run : LockRun κ => run.manager.Lawful ∧ run.manager.FrontsBlocked)
    (fun run call hinv hkeeps => ⟨lawful_perform hinv.1 call,
      frontsBlocked_perform hinv.1 hinv.2 hkeeps⟩)
    ⟨lawful_foldl [], by
      intro key entry hentry
      simp [LockRun.start, new] at hentry⟩ hkeeps
  exact hinv.2

/-- A commit under a reservation waits for a row reader, and a row writer queues
behind it. -/
theorem entries_of_run_upgrade :
    let owner : TxnId := ⟨1, TxnId.reservationPositionBand⟩
    let calls : List (LockCall Nat) :=
      [.acquireShared owner 0, .acquire ⟨2, 0⟩ (.single 0 .intentShared),
        .acquire owner (.single 0 .exclusive), .acquire ⟨2, 1⟩ (.single 0 .intent)]
    let run := calls.foldl perform LockRun.start
    run.manager.table[0]? = some
        { mode := .intentShared, holders := [(⟨2, 0⟩, .intentShared)],
          waiters := [(owner, .exclusive), (⟨2, 1⟩, .intent)] } ∧
      ∀ (key : Nat) entry, run.manager.table[key]? = some entry → entry.FrontBlocked :=
  ⟨by decide, (entries_of_run _).2 (by decide)⟩

/-- A commit under a reservation gives up its shared hold and queues.  The
waiter ahead of it, which only that hold excluded, is not served. -/
theorem front_waiter_not_excluded :
    let owner : TxnId := ⟨1, TxnId.reservationPositionBand⟩
    let calls : List (LockCall Nat) :=
      [.acquireShared owner 0, .acquire ⟨2, 0⟩ (.single 0 .intentShared),
        .acquire ⟨2, 1⟩ (.single 0 .intent), .acquire owner (.single 0 .exclusive)]
    let run := calls.foldl perform LockRun.start
    ¬ ∀ (key : Nat) entry, run.manager.table[key]? = some entry → entry.FrontBlocked := by
  intro owner calls run hall
  have hentry : run.manager.table[0]? = some
      { mode := .intentShared, holders := [(⟨2, 0⟩, .intentShared)],
        waiters := [(⟨2, 1⟩, .intent), (owner, .exclusive)] } := by decide
  exact absurd (hall 0 _ hentry) (by decide)

end NodeDB.Calvin
