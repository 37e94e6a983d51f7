import NodeDB.LockTableInvariant

/-!
# Blocked requests of the Calvin lock manager

A blocked transaction stands on every key of its request, as a holder or in
the queue, and it waits for at least one of them.  A wound breaks this when it
takes a key from a blocked reservation.  Otherwise the last release that a
blocked transaction waits for completes its request.
-/

namespace NodeDB.Calvin

open Std KeyedFold List

variable {κ : Type} [Ord κ]

namespace LockEntry

def Has (entry : LockEntry) (txn : TxnId) : Prop :=
  (∃ mode, (txn, mode) ∈ entry.holders) ∨ ∃ mode, (txn, mode) ∈ entry.waiters

def Waits (entry : LockEntry) (txn : TxnId) : Prop :=
  ∃ mode, (txn, mode) ∈ entry.waiters

/-! ## Who stands on a settled key -/

theorem mem_filter_ne {standing : List (TxnId × LockMode)} {gone other : TxnId} :
    (∃ mode, (other, mode) ∈ standing.filter fun item => item.1 ≠ gone) ↔
      other ≠ gone ∧ ∃ mode, (other, mode) ∈ standing := by
  simp [mem_filter, and_comm]

theorem hold_names (entry : LockEntry) (txn : TxnId) (mode : LockMode) (other : TxnId) :
    (∃ held, (other, held) ∈ (entry.hold txn mode).holders) ↔
      other = txn ∨ ∃ held, (other, held) ∈ entry.holders := by
  have hholds : ∀ entry : LockEntry, (∃ held, (other, held) ∈ entry.holders) ↔
      ∃ held, entry.modeOf other = some held := by
    intro entry
    rw [← entry.holds_iff_modeOf other]
    unfold holds
    simp [any_eq_true]
  rw [hholds, hholds]
  by_cases heq : other = txn
  · subst heq
    simp [modeOf_hold_self]
  · simp [modeOf_hold_ne entry heq, heq]

variable {before : Option LockEntry} {txn : TxnId} {mode : LockMode} {after entry : LockEntry}

section

variable (htaken : Taken before txn mode after)
include htaken

theorem Taken.waits_iff (other : TxnId) :
    after.Waits other ↔ ∃ entry, before = some entry ∧ entry.Waits other := by
  cases htaken with
  | fresh hbefore hafter =>
    rw [hafter, hbefore]
    simp [Waits]
  | held entry hentry _ hafter =>
    rw [hafter, hentry]
    simp [Waits]

theorem Taken.has_iff (other : TxnId) :
    after.Has other ↔ other = txn ∨ ∃ entry, before = some entry ∧ entry.Has other := by
  cases htaken with
  | fresh hbefore hafter =>
    rw [hafter, hbefore]
    simp [Has]
  | held entry hentry _ hafter =>
    rw [hafter, hentry]
    unfold Has
    rw [hold_names, hold_waiters]
    simp only [Option.some.injEq, exists_eq_left']
    tauto

theorem Taken.not_mustWait (hentry : before = some entry) (hconsistent : entry.Consistent) :
    ¬ entry.MustWait txn mode := by
  cases htaken with
  | fresh hbefore _ => cases hbefore.symm.trans hentry
  | held old hold htake _ =>
    obtain rfl := Option.some.inj (hold.symm.trans hentry)
    exact htake.not_mustWait hconsistent

end

theorem Queued.waits_iff (hqueued : Queued entry txn mode after) (other : TxnId) :
    after.Waits other ↔ other = txn ∨ entry.Waits other := by
  unfold Waits
  obtain ⟨hsame, hwaits⟩ | ⟨hlast, -, -⟩ := hqueued.waiters
  · rw [hsame]
    constructor
    · exact .inr
    · rintro (rfl | hother)
      · exact hwaits
      · exact hother
  · rw [hlast]
    simp only [mem_append, mem_singleton, Prod.mk.injEq, exists_or]
    constructor
    · rintro (hother | ⟨_, rfl, -⟩)
      · exact .inr hother
      · exact .inl rfl
    · rintro (rfl | hother)
      · exact .inr ⟨_, rfl, rfl⟩
      · exact .inl hother

theorem Queued.has_iff (hqueued : Queued entry txn mode after) (other : TxnId) :
    after.Has other ↔ other = txn ∨ entry.Has other := by
  have hwaits := hqueued.waits_iff other
  unfold Has Waits at *
  rw [hqueued.holders, mem_filter_ne, hwaits]
  tauto

/-! ## Modes on a settled key -/

def Names (entry : LockEntry) (txn : TxnId) (mode : LockMode) : Prop :=
  (txn, mode) ∈ entry.holders ∨ (txn, mode) ∈ entry.waiters

theorem Names.has {entry : LockEntry} {txn : TxnId} {mode : LockMode}
    (hnames : entry.Names txn mode) : entry.Has txn :=
  hnames.imp (fun hholder => ⟨mode, hholder⟩) fun hwaiter => ⟨mode, hwaiter⟩

/-- A mode in which a settled request names its owner: the one it asks for,
alone or merged with one that was there. -/
def Raised (before : Option LockEntry) (txn : TxnId) (mode raised : LockMode) : Prop :=
  raised = mode ∨ ∃ entry own, before = some entry ∧ entry.Names txn own ∧ raised = own.merge mode

variable {other : TxnId} {held : LockMode}

theorem mem_raise {holders : List (TxnId × LockMode)} (h : (other, held) ∈ raise txn mode holders) :
    (other, held) ∈ holders ∨
      (other = txn ∧ (held = mode ∨ ∃ own, (txn, own) ∈ holders ∧ held = own.merge mode)) := by
  induction holders with
  | nil =>
    obtain ⟨rfl, rfl⟩ := Prod.mk.inj (mem_singleton.mp h)
    exact .inr ⟨rfl, .inl rfl⟩
  | cons holder rest ih =>
    unfold raise at h
    split at h
    next heq =>
      obtain hfirst | hrest := mem_cons.mp h
      · obtain ⟨rfl, rfl⟩ := Prod.mk.inj hfirst
        exact .inr ⟨heq, .inr ⟨holder.2, heq ▸ mem_cons_self, rfl⟩⟩
      · exact .inl (mem_cons_of_mem _ hrest)
    next =>
      obtain rfl | hrest := mem_cons.mp h
      · exact .inl mem_cons_self
      · obtain hold | ⟨heq, rfl | ⟨own, hown, rfl⟩⟩ := ih hrest
        · exact .inl (mem_cons_of_mem _ hold)
        · exact .inr ⟨heq, .inl rfl⟩
        · exact .inr ⟨heq, .inr ⟨own, mem_cons_of_mem _ hown, rfl⟩⟩

theorem hold_holders (entry : LockEntry) (txn : TxnId) (mode : LockMode) :
    (entry.hold txn mode).holders = raise txn mode entry.holders := by
  unfold hold
  rw [regroup_holders]

theorem neededMode_raised (entry : LockEntry) (txn : TxnId) (mode : LockMode) :
    Raised (some entry) txn mode (entry.neededMode txn mode) := by
  unfold neededMode
  cases hown : entry.modeOf txn with
  | none => exact .inl rfl
  | some own => exact .inr ⟨entry, own, rfl, .inl (mem_holders_of_modeOf hown), rfl⟩

theorem Taken.names {before : Option LockEntry} (htaken : Taken before txn mode after)
    (hnames : after.Names other held) :
    (∃ entry, before = some entry ∧ entry.Names other held) ∨
      (other = txn ∧ Raised before txn mode held) := by
  cases htaken with
  | fresh hbefore hafter =>
    subst hafter
    obtain hholder | hwaiter := hnames
    · obtain ⟨rfl, rfl⟩ := Prod.mk.inj (mem_singleton.mp hholder)
      exact .inr ⟨rfl, .inl rfl⟩
    · cases hwaiter
  | held entry hbefore htake hafter =>
    subst hafter
    obtain hholder | hwaiter := hnames
    · rw [hold_holders] at hholder
      obtain hkept | ⟨heq, hmode | ⟨own, hown, hmerged⟩⟩ := mem_raise hholder
      · exact .inl ⟨entry, hbefore, .inl hkept⟩
      · exact .inr ⟨heq, .inl hmode⟩
      · exact .inr ⟨heq, .inr ⟨entry, own, hbefore, .inl hown, hmerged⟩⟩
    · rw [hold_waiters] at hwaiter
      exact .inl ⟨entry, hbefore, .inr hwaiter⟩

theorem Wounded.names (hwounded : Wounded entry txn mode after)
    (hnames : after.Names other held) : other = txn ∧ Raised (some entry) txn mode held := by
  rw [hwounded.after_eq] at hnames
  obtain hholder | hwaiter := hnames
  · obtain ⟨rfl, rfl⟩ := Prod.mk.inj (mem_singleton.mp hholder)
    exact ⟨rfl, neededMode_raised entry other mode⟩
  · rw [hwounded.waiters] at hwaiter
    cases hwaiter

theorem Queued.names (hqueued : Queued entry txn mode after) (hnames : after.Names other held) :
    entry.Names other held ∨ (other = txn ∧ Raised (some entry) txn mode held) := by
  obtain hholder | hwaiter := hnames
  · rw [hqueued.holders] at hholder
    exact .inl (.inl (mem_of_mem_filter hholder))
  · obtain ⟨hsame, -⟩ | ⟨happended, -⟩ := hqueued.waiters
    · exact .inl (.inr (hsame ▸ hwaiter))
    · rw [happended, mem_append, mem_singleton] at hwaiter
      obtain hwaiter | hnew := hwaiter
      · exact .inl (.inr hwaiter)
      · obtain ⟨rfl, rfl⟩ := Prod.mk.inj hnew
        exact .inr ⟨rfl, neededMode_raised entry other mode⟩

/-! ## Who stands on a released key -/

theorem leave_waits_iff (entry : LockEntry) (gone other : TxnId) :
    (entry.leave gone).Waits other ↔ other ≠ gone ∧ entry.Waits other := by
  unfold Waits LockEntry.leave
  dsimp only
  rw [dropHolder_waiters, mem_filter_ne]

theorem leave_has_iff (entry : LockEntry) (gone other : TxnId) :
    (entry.leave gone).Has other ↔ other ≠ gone ∧ entry.Has other := by
  have hwaits := entry.leave_waits_iff gone other
  unfold Has LockEntry.leave Waits at *
  rw [hwaits, dropHolder_holders, mem_filter_ne, and_or_left]

variable {taken rest : List (TxnId × LockMode)} {served : LockEntry × List TxnId}

theorem Served.has_iff (hserved : Served entry entry.waiters taken rest served) (other : TxnId) :
    served.1.Has other ↔ entry.Has other := by
  unfold Has
  rw [hserved.holders, hserved.waiters, hserved.split]
  simp only [mem_append, exists_or]
  tauto

theorem Served.waits (hserved : Served entry entry.waiters taken rest served) {other : TxnId}
    (hwaits : entry.Waits other) (hnot : other ∉ taken.map Prod.fst) : served.1.Waits other := by
  obtain ⟨mode, hmem⟩ := hwaits
  rw [hserved.split] at hmem
  obtain htaken | hrest := mem_append.mp hmem
  · exact absurd (mem_map_of_mem htaken) hnot
  · exact ⟨mode, by rw [hserved.waiters]; exact hrest⟩

end LockEntry

namespace LockManager

def Has (manager : LockManager κ) (txn : TxnId) (key : κ) : Prop :=
  ∃ entry, manager.table[key]? = some entry ∧ entry.Has txn

def Names (manager : LockManager κ) (txn : TxnId) (key : κ) (mode : LockMode) : Prop :=
  ∃ entry, manager.table[key]? = some entry ∧ entry.Names txn mode

def Waits (manager : LockManager κ) (txn : TxnId) (key : κ) : Prop :=
  ∃ entry, manager.table[key]? = some entry ∧ entry.Waits txn

/-- The key is among those that a release of the transaction visits. -/
def Records (manager : LockManager κ) (txn : TxnId) (key : κ) : Prop :=
  (∃ keys, manager.heldLocks[txn]? = some keys ∧ key ∈ keys) ∨
    ∃ request, manager.pendingKeys[txn]? = some request ∧ key ∈ request

end LockManager

/-- Blocked transactions stand on all their keys, and those outside
`unchecked` wait for one.  Whoever stands on a key is on record for it, and
whoever waits for it is blocked with it, unless it is leaving the key. -/
structure Accounted (unchecked : List TxnId) (leaving : TxnId → κ → Prop)
    (manager : LockManager κ) : Prop where
  lawful : manager.Lawful
  recorded : ∀ txn key, manager.Has txn key → manager.Records txn key ∨ leaving txn key
  present : ∀ txn request, manager.pendingKeys[txn]? = some request →
    ∀ key ∈ request, manager.Has txn key
  waits : ∀ txn request, manager.pendingKeys[txn]? = some request → txn ∉ unchecked →
    ∃ key ∈ request, manager.Waits txn key
  queued : ∀ txn key, manager.Waits txn key →
    (∃ request, manager.pendingKeys[txn]? = some request ∧ key ∈ request) ∨ leaving txn key

/-- Between two calls nobody is unchecked or leaving. -/
abbrev AllAccounted (manager : LockManager κ) : Prop :=
  Accounted [] (fun _ _ => False) manager

variable [TransOrd κ] [LawfulEqOrd κ]

namespace LockManager

/-! ## Records -/

theorem heldLocks_finishReady (manager : LockManager κ) (txn : TxnId)
    (request : LockRequest κ) (other : TxnId) (key : κ) :
    (∃ keys, (manager.finishReady txn request).heldLocks[other]? = some keys ∧ key ∈ keys) ↔
      (∃ keys, manager.heldLocks[other]? = some keys ∧ key ∈ keys) ∨
        (other = txn ∧ key ∈ request) := by
  unfold finishReady
  by_cases heq : other = txn
  · subst heq
    rw [TreeMap.getElem?_alter_self]
    simp only [Option.some.injEq, exists_eq_left', mem_foldl_insert, TreeMap.mem_keys, true_and]
    cases manager.heldLocks[other]? with
    | none => simp
    | some keys =>
      simp only [Option.getD_some, Option.some.injEq, exists_eq_left']
      tauto
  · rw [getElem?_alter_ne _ heq]
    simp [heq]

theorem mem_fullRequest (manager : LockManager κ) (txn : TxnId) (keys : LockRequest κ)
    {request : LockRequest κ} (hpending : manager.pendingKeys[txn]? = some request)
    {key : κ} (hkey : key ∈ request) : key ∈ manager.fullRequest txn keys := by
  rw [mem_iff_exists] at hkey ⊢
  unfold fullRequest
  rw [mergeRequest_getElem?, hpending, Option.getD_some]
  obtain ⟨mode, hmode⟩ := hkey
  rw [hmode]
  cases keys[key]? with
  | none => exact ⟨mode, rfl⟩
  | some asked => exact ⟨mode.merge asked, rfl⟩

theorem mem_releaseKeys (manager : LockManager κ) (txn : TxnId) (key : κ) :
    key ∈ (manager.releaseKeys txn).toList ↔ manager.Records txn key := by
  unfold releaseKeys Records
  rw [TreeSet.mem_toList, mem_foldl_insert, TreeMap.mem_keys]
  cases manager.heldLocks[txn]? <;> cases manager.pendingKeys[txn]? <;> simp [or_comm]

/-! ## Acquiring -/

variable {before after : LockManager κ} {txn : TxnId} {request : LockRequest κ}
  {conflict : LockEntry → LockMode → LockEntry → Prop}

section

variable {other : TxnId} {key : κ} (hresolves : Resolves before after txn request conflict)
include hresolves

omit [LawfulEqOrd κ]

theorem Resolves.has_cases (hhas : after.Has other key)
    (hconflict : ∀ mode entry entry', before.table[key]? = some entry →
      conflict entry mode entry' → entry'.Has other → other = txn ∨ entry.Has other) :
    (other = txn ∧ key ∈ request) ∨ before.Has other key := by
  obtain ⟨entry', hentry', hin⟩ := hhas
  obtain hsame | ⟨mode, hmode, hcases⟩ := hresolves.cases hentry'
  · exact .inr ⟨entry', hsame, hin⟩
  have hown : other = txn ∨ before.Has other key := by
    obtain htaken | ⟨entry, hentry, -, hrelated⟩ := hcases
    · exact (htaken.has_iff other).mp hin
    · exact (hconflict mode entry entry' hentry hrelated hin).imp_right fun h => ⟨entry, hentry, h⟩
  exact hown.imp_left fun heq => ⟨heq, mem_of_getElem? hmode⟩

omit [TransOrd κ]

theorem Resolves.has (hhas : before.Has other key)
    (hconflict : ∀ mode entry entry', request[key]? = some mode →
      before.table[key]? = some entry → entry.MustWait txn mode →
      conflict entry mode entry' → entry.Has other → entry'.Has other) : after.Has other key := by
  obtain ⟨entry, hentry, hin⟩ := hhas
  obtain ⟨entry', hentry', rfl | ⟨mode, hmode, hcases⟩⟩ := hresolves.becomes hentry
  · exact ⟨entry', hentry', hin⟩
  refine ⟨entry', hentry', ?_⟩
  obtain htaken | ⟨hwait, hrelated⟩ := hcases
  · exact (htaken.has_iff other).mpr (.inr ⟨entry, rfl, hin⟩)
  · exact hconflict mode entry entry' hmode hentry hwait hrelated hin

theorem Resolves.waits (hwaits : before.Waits other key)
    (hconflict : ∀ mode entry entry', conflict entry mode entry' →
      entry.Waits other → entry'.Waits other) : after.Waits other key := by
  obtain ⟨entry, hentry, hin⟩ := hwaits
  obtain ⟨entry', hentry', rfl | ⟨mode, -, hcases⟩⟩ := hresolves.becomes hentry
  · exact ⟨entry', hentry', hin⟩
  refine ⟨entry', hentry', ?_⟩
  obtain htaken | ⟨-, hrelated⟩ := hcases
  · exact (htaken.waits_iff other).mpr ⟨entry, rfl, hin⟩
  · exact hconflict mode entry entry' hrelated hin

theorem Resolves.waits_cases (hwaits : after.Waits other key) :
    before.Waits other key ∨ ∃ (mode : LockMode) (entry entry' : LockEntry),
      request[key]? = some mode ∧ before.table[key]? = some entry ∧
        conflict entry mode entry' ∧ entry'.Waits other := by
  obtain ⟨entry', hentry', hin⟩ := hwaits
  obtain hsame | ⟨mode, hmode, htaken | ⟨entry, hentry, -, hrelated⟩⟩ := hresolves.cases hentry'
  · exact .inl ⟨entry', hsame, hin⟩
  · exact .inl ((htaken.waits_iff other).mp hin)
  · exact .inr ⟨mode, entry, entry', hmode, hentry, hrelated, hin⟩

theorem Resolves.names {mode : LockMode} (hnames : after.Names other key mode)
    (hconflict : ∀ entry asked entry', before.table[key]? = some entry →
      conflict entry asked entry' → entry'.Names other mode →
        entry.Names other mode ∨ (other = txn ∧ LockEntry.Raised (some entry) txn asked mode)) :
    before.Names other key mode ∨ (other = txn ∧ ∃ asked, request[key]? = some asked ∧
      LockEntry.Raised before.table[key]? txn asked mode) := by
  obtain ⟨entry', hentry', hin⟩ := hnames
  obtain hsame | ⟨asked, hasked, htaken | ⟨entry, hentry, -, hrelated⟩⟩ :=
    hresolves.cases hentry'
  · exact .inl ⟨entry', hsame, hin⟩
  · exact (htaken.names hin).imp_right fun h => ⟨h.1, asked, hasked, h.2⟩
  · refine (hconflict entry asked entry' hentry hrelated hin).imp (fun h => ⟨entry, hentry, h⟩) ?_
    exact fun h => ⟨h.1, asked, hasked, hentry ▸ h.2⟩

end

/-- A wound takes no key from a reservation that is blocked on a request for
it. -/
def SparesBlocked (manager : LockManager κ) (txn : TxnId) (keys : LockRequest κ) : Prop :=
  manager.resolveConflict txn (manager.fullRequest txn keys) = .wound →
    ∀ item ∈ (manager.fullRequest txn keys).toList,
      manager.classify txn item.1 item.2 = .conflict →
        ∀ entry ∈ manager.table[item.1]?, ∀ holder ∈ entry.holders, holder.1 ≠ txn →
          ∀ request ∈ manager.pendingKeys[holder.1]?, item.1 ∉ request
  deriving Decidable

end LockManager

namespace LockManager

/-! ## A released key -/

section Released

variable {manager : LockManager κ} {gone : TxnId} {key : κ} {entry : LockEntry}
  {table : TreeMap κ LockEntry} {taken rest : List (TxnId × LockMode)}
  {served : LockEntry × List TxnId}
  (hreleases : Releases manager gone key entry table taken rest served)
include hreleases

variable {txn : TxnId} {place : κ} {stands : LockEntry → Prop}

omit [TransOrd κ] [LawfulEqOrd κ]

theorem of_released (hserved : stands served.1 → txn ≠ gone ∧ stands entry)
    (h : ∃ found, table[place]? = some found ∧ stands found) :
    (∃ found, manager.table[place]? = some found ∧ stands found) ∧
      ¬ (txn = gone ∧ place = key) := by
  obtain ⟨found, hfound, hin⟩ := h
  obtain ⟨rfl, rfl, -⟩ | ⟨hplace, hold⟩ := hreleases.cases hfound
  · obtain ⟨hne, hin⟩ := hserved hin
    exact ⟨⟨entry, hreleases.found, hin⟩, fun hboth => hne hboth.1⟩
  · exact ⟨⟨found, hold, hin⟩, fun hboth => hplace hboth.2⟩

theorem released_of (hserved : place = key → stands entry → stands served.1)
    (hempty : served.1.holders = [] → served.1.waiters = [] → ¬ stands served.1)
    (h : ∃ found, manager.table[place]? = some found ∧ stands found) :
    ∃ found, table[place]? = some found ∧ stands found := by
  obtain ⟨found, hfound, hin⟩ := h
  by_cases hplace : place = key
  · subst hplace
    obtain rfl := Option.some.inj (hreleases.found.symm.trans hfound)
    obtain ⟨hsome, -⟩ | ⟨-, hholders, hrest⟩ := hreleases.here
    · exact ⟨served.1, hsome, hserved rfl hin⟩
    · exact absurd (hserved rfl hin) (hempty hholders (hreleases.serves.waiters.trans hrest))
  · exact ⟨found, (hreleases.others place hplace).trans hfound, hin⟩

theorem has_released (txn : TxnId) (place : κ) :
    Has { manager with table := table } txn place ↔
      manager.Has txn place ∧ ¬ (txn = gone ∧ place = key) := by
  have hstands : served.1.Has txn ↔ txn ≠ gone ∧ entry.Has txn := by
    rw [hreleases.serves.has_iff, LockEntry.leave_has_iff]
  refine ⟨of_released hreleases hstands.mp, fun ⟨hhas, hnot⟩ => released_of hreleases ?_ ?_ hhas⟩
  · exact fun hplace hin => hstands.mpr ⟨fun heq => hnot ⟨heq, hplace⟩, hin⟩
  · intro hholders hwaiters
    simp [LockEntry.Has, hholders, hwaiters]

theorem waits_of_released (hwaits : Waits { manager with table := table } txn place) :
    manager.Waits txn place ∧ ¬ (txn = gone ∧ place = key) := by
  refine of_released hreleases ?_ hwaits
  rintro ⟨mode, hmem⟩
  rw [hreleases.serves.waiters] at hmem
  refine (entry.leave_waits_iff gone txn).mp ⟨mode, ?_⟩
  rw [hreleases.serves.split]
  exact mem_append_right _ hmem

theorem waits_released (hne : txn ≠ gone) (hnot : txn ∉ taken.map Prod.fst)
    (hwaits : manager.Waits txn place) : Waits { manager with table := table } txn place := by
  refine released_of hreleases (fun _ hin => ?_) (fun _ hwaiters => ?_) hwaits
  · exact hreleases.serves.waits ((entry.leave_waits_iff gone txn).mpr ⟨hne, hin⟩) hnot
  · simp [LockEntry.Waits, hwaiters]

end Released

end LockManager

namespace Accounted

open LockManager

variable {manager : LockManager κ} {txn : TxnId} {keys : LockRequest κ} {gone : TxnId}

theorem acquire_ready {after : LockManager κ} (haccounted : AllAccounted manager)
    (hspares : manager.SparesBlocked txn keys) (hlawful : after.Lawful)
    (hpending : after.pendingKeys = manager.pendingKeys.erase txn) (hheld : after.heldLocks =
      (manager.finishReady txn (manager.fullRequest txn keys)).heldLocks)
    (hresolves : Resolves manager after txn (manager.fullRequest txn keys)
      fun entry mode entry' =>
        manager.resolveConflict txn (manager.fullRequest txn keys) = .wound ∧
          LockEntry.Wounded entry txn mode entry') : AllAccounted after := by
  have hothers : ∀ other request, after.pendingKeys[other]? = some request →
      other ≠ txn ∧ manager.pendingKeys[other]? = some request := by
    intro other request hrequest
    rwa [hpending, getElem?_erase_eq_some_iff] at hrequest
  refine ⟨hlawful, ?_, ?_, ?_, ?_⟩
  · intro other key hhas
    left
    have hcases : (other = txn ∧ key ∈ manager.fullRequest txn keys) ∨
        manager.Has other key := by
      refine hresolves.has_cases hhas ?_
      rintro mode entry entry' - ⟨-, hwounded⟩ hin
      unfold LockEntry.Has at hin
      rw [hwounded.after_eq, hwounded.waiters] at hin
      left
      simpa using hin
    unfold Records
    rw [hheld, hpending, heldLocks_finishReady]
    obtain hasked | hbefore := hcases
    · exact .inl (.inr hasked)
    · obtain hrecord | ⟨request, hrequest, hkey⟩ :=
        (haccounted.recorded other key hbefore).resolve_right id
      · exact .inl (.inl hrecord)
      · by_cases heq : other = txn
        · subst heq
          exact .inl (.inr ⟨rfl, manager.mem_fullRequest other keys hrequest hkey⟩)
        · exact .inr ⟨request, (getElem?_erase_ne _ heq).trans hrequest, hkey⟩
  · intro other request hrequest key hkey
    obtain ⟨hne, hbefore⟩ := hothers other request hrequest
    refine hresolves.has (haccounted.present other request hbefore key hkey) ?_
    rintro mode entry entry' hmode hentry hwait ⟨hwound, hwounded⟩ hin
    -- the blocked transaction would be wounded
    obtain ⟨held, hmem⟩ | ⟨asked, hmem⟩ := hin
    · obtain ⟨hconsistent, hholders⟩ := haccounted.lawful key entry hentry
      exact absurd hkey (hspares hwound (key, mode)
        (TreeMap.mem_toList_iff_getElem?_eq_some.mpr hmode)
        (classify_of_mustWait hentry hconsistent hholders hwait)
        entry hentry (other, held) hmem hne request hbefore)
    · rw [hwounded.waiters] at hmem
      cases hmem
  · intro other request hrequest _
    obtain ⟨-, hbefore⟩ := hothers other request hrequest
    obtain ⟨key, hkey, hwaits⟩ :=
      haccounted.waits other request hbefore not_mem_nil
    refine ⟨key, hkey, hresolves.waits hwaits ?_⟩
    rintro mode entry entry' ⟨-, hwounded⟩ ⟨asked, hmem⟩
    rw [hwounded.waiters] at hmem
    cases hmem
  · intro other key hwaits
    left
    obtain hbefore | ⟨mode, entry, entry', -, -, ⟨-, hwounded⟩, asked, hmem⟩ :=
      hresolves.waits_cases hwaits
    · obtain ⟨request, hrequest, hkey⟩ := (haccounted.queued other key hbefore).resolve_right id
      refine ⟨request, ?_, hkey⟩
      rw [hpending]
      refine (getElem?_erase_ne _ ?_).trans hrequest
      -- a request that waits for the key does not get it
      rintro rfl
      obtain ⟨mode, hmode⟩ := (mem_iff_exists _ _).mp
        (manager.mem_fullRequest other keys hrequest hkey)
      obtain ⟨entry, hentry, asked, hmem⟩ := hbefore
      obtain ⟨entry', -, htaken | ⟨old, hold, -, -, hwounded⟩⟩ :=
        hresolves.requested key mode hmode
      · exact htaken.not_mustWait hentry (haccounted.lawful key entry hentry).1 (.waits asked hmem)
      · obtain rfl := Option.some.inj (hold.symm.trans hentry)
        rw [hwounded.waiters] at hmem
        cases hmem
    · rw [hwounded.after_eq, hwounded.waiters] at hmem
      cases hmem

omit [LawfulEqOrd κ] in
theorem acquire_blocked {after : LockManager κ} {txn : TxnId} {request : LockRequest κ}
    (haccounted : AllAccounted manager) (hlawful : after.Lawful)
    (hgrows : ∀ pending, manager.pendingKeys[txn]? = some pending →
      ∀ key ∈ pending, key ∈ request)
    (hpending : after.pendingKeys = (manager.pendingKeys.erase txn).insert txn request)
    (hheld : after.heldLocks = manager.heldLocks)
    (hresolves : Resolves manager after txn request
      fun entry mode entry' => LockEntry.Queued entry txn mode entry')
    {key : κ} {mode : LockMode} {entry : LockEntry} (hmode : request[key]? = some mode)
    (hentry : manager.table[key]? = some entry) (hwait : entry.MustWait txn mode) :
    AllAccounted after := by
  have hself : after.pendingKeys[txn]? = some request := by
    rw [hpending]
    exact TreeMap.getElem?_insert_self
  have hothers : ∀ other, other ≠ txn →
      after.pendingKeys[other]? = manager.pendingKeys[other]? := by
    intro other hne
    rw [hpending, getElem?_insert_ne _ hne, getElem?_erase_ne _ hne]
  refine ⟨hlawful, ?_, ?_, ?_, ?_⟩
  · intro other place hhas
    left
    obtain ⟨rfl, hplace⟩ | hbefore := hresolves.has_cases hhas
      (fun _ _ _ _ hqueued hin => (hqueued.has_iff other).mp hin)
    · exact .inr ⟨request, hself, hplace⟩
    · obtain hrecord | hrecord := (haccounted.recorded other place hbefore).resolve_right id
      · left
        rw [hheld]
        exact hrecord
      · obtain ⟨pending, hbefore, hplace⟩ := hrecord
        right
        by_cases heq : other = txn
        · subst heq
          exact ⟨request, hself, hgrows pending hbefore place hplace⟩
        · exact ⟨pending, (hothers other heq).trans hbefore, hplace⟩
  · intro other found hfound place hplace
    by_cases heq : other = txn
    · subst heq
      obtain rfl := Option.some.inj (hself.symm.trans hfound)
      obtain ⟨asked, hasked⟩ := (mem_iff_exists _ _).mp hplace
      obtain ⟨entry', hentry', htaken | ⟨old, -, -, hqueued⟩⟩ :=
        hresolves.requested place asked hasked
      · exact ⟨entry', hentry', (htaken.has_iff other).mpr (.inl rfl)⟩
      · exact ⟨entry', hentry', (hqueued.has_iff other).mpr (.inl rfl)⟩
    · have hbefore := (hothers other heq).symm.trans hfound
      exact hresolves.has (haccounted.present other found hbefore place hplace)
        fun _ _ _ _ _ _ hqueued hin => (hqueued.has_iff other).mpr (.inr hin)
  · intro other found hfound _
    by_cases heq : other = txn
    · subst heq
      obtain rfl := Option.some.inj (hself.symm.trans hfound)
      obtain ⟨entry', hentry', htaken | ⟨old, -, -, hqueued⟩⟩ :=
        hresolves.requested key mode hmode
      · exact absurd hwait
          (htaken.not_mustWait hentry (haccounted.lawful key entry hentry).1)
      · exact ⟨key, mem_of_getElem? hmode, entry', hentry',
          (hqueued.waits_iff other).mpr (.inl rfl)⟩
    · have hbefore := (hothers other heq).symm.trans hfound
      obtain ⟨place, hplace, hwaits⟩ := haccounted.waits other found hbefore not_mem_nil
      exact ⟨place, hplace, hresolves.waits hwaits
        fun _ _ _ hqueued hin => (hqueued.waits_iff other).mpr (.inr hin)⟩
  · intro other place hwaits
    left
    have hcases : (other = txn ∧ place ∈ request) ∨ manager.Waits other place := by
      obtain hbefore | ⟨asked, old, entry', hasked, hold, hqueued, hin⟩ :=
        hresolves.waits_cases hwaits
      · exact .inr hbefore
      · refine ((hqueued.waits_iff other).mp hin).imp ?_ fun hin => ⟨old, hold, hin⟩
        exact fun heq => ⟨heq, mem_of_getElem? hasked⟩
    obtain ⟨rfl, hplace⟩ | hbefore := hcases
    · exact ⟨request, hself, hplace⟩
    · obtain ⟨pending, hold, hplace⟩ := (haccounted.queued other place hbefore).resolve_right id
      by_cases heq : other = txn
      · subst heq
        exact ⟨request, hself, hgrows pending hold place hplace⟩
      · exact ⟨pending, (hothers other heq).trans hold, hplace⟩

theorem acquire (haccounted : AllAccounted manager)
    (hspares : manager.SparesBlocked txn keys) : AllAccounted (manager.acquire txn keys).2 := by
  have hlawful := haccounted.lawful.acquire txn keys
  obtain ⟨-, hpending, hheld, hresolves⟩ |
      ⟨-, -, hpending, hheld, hresolves, key, mode, entry, hmode, hentry, hwait⟩ :=
    acquire_resolves haccounted.lawful txn keys
  · exact haccounted.acquire_ready hspares hlawful hpending hheld hresolves
  · exact haccounted.acquire_blocked hlawful
      (fun pending hbefore key hkey => manager.mem_fullRequest txn keys hbefore hkey)
      hpending hheld hresolves hmode hentry hwait

theorem tryAcquire (haccounted : AllAccounted manager) (txn : TxnId)
    (keys : LockRequest κ) : AllAccounted (manager.tryAcquire txn keys).2 := by
  obtain hsame | ⟨hpending, hheld, hresolves⟩ :=
    tryAcquire_resolves haccounted.lawful txn keys
  · rw [hsame]
    exact haccounted
  refine ⟨haccounted.lawful.tryAcquire txn keys, ?_, ?_, ?_, ?_⟩
  · intro other key hhas
    left
    unfold Records
    rw [hpending, hheld, heldLocks_finishReady]
    obtain hasked | hbefore := hresolves.has_cases hhas fun _ _ _ _ hfalse => hfalse.elim
    · exact .inl (.inr hasked)
    · obtain hrecord | hrecord := (haccounted.recorded other key hbefore).resolve_right id
      · exact .inl (.inl hrecord)
      · exact .inr hrecord
  · intro other request hrequest key hkey
    rw [hpending] at hrequest
    exact hresolves.has (haccounted.present other request hrequest key hkey)
      fun _ _ _ _ _ _ hfalse => hfalse.elim
  · intro other request hrequest hchecked
    rw [hpending] at hrequest
    obtain ⟨key, hkey, hwaits⟩ := haccounted.waits other request hrequest hchecked
    exact ⟨key, hkey, hresolves.waits hwaits fun _ _ _ hfalse => hfalse.elim⟩
  · intro other key hwaits
    rw [hpending]
    obtain hbefore | ⟨_, _, _, _, _, hfalse, _⟩ := hresolves.waits_cases hwaits
    · exact haccounted.queued other key hbefore
    · exact hfalse.elim

/-! ## Releasing -/

variable {unchecked : List TxnId} {leaving : TxnId → κ → Prop}
  {state : LockManager κ × TreeSet TxnId}

theorem checkReady {next : TxnId} (haccounted : Accounted (next :: unchecked) leaving state.1) :
    Accounted unchecked leaving (LockManager.checkReady state next).1 := by
  obtain ⟨hsame, hlacks⟩ | ⟨pending, hpending, hholds, htable, herased, hheld, -⟩ :=
    checkReady_cases state next
  · rw [hsame]
    refine ⟨haccounted.lawful, haccounted.recorded, haccounted.present, ?_, haccounted.queued⟩
    intro txn request hrequest hchecked
    by_cases heq : txn = next
    · subst heq
      obtain ⟨key, hkey, hnot⟩ := hlacks request hrequest
      obtain ⟨entry, hentry, ⟨mode, hmem⟩ | hwaits⟩ :=
        haccounted.present txn request hrequest key hkey
      · have hholds : entry.holds txn = true :=
          any_eq_true.mpr ⟨(txn, mode), hmem, decide_eq_true rfl⟩
        cases (hnot entry hentry).symm.trans hholds
      · exact ⟨key, hkey, entry, hentry, hwaits⟩
    · exact haccounted.waits txn request hrequest (by simp [heq, hchecked])
  · have hothers : ∀ txn request,
        (LockManager.checkReady state next).1.pendingKeys[txn]? = some request →
          txn ≠ next ∧ state.1.pendingKeys[txn]? = some request := by
      intro txn request hrequest
      rwa [herased, getElem?_erase_eq_some_iff] at hrequest
    refine ⟨?_, ?_, ?_, ?_, ?_⟩
    · unfold Lawful
      rw [htable]
      exact haccounted.lawful
    · unfold Has Records
      rw [htable, hheld, herased]
      intro txn key hhas
      rw [heldLocks_finishReady]
      obtain (hrecord | ⟨request, hrequest, hkey⟩) | hleaving :=
        haccounted.recorded txn key hhas
      · exact .inl (.inl (.inl hrecord))
      · by_cases heq : txn = next
        · subst heq
          obtain rfl := Option.some.inj (hpending.symm.trans hrequest)
          exact .inl (.inl (.inr ⟨rfl, hkey⟩))
        · exact .inl (.inr ⟨request, (getElem?_erase_ne _ heq).trans hrequest, hkey⟩)
      · exact .inr hleaving
    · intro txn request hrequest
      unfold Has
      rw [htable]
      exact haccounted.present txn request (hothers txn request hrequest).2
    · intro txn request hrequest hchecked
      obtain ⟨hne, hbefore⟩ := hothers txn request hrequest
      unfold Waits
      rw [htable]
      exact haccounted.waits txn request hbefore (by simp [hne, hchecked])
    · unfold Waits
      rw [htable, herased]
      intro txn key hwaits
      refine (haccounted.queued txn key hwaits).imp_left ?_
      rintro ⟨request, hrequest, hkey⟩
      refine ⟨request, (getElem?_erase_ne _ ?_).trans hrequest, hkey⟩
      -- whoever is promoted holds all its keys
      rintro rfl
      obtain rfl := Option.some.inj (hpending.symm.trans hrequest)
      obtain ⟨mode, hmode⟩ := (mem_iff_exists _ _).mp hkey
      obtain ⟨entry, hentry, hin⟩ :=
        hholds (key, mode) (TreeMap.mem_toList_iff_getElem?_eq_some.mpr hmode)
      obtain ⟨found, hfound, asked, hwaiter⟩ := hwaits
      obtain rfl := Option.some.inj (hentry.symm.trans hfound)
      obtain ⟨holder, hholder, heq⟩ := any_eq_true.mp hin
      exact (haccounted.lawful key entry hentry).1.waiterHoldsNot _ hwaiter holder hholder
        (of_decide_eq_true heq)

theorem foldl_checkReady {granted : List TxnId} (haccounted : Accounted granted leaving state.1) :
    Accounted [] leaving (granted.foldl LockManager.checkReady state).1 := by
  induction granted generalizing state with
  | nil => exact haccounted
  | cons next rest ih => exact ih haccounted.checkReady

omit [Ord κ] [TransOrd κ] [LawfulEqOrd κ] in
theorem leaving_rest {key place : κ} {rest : List κ} (hnot : ¬ (txn = gone ∧ place = key))
    (h : txn = gone ∧ place ∈ key :: rest) : txn = gone ∧ place ∈ rest :=
  ⟨h.1, (mem_cons.mp h.2).resolve_left fun heq => hnot ⟨h.1, heq⟩⟩

theorem releaseKey {key : κ} {rest : List κ}
    (haccounted : Accounted [] (fun txn place => txn = gone ∧ place ∈ key :: rest) state.1)
    (hgone : state.1.pendingKeys[gone]? = none) :
    Accounted [] (fun txn place => txn = gone ∧ place ∈ rest)
      (LockManager.releaseKey gone state key).1 := by
  cases hentry : state.1.table[key]? with
  | none =>
    rw [releaseKey_none hentry]
    have hnot : ∀ {txn place entry}, state.1.table[place]? = some entry →
        ¬ (txn = gone ∧ place = key) := by
      rintro txn place entry hfound ⟨-, rfl⟩
      cases hentry.symm.trans hfound
    refine ⟨haccounted.lawful, ?_, haccounted.present, haccounted.waits, ?_⟩
    · rintro txn place ⟨entry, hfound, hin⟩
      exact (haccounted.recorded txn place ⟨entry, hfound, hin⟩).imp_right (leaving_rest (hnot hfound))
    · rintro txn place ⟨entry, hfound, hin⟩
      exact (haccounted.queued txn place ⟨entry, hfound, hin⟩).imp_right (leaving_rest (hnot hfound))
  | some entry =>
    have hlawful := (haccounted.lawful.releaseKey (fun _ _ _ => trivial)
      keptByService_true gone key).1
    obtain ⟨table, taken, left, served, hreleases, heq⟩ :=
      releaseKey_served gone hentry (haccounted.lawful key entry hentry).1
    rw [heq] at hlawful ⊢
    apply foldl_checkReady
    have hhas := has_released hreleases
    refine ⟨?_, ?_, ?_, ?_, ?_⟩
    · unfold Lawful at hlawful
      rw [foldl_checkReady_table] at hlawful
      exact hlawful
    · intro txn place hstands
      obtain ⟨hbefore, hnot⟩ := (hhas txn place).mp hstands
      exact (haccounted.recorded txn place hbefore).imp_right (leaving_rest hnot)
    · intro txn request hrequest place hplace
      refine (hhas txn place).mpr
        ⟨haccounted.present txn request hrequest place hplace, ?_⟩
      rintro ⟨rfl, -⟩
      cases hgone.symm.trans hrequest
    · intro txn request hrequest hchecked
      obtain ⟨place, hplace, hwaits⟩ :=
        haccounted.waits txn request hrequest not_mem_nil
      have hne : txn ≠ gone := by
        rintro rfl
        cases hgone.symm.trans hrequest
      exact ⟨place, hplace, waits_released hreleases hne hchecked hwaits⟩
    · intro txn place hwaits
      obtain ⟨hbefore, hnot⟩ := waits_of_released hreleases hwaits
      exact (haccounted.queued txn place hbefore).imp_right (leaving_rest hnot)

theorem releaseKey_pendingKeys (gone : TxnId) (key : κ) (hnone : state.1.pendingKeys[txn]? = none) :
    (LockManager.releaseKey gone state key).1.pendingKeys[txn]? = none := by
  cases hentry : state.1.table[key]? with
  | none =>
    rw [releaseKey_none hentry]
    exact hnone
  | some entry =>
    obtain ⟨table, heq, -⟩ := releaseKey_table gone hentry
    rw [heq]
    refine List.foldlRecOn (motive := fun state : LockManager κ × TreeSet TxnId =>
      state.1.pendingKeys[txn]? = none) _ _ ?_ ?_
    · exact hnone
    intro state hstate next _
    obtain ⟨hsame, -⟩ | ⟨_, _, _, _, herased, _⟩ := checkReady_cases state next
    · rw [hsame]
      exact hstate
    · rw [herased, TreeMap.getElem?_erase, hstate, ite_self]

theorem foldl_releaseKey {keys : List κ}
    (haccounted : Accounted [] (fun txn place => txn = gone ∧ place ∈ keys) state.1)
    (hgone : state.1.pendingKeys[gone]? = none) :
    AllAccounted (keys.foldl (LockManager.releaseKey gone) state).1 := by
  induction keys generalizing state with
  | nil => simpa using haccounted
  | cons key rest ih =>
    exact ih (haccounted.releaseKey hgone) (releaseKey_pendingKeys gone key hgone)

theorem release (haccounted : AllAccounted manager) (gone : TxnId) :
    AllAccounted (manager.release gone).2 := by
  refine foldl_releaseKey ⟨haccounted.lawful, ?_, ?_, ?_, ?_⟩ TreeMap.getElem?_erase_self
  · intro txn key hhas
    have hrecord := (haccounted.recorded txn key hhas).resolve_right id
    by_cases heq : txn = gone
    · subst heq
      exact .inr ⟨rfl, (manager.mem_releaseKeys txn key).mpr hrecord⟩
    · left
      unfold Records
      rw [getElem?_erase_ne _ heq, getElem?_erase_ne _ heq]
      exact hrecord
  · intro txn request hrequest
    exact haccounted.present txn request (getElem?_erase_eq_some_iff.mp hrequest).2
  · intro txn request hrequest
    exact haccounted.waits txn request (getElem?_erase_eq_some_iff.mp hrequest).2
  · intro txn key hwaits
    have hrequest := (haccounted.queued txn key hwaits).resolve_right id
    by_cases heq : txn = gone
    · subst heq
      exact .inr ⟨rfl, (manager.mem_releaseKeys txn key).mpr (.inr hrequest)⟩
    · left
      rw [getElem?_erase_ne _ heq]
      exact hrequest

theorem reapExpiredShared (haccounted : AllAccounted manager)
    (epochThreshold : Nat) : AllAccounted (manager.reapExpiredShared epochThreshold).2 := by
  unfold LockManager.reapExpiredShared reapOwners
  exact List.foldlRecOn (motive := fun state : List TxnId × LockManager κ =>
    AllAccounted state.2) _ _ haccounted
    fun _ hstate owner _ => hstate.release owner

omit [TransOrd κ] [LawfulEqOrd κ] in
theorem not_pending_of_alone (haccounted : AllAccounted manager) {txn : TxnId}
    (halone : ∀ other, other ≠ txn →
      manager.heldLocks[other]? = none ∧ manager.pendingKeys[other]? = none) :
    manager.pendingKeys[txn]? = none := by
  cases hpending : manager.pendingKeys[txn]? with
  | none => rfl
  | some request =>
    exfalso
    obtain ⟨key, -, entry, hentry, mode, hwaiter⟩ :=
      haccounted.waits txn request hpending not_mem_nil
    obtain ⟨hconsistent, hheld⟩ := haccounted.lawful key entry hentry
    obtain ⟨⟨holder, held⟩, hmem⟩ := exists_mem_of_ne_nil _ hheld
    have hne : holder ≠ txn := by
      rintro rfl
      exact hconsistent.waiterHoldsNot _ hwaiter _ hmem rfl
    -- the key that the transaction waits for is held by another one
    obtain ⟨hnoLocks, hnoRequest⟩ := halone holder hne
    obtain ⟨keys, hlocks, -⟩ | ⟨asked, hasked, -⟩ :=
      (haccounted.recorded holder key ⟨entry, hentry, .inl ⟨held, hmem⟩⟩).resolve_right id
    · cases hnoLocks.symm.trans hlocks
    · cases hnoRequest.symm.trans hasked

end Accounted

/-! ## Runs -/

namespace LockCall

/-- No acquire wounds a reservation that is blocked on a request for the
wounded key. -/
def SparesBlocked (run : LockRun κ) : LockCall κ → Prop
  | acquire txn keys => run.manager.SparesBlocked txn keys
  | acquireShared txn key => run.manager.SparesBlocked txn (.single key .shared)
  | _ => True

instance (run : LockRun κ) (call : LockCall κ) : Decidable (SparesBlocked run call) :=
  match call with
  | acquire txn keys => inferInstanceAs (Decidable (run.manager.SparesBlocked txn keys))
  | acquireShared txn _ => inferInstanceAs (Decidable (run.manager.SparesBlocked txn _))
  | tryAcquire .. | release _ | reapExpiredShared _ => isTrue trivial

theorem accounted_perform {run : LockRun κ}
    (haccounted : AllAccounted run.manager) {call : LockCall κ}
    (hspares : call.SparesBlocked run) : AllAccounted (call.perform run).manager := by
  cases call with
  | acquire txn keys | acquireShared txn key => exact haccounted.acquire hspares
  | tryAcquire txn keys => exact haccounted.tryAcquire txn keys
  | release txn => exact haccounted.release txn
  | reapExpiredShared epochThreshold => exact haccounted.reapExpiredShared epochThreshold

end LockCall

omit [LawfulEqOrd κ] in
theorem accounted_new : AllAccounted (LockManager.new : LockManager κ) := by
  constructor <;> simp [LockManager.new, LockManager.Lawful, LockManager.Has, LockManager.Waits]

/-- If no acquire wounds a reservation that is blocked on a request for the
wounded key, every blocked transaction holds or waits for each key of its
request and waits for one of them.  When every other transaction has released,
it is not blocked. -/
theorem pending_of_run (calls : List (LockCall κ))
    (hspares : StepRuns.Along LockCall.perform LockCall.SparesBlocked LockRun.start calls) :
    let manager := (calls.foldl LockCall.perform LockRun.start).manager
    (∀ (txn : TxnId) (request : LockRequest κ), manager.pendingKeys[txn]? = some request →
      (∀ key ∈ request, ∃ entry : LockEntry, manager.table[key]? = some entry ∧
        (entry.holds txn = true ∨ entry.hasWaiter txn = true)) ∧
      ∃ key ∈ request, ∃ entry : LockEntry, manager.table[key]? = some entry ∧
        entry.hasWaiter txn = true) ∧
    ∀ txn : TxnId, (∀ other, other ≠ txn →
      manager.heldLocks[other]? = none ∧ manager.pendingKeys[other]? = none) →
        manager.pendingKeys[txn]? = none := by
  intro manager
  have haccounted : AllAccounted manager :=
    StepRuns.invariant_foldl
      (fun run : LockRun κ => AllAccounted run.manager)
      (fun run call haccounted hspares => LockCall.accounted_perform haccounted hspares)
      accounted_new hspares
  refine ⟨fun txn request hrequest => ⟨?_, ?_⟩,
    fun txn halone => haccounted.not_pending_of_alone halone⟩
  · intro key hkey
    obtain ⟨entry, hentry, ⟨mode, hmem⟩ | ⟨mode, hmem⟩⟩ :=
      haccounted.present txn request hrequest key hkey
    · exact ⟨entry, hentry, .inl
        (any_eq_true.mpr ⟨(txn, mode), hmem, decide_eq_true rfl⟩)⟩
    · exact ⟨entry, hentry, .inr ((entry.hasWaiter_iff txn).mpr ⟨mode, hmem⟩)⟩
  · obtain ⟨key, hkey, entry, hentry, mode, hmem⟩ :=
      haccounted.waits txn request hrequest not_mem_nil
    exact ⟨key, hkey, entry, hentry, (entry.hasWaiter_iff txn).mpr ⟨mode, hmem⟩⟩

/-- A commit under an older id wounds a reservation that is not blocked, then
waits for a row reader of its other key. -/
theorem pending_of_run_wound :
    let reader : TxnId := ⟨5, TxnId.reservationPositionBand⟩
    let calls : List (LockCall Nat) :=
      [.acquireShared reader 0, .acquire ⟨1, 0⟩ (.single 0 .exclusive),
        .acquire ⟨2, 0⟩ (.single 1 .intentShared),
        .acquire ⟨2, 1⟩ ((LockRequest.single 1 .exclusive).insert 2 .exclusive)]
    let manager := (calls.foldl LockCall.perform LockRun.start).manager
    (∃ entry : LockEntry, manager.table[1]? = some entry ∧
        entry.hasWaiter ⟨2, 1⟩ = true) ∧
      ∀ txn : TxnId, (∀ other, other ≠ txn →
        manager.heldLocks[other]? = none ∧ manager.pendingKeys[other]? = none) →
          manager.pendingKeys[txn]? = none := by
  intro reader calls manager
  have hwaits : manager.table[1]? = some
      { mode := .intentShared, holders := [(⟨2, 0⟩, .intentShared)],
        waiters := [(⟨2, 1⟩, .exclusive)] } := by decide
  exact ⟨⟨_, hwaits, by decide⟩, (pending_of_run calls (by decide)).2⟩

/-- A blocked reservation loses a key that it holds to the commit of an older
one.  All others release, and it is left waiting for nobody. -/
theorem pending_alone_of_wound :
    let older : TxnId := ⟨2, TxnId.reservationPositionBand⟩
    let reader : TxnId := ⟨5, TxnId.reservationPositionBand⟩
    let calls : List (LockCall Nat) :=
      [.acquireShared older 2, .acquire ⟨4, 0⟩ (.single 0 .exclusive),
        .acquireShared reader 0, .acquireShared reader 1,
        .acquire older (.single 1 .exclusive), .release ⟨4, 0⟩, .release older]
    let manager := (calls.foldl LockCall.perform LockRun.start).manager
    manager.heldLocks.toList = [] ∧
      manager.pendingKeys.toList.map (fun item => (item.1, item.2.toList)) =
        [(reader, [(0, .shared), (1, .shared)])] ∧
      manager.table.toList =
        [(0, { mode := .shared, holders := [(reader, .shared)], waiters := [] })] := by
  decide

end NodeDB.Calvin
