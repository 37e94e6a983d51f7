import NodeDB.KeyedFold
import NodeDB.LockEntryInvariant
import NodeDB.LockManager

/-!
# Requests of the Calvin lock manager

A request needs, on each of its keys, the mode it asks for merged with what
its owner holds there.  An acquire that is ready holds all of that.  One that
blocks leaves holds and waits whose modes cover it.
-/

namespace NodeDB.Calvin

open Std TreeMap KeyedFold LockEntry Option

variable {κ : Type} [Ord κ]

namespace LockManager

/-- The modes a request asks for, each merged with what `txn` holds. -/
def needs (manager : LockManager κ) (txn : TxnId) (request : LockRequest κ) :
    LockRequest κ :=
  request.map fun key mode => LockEntry.neededAt manager.table[key]? txn mode

/-- The transaction holds each key of `needed`, in a mode that covers it. -/
def HoldsAll (manager : LockManager κ) (txn : TxnId) (needed : LockRequest κ) : Prop :=
  ∀ item ∈ needed.toList, ∃ entry ∈ manager.table[item.1]?,
    ∃ held ∈ entry.modeOf txn, held.Covers item.2
  deriving Decidable

/-- The transaction waits on no key of `keys`, or only in a mode that covers
the one asked for. -/
def WaitsCover (manager : LockManager κ) (txn : TxnId) (keys : LockRequest κ) : Prop :=
  ∀ item ∈ keys.toList, ∀ entry ∈ manager.table[item.1]?,
    ∀ waiter ∈ entry.waiters, waiter.1 = txn → waiter.2.Covers item.2
  deriving Decidable

/-- A blocked transaction has a key that no release of the transactions in
`leaving` will hand to it. -/
def HeldUp (manager : LockManager κ) (leaving : List TxnId) (txn : TxnId) : Prop :=
  ∀ request ∈ manager.pendingKeys[txn]?, ∃ item ∈ request.toList,
    ∀ entry ∈ manager.table[item.1]?, entry.HeldUp leaving txn
  deriving Decidable

def HeldUpInTurn (manager : LockManager κ) (done : List TxnId) : List TxnId → Prop
  | [] => True
  | txn :: rest =>
    (done ≠ [] → manager.HeldUp done txn) ∧ manager.HeldUpInTurn (done ++ [txn]) rest

instance decidableHeldUpInTurn (manager : LockManager κ) :
    (done owners : List TxnId) → Decidable (manager.HeldUpInTurn done owners)
  | _, [] => inferInstanceAs (Decidable True)
  | done, txn :: rest =>
    have := decidableHeldUpInTurn manager (done ++ [txn]) rest
    inferInstanceAs (Decidable (_ ∧ _))

end LockManager

/-! ## The invariant -/

/-- The request `txn` waits on, against the modes it needs. -/
structure Awaits (manager : LockManager κ) (txn : TxnId)
    (request needed : LockRequest κ) : Prop where
  requested : ∀ (key : κ) (mode : LockMode), needed[key]? = some mode →
    ∃ asked, request[key]? = some asked
  covered : ∀ (key : κ) (asked : LockMode), request[key]? = some asked →
    ∃ mode, needed[key]? = some mode ∧ mode.Covers asked ∧
      ∀ entry, manager.table[key]? = some entry → entry.ModesCover txn mode

structure Sound (latest : TreeMap TxnId (LockRequest κ)) (manager : LockManager κ) :
    Prop where
  tidy : ∀ (key : κ) (entry : LockEntry), manager.table[key]? = some entry → entry.Tidy
  pending : ∀ (txn : TxnId) (request : LockRequest κ), manager.pendingKeys[txn]? = some request →
    txn.isAutocommit = false ∧
      ∃ needed, latest[txn]? = some needed ∧ Awaits manager txn request needed

def Granted (latest : TreeMap TxnId (LockRequest κ)) (manager : LockManager κ)
    (txn : TxnId) : Prop :=
  ∃ needed ∈ latest[txn]?, manager.HoldsAll txn needed
  deriving Decidable

variable [TransOrd κ] [LawfulEqOrd κ]

namespace LockManager

theorem holdsAll_iff (manager : LockManager κ) (txn : TxnId) (needed : LockRequest κ) :
    manager.HoldsAll txn needed ↔ ∀ (key : κ) (mode : LockMode), needed[key]? = some mode →
      ∃ entry, manager.table[key]? = some entry ∧
        ∃ held, entry.modeOf txn = some held ∧ held.Covers mode := by
  constructor
  · intro hall key mode hkey
    exact hall (key, mode) (mem_toList_iff_getElem?_eq_some.mpr hkey)
  · rintro hall ⟨key, mode⟩ hmem
    exact hall key mode (mem_toList_iff_getElem?_eq_some.mp hmem)

theorem needs_getElem? (manager : LockManager κ) (txn : TxnId) (request : LockRequest κ) (key : κ) :
    (manager.needs txn request)[key]? =
      (request[key]?).map (LockEntry.neededAt manager.table[key]? txn) := by
  unfold needs
  rw [getElem?_map]

theorem mergeRequest_getElem? (pending keys : LockRequest κ) (key : κ) :
    (mergeRequest pending keys)[key]? =
      (keys[key]?).elim pending[key]? fun mode => addMode mode pending[key]? :=
  getElem?_foldl_toList_alter (fun _ mode => addMode mode) keys pending key

def settleEntry (manager : LockManager κ) (txn : TxnId)
    (settle : LockMode → Option LockEntry → Option LockEntry) (key : κ)
    (mode : LockMode) : Option LockEntry → Option LockEntry :=
  match manager.classify txn key mode with
  | .conflict => settle mode
  | _ => LockEntry.grant txn mode

omit [TransOrd κ] [LawfulEqOrd κ] in
theorem settleKeys_eq (manager : LockManager κ) (txn : TxnId)
    (request : LockRequest κ) (settle : LockMode → Option LockEntry → Option LockEntry) :
    manager.settleKeys txn request
        (fun settled key mode =>
          { settled with table := settled.table.alter key (settle mode) }) =
      { manager with
        table := request.toList.foldl
          (fun table item =>
            table.alter item.1 (manager.settleEntry txn settle item.1 item.2))
          manager.table } := by
  refine List.foldl_hom (fun table => { manager with table := table }) ?_
  rintro table ⟨key, mode⟩
  unfold settleEntry
  dsimp only
  cases manager.classify txn key mode <;> rfl

/-! ## Settling a request -/

/-- A request was settled key by key, and nothing else in the table
changed. -/
structure Settles (before after : LockManager κ) (txn : TxnId)
    (request : LockRequest κ) : Prop where
  requested : ∀ (key : κ) (mode : LockMode), request[key]? = some mode →
    ∃ entry, after.table[key]? = some entry ∧
      LockEntry.Settled before.table[key]? txn mode entry
  others : ∀ key : κ, request[key]? = none → after.table[key]? = before.table[key]?

/-- Each key of the request was settled on its own: a conflict by `settle`, any
other key by a grant. -/
def SettledBy (settle : LockMode → Option LockEntry → Option LockEntry)
    (before after : LockManager κ) (txn : TxnId) (request : LockRequest κ) : Prop :=
  ∀ key : κ, after.table[key]? = (request[key]?).elim before.table[key]? fun mode =>
    before.settleEntry txn settle key mode before.table[key]?

theorem settledBy_settleKeys (manager : LockManager κ) (txn : TxnId)
    (request : LockRequest κ) (settle : LockMode → Option LockEntry → Option LockEntry) :
    SettledBy settle manager
      (manager.settleKeys txn request fun settled key mode =>
        { settled with table := settled.table.alter key (settle mode) }) txn request := by
  intro key
  rw [settleKeys_eq]
  exact getElem?_foldl_toList_alter (manager.settleEntry txn settle) request
    manager.table key

variable {manager : LockManager κ} {txn : TxnId} {key : κ} {mode : LockMode}
  {keys : LockRequest κ}

section

omit [TransOrd κ] [LawfulEqOrd κ]

theorem hasWaiter_of_classify (htidy : ∀ entry, manager.table[key]? = some entry → entry.Tidy)
    (hclass : manager.classify txn key mode ≠ .conflict) :
    ∀ entry, manager.table[key]? = some entry → entry.hasWaiter txn = false := by
  intro entry hentry
  by_contra hwaits
  have hwaits := Bool.eq_true_of_not_eq_false hwaits
  rcases (entry.hasWaiter_iff txn).mp hwaits with ⟨queued, hmem⟩
  have hnone := (htidy entry hentry).waiterHoldsNot _ hmem
  apply hclass
  simp [classify, hentry, hnone, hwaits]

theorem exists_entry_of_conflict (hclass : manager.classify txn key mode = .conflict) :
    ∃ entry, manager.table[key]? = some entry := by
  cases hentry : manager.table[key]? with
  | none => simp [classify, hentry] at hclass
  | some entry => exact ⟨entry, rfl⟩

end

section

variable {settle : LockMode → Option LockEntry → Option LockEntry} {after : LockManager κ}
  {request : LockRequest κ} (hsettled : SettledBy settle manager after txn request)
include hsettled

omit [TransOrd κ] [LawfulEqOrd κ]

theorem SettledBy.requested (hmode : request[key]? = some mode) (P : LockEntry → Prop)
    (hgrant : manager.classify txn key mode ≠ .conflict →
      ∃ entry', LockEntry.grant txn mode manager.table[key]? = some entry' ∧ P entry')
    (hconflict : ∀ entry, manager.table[key]? = some entry →
      manager.classify txn key mode = .conflict →
      ∃ entry', settle mode (some entry) = some entry' ∧ P entry') :
    ∃ entry', after.table[key]? = some entry' ∧ P entry' := by
  rw [hsettled key, hmode, elim_some]
  unfold settleEntry
  cases hclass : manager.classify txn key mode with
  | conflict =>
    obtain ⟨entry, hentry⟩ := exists_entry_of_conflict hclass
    rw [hentry]
    exact hconflict entry hentry hclass
  | free | held | join => exact hgrant (by simp [hclass])

theorem SettledBy.others (hnone : request[key]? = none) :
    after.table[key]? = manager.table[key]? := by
  rw [hsettled key, hnone, elim_none]

end

theorem SettledBy.settles {settle : LockMode → Option LockEntry → Option LockEntry}
    {after : LockManager κ} {request : LockRequest κ}
    (hsettled : SettledBy settle manager after txn request) (taken : Prop)
    (htidy : ∀ (key : κ) entry, manager.table[key]? = some entry → entry.Tidy)
    (hconflict : ∀ (key : κ) mode entry, request[key]? = some mode →
      manager.table[key]? = some entry → manager.classify txn key mode = .conflict →
        ∃ entry', settle mode (some entry) = some entry' ∧
          LockEntry.Settled (some entry) txn mode entry' ∧
          (taken → entry'.modeOf txn = some (LockEntry.neededAt (some entry) txn mode))) :
    Settles manager after txn request ∧
      (taken → after.HoldsAll txn (manager.needs txn request)) := by
  have hkey : ∀ (key : κ) mode, request[key]? = some mode →
      ∃ entry', after.table[key]? = some entry' ∧
        LockEntry.Settled manager.table[key]? txn mode entry' ∧
        (taken → entry'.modeOf txn =
          some (neededAt manager.table[key]? txn mode)) := by
    intro key mode hmode
    refine hsettled.requested hmode _ (fun hclass => ?_) fun entry hentry hclass => ?_
    · obtain ⟨entry', hgrant, hsettled, hheld⟩ :=
        settled_grant (htidy key) (hasWaiter_of_classify (htidy key) hclass) mode
      exact ⟨entry', hgrant, hsettled, fun _ => hheld⟩
    · rw [hentry]
      exact hconflict key mode entry hmode hentry hclass
  refine ⟨⟨?_, fun key => hsettled.others⟩, ?_⟩
  · intro key mode hmode
    rcases hkey key mode hmode with ⟨entry', hentry', hsettled, -⟩
    exact ⟨entry', hentry', hsettled⟩
  · intro htaken
    rw [holdsAll_iff]
    intro key needed hneeded
    rw [needs_getElem?] at hneeded
    rcases map_eq_some_iff.mp hneeded with ⟨mode, hmode, rfl⟩
    rcases hkey key mode hmode with ⟨entry', hentry', -, hheld⟩
    exact ⟨entry', hentry', _, hheld htaken, LockMode.covers_refl _⟩

omit [TransOrd κ] [LawfulEqOrd κ] in
theorem waiters_of_canWound {entry : LockEntry} (hentry : manager.table[key]? = some entry)
    (hwound : manager.canWound txn key = true) : entry.waiters = [] := by
  simp only [canWound, hentry, Bool.and_eq_true] at hwound
  exact List.isEmpty_iff.mp hwound.1.1

theorem classify_of_conflicts
    {request : LockRequest κ} (hnone : manager.conflicts txn request = false)
    (hmode : request[key]? = some mode) : manager.classify txn key mode ≠ .conflict := by
  have hmem := mem_toList_iff_getElem?_eq_some.mpr hmode
  have hitem := List.any_eq_false.mp hnone (key, mode) hmem
  simpa using hitem

theorem canWound_of_resolveConflict
    {request : LockRequest κ} (hwound : manager.resolveConflict txn request = .wound)
    (hmode : request[key]? = some mode)
    (hclass : manager.classify txn key mode = .conflict) : manager.canWound txn key = true := by
  unfold resolveConflict at hwound
  split at hwound
  next hall =>
    have hmem := mem_toList_iff_getElem?_eq_some.mpr hmode
    have hitem := List.all_eq_true.mp hall (key, mode) hmem
    simpa [hclass] using hitem
  next => cases hwound

/-- An acquire settles every key of its request: it takes those without a
conflict, and wounds or queues on the others. -/
theorem acquire_settled (manager : LockManager κ) (txn : TxnId) (keys : LockRequest κ) :
    let request := manager.fullRequest txn keys
    let outcome := (manager.acquire txn keys).1
    let after := (manager.acquire txn keys).2
    (outcome = .ready ∧ after.pendingKeys = manager.pendingKeys.erase txn ∧
        after.heldLocks = (manager.finishReady txn request).heldLocks ∧
        ∃ settle, SettledBy settle manager after txn request ∧
          ∀ (key : κ) mode, request[key]? = some mode →
            manager.classify txn key mode = .conflict → settle = LockEntry.wound txn ∧
              manager.resolveConflict txn request = .wound ∧ manager.canWound txn key = true) ∨
      (outcome = .blocked ∧ manager.resolveConflict txn request = .block ∧
        after.pendingKeys = (manager.pendingKeys.erase txn).insert txn request ∧
        after.heldLocks = manager.heldLocks ∧
        SettledBy (LockEntry.enqueue txn) manager after txn request ∧
        ∃ (key : κ) (mode : LockMode), request[key]? = some mode ∧
          manager.classify txn key mode = .conflict) := by
  intro request
  let base := { manager with pendingKeys := manager.pendingKeys.erase txn }
  have heq := settleKeys_eq base txn request
  have hsettled := settledBy_settleKeys base txn request
  unfold acquire
  by_cases hnone : base.conflicts txn request = false
  · rw [if_pos hnone]
    exact .inl ⟨rfl, congrArg (·.pendingKeys) (heq (LockEntry.grant txn)),
      congrArg (fun settled => (settled.finishReady txn request).heldLocks)
        (heq (LockEntry.grant txn)), _, hsettled (LockEntry.grant txn),
      fun key mode hmode hclass => absurd hclass (classify_of_conflicts hnone hmode)⟩
  rw [if_neg hnone]
  dsimp only
  split
  next hresolve =>
    exact .inl ⟨rfl, congrArg (·.pendingKeys) (heq (LockEntry.wound txn)),
      congrArg (fun settled => (settled.finishReady txn request).heldLocks)
        (heq (LockEntry.wound txn)), _, hsettled (LockEntry.wound txn),
      fun key mode hmode hclass =>
        ⟨rfl, hresolve, canWound_of_resolveConflict hresolve hmode hclass⟩⟩
  next hresolve =>
    obtain ⟨⟨key, mode⟩, hmem, hclass⟩ :=
      List.any_eq_true.mp (Bool.eq_true_of_not_eq_false hnone)
    exact .inr ⟨rfl, hresolve,
      congrArg (·.pendingKeys.insert txn request) (heq (LockEntry.enqueue txn)),
      congrArg (·.heldLocks) (heq (LockEntry.enqueue txn)), hsettled (LockEntry.enqueue txn), key,
      mode, mem_toList_iff_getElem?_eq_some.mp hmem, of_decide_eq_true hclass⟩

theorem acquire_cases (htidy : ∀ (key : κ) entry, manager.table[key]? = some entry → entry.Tidy)
    (hcover : ∀ (key : κ) mode entry, (manager.fullRequest txn keys)[key]? = some mode →
      manager.table[key]? = some entry →
      ∀ own, (txn, own) ∈ entry.waiters → own.Covers mode) :
    let request := manager.fullRequest txn keys
    let after := (manager.acquire txn keys).2
    Settles manager after txn request ∧
      (((manager.acquire txn keys).1 = .ready ∧
          after.pendingKeys = manager.pendingKeys.erase txn ∧
          after.HoldsAll txn (manager.needs txn request)) ∨
        ((manager.acquire txn keys).1 = .blocked ∧
          after.pendingKeys = (manager.pendingKeys.erase txn).insert txn request)) := by
  intro request after
  obtain ⟨hready, hpending, -, settle, hsettled, hwounds⟩ |
      ⟨hblocked, -, hpending, -, hsettled, -⟩ := acquire_settled manager txn keys
  · have hsettles := hsettled.settles True htidy fun key mode entry hmode hentry hclass => by
      obtain ⟨rfl, -, hwound⟩ := hwounds key mode hmode hclass
      obtain ⟨entry', hentry', hsettled, hheld⟩ :=
        settled_wound (waiters_of_canWound hentry hwound) txn mode
      exact ⟨entry', hentry', hsettled, fun _ => hheld⟩
    exact ⟨hsettles.1, .inl ⟨hready, hpending, hsettles.2 trivial⟩⟩
  · have hsettles := hsettled.settles False htidy fun key mode entry hmode hentry _ => by
      obtain ⟨entry', hentry', hsettled⟩ := settled_enqueue (htidy key entry hentry)
        (hcover key mode entry hmode hentry)
      exact ⟨entry', hentry', hsettled, False.elim⟩
    exact ⟨hsettles.1, .inr ⟨hblocked, hpending⟩⟩

omit [TransOrd κ] [LawfulEqOrd κ] in
theorem settleKeys_grant (manager : LockManager κ) (txn : TxnId) (request : LockRequest κ) :
    (manager.settleKeys txn request fun settled key mode => settled.grant txn key mode) =
      request.toList.foldl (fun granted item => granted.grant txn item.1 item.2) manager := by
  unfold settleKeys
  congr 1
  funext settled item
  dsimp only
  split <;> rfl

theorem tryAcquire_settled (manager : LockManager κ) (txn : TxnId) (keys : LockRequest κ) :
    let after := (manager.tryAcquire txn keys).2
    after = manager ∨ (manager.conflicts txn keys = false ∧
      after.pendingKeys = manager.pendingKeys ∧
      after.heldLocks = (manager.finishReady txn keys).heldLocks ∧
      SettledBy (LockEntry.grant txn) manager after txn keys) := by
  unfold tryAcquire
  split
  next => exact .inl rfl
  next hnone =>
    have heq := settleKeys_eq manager txn keys (LockEntry.grant txn)
    dsimp only
    rw [← settleKeys_grant]
    exact .inr ⟨Bool.eq_false_of_not_eq_true hnone, congrArg (·.pendingKeys) heq,
      congrArg (fun settled => (settled.finishReady txn keys).heldLocks) heq,
      settledBy_settleKeys manager txn keys (LockEntry.grant txn)⟩

theorem settles_tryAcquire
    (htidy : ∀ (key : κ) entry, manager.table[key]? = some entry → entry.Tidy) :
    let after := (manager.tryAcquire txn keys).2
    after = manager ∨
      (after.pendingKeys = manager.pendingKeys ∧ Settles manager after txn keys) := by
  obtain hsame | ⟨hnone, hpending, -, hsettled⟩ := tryAcquire_settled manager txn keys
  · exact .inl hsame
  · exact .inr ⟨hpending, (hsettled.settles True htidy fun key mode entry hmode _ hclass =>
      absurd hclass (classify_of_conflicts hnone hmode)).1⟩

/-! ## Blocked requests stay covered -/

namespace Settles

variable {before after : LockManager κ} {txn : TxnId} {request : LockRequest κ}

section

variable (hsettles : Settles before after txn request)
include hsettles

section

omit [TransOrd κ] [LawfulEqOrd κ]

theorem tidy (htidy : ∀ (key : κ) entry, before.table[key]? = some entry → entry.Tidy) :
    ∀ (key : κ) entry, after.table[key]? = some entry → entry.Tidy := by
  intro key entry hentry
  cases hmode : request[key]? with
  | none =>
    rw [hsettles.others key hmode] at hentry
    exact htidy key entry hentry
  | some mode =>
    rcases hsettles.requested key mode hmode with ⟨settled, hsettled, hspec⟩
    rw [hsettled] at hentry
    rw [← some.inj hentry]
    exact hspec.tidy

theorem awaits_other {other : TxnId} (hne : other ≠ txn) {asked needed : LockRequest κ}
    (hawaits : Awaits before other asked needed) : Awaits after other asked needed := by
  refine ⟨hawaits.requested, ?_⟩
  intro key mode hasked
  rcases hawaits.covered key mode hasked with ⟨need, hneed, hcovers, hentries⟩
  refine ⟨need, hneed, hcovers, ?_⟩
  intro entry hentry
  cases hmode : request[key]? with
  | none =>
    rw [hsettles.others key hmode] at hentry
    exact hentries entry hentry
  | some mode =>
    rcases hsettles.requested key mode hmode with ⟨settled, hsettled, hspec⟩
    rw [hsettled] at hentry
    rw [← some.inj hentry]
    exact hspec.others other hne need hentries

end

theorem awaits_own : Awaits after txn request (before.needs txn request) := by
  refine ⟨?_, ?_⟩
  · intro key mode hneeded
    rw [needs_getElem?] at hneeded
    rcases map_eq_some_iff.mp hneeded with ⟨asked, hasked, -⟩
    exact ⟨asked, hasked⟩
  · intro key asked hasked
    refine ⟨neededAt before.table[key]? txn asked, ?_, ?_, ?_⟩
    · rw [needs_getElem?, hasked]
      rfl
    · exact neededAt_covers _ txn asked
    · intro entry hentry
      rcases hsettles.requested key asked hasked with ⟨settled, hsettled, hspec⟩
      rw [hsettled] at hentry
      rw [← some.inj hentry]
      exact hspec.own

end

end Settles

theorem waits_cover_fullRequest {latest : TreeMap TxnId (LockRequest κ)}
    (hsound : Sound latest manager)
    (hwaits : manager.WaitsCover txn keys) :
    ∀ (key : κ) mode entry, (manager.fullRequest txn keys)[key]? = some mode →
      manager.table[key]? = some entry →
        ∀ own, (txn, own) ∈ entry.waiters → own.Covers mode := by
  intro key mode entry hmode hentry own hmem
  have hpending : ∀ held, ((manager.pendingKeys[txn]?).getD ∅)[key]? = some held →
      own.Covers held := by
    intro held hheld
    cases hrequest : manager.pendingKeys[txn]? with
    | none => simp [hrequest] at hheld
    | some request =>
      rw [hrequest] at hheld
      rcases hsound.pending txn request hrequest with ⟨-, needed, -, hawaits⟩
      rcases hawaits.covered key held hheld with ⟨need, -, hneed, hentries⟩
      exact ((hentries entry hentry).queued own hmem).trans hneed
  unfold fullRequest at hmode
  rw [mergeRequest_getElem?] at hmode
  cases hkey : keys[key]? with
  | none =>
    rw [hkey] at hmode
    exact hpending mode hmode
  | some asked =>
    have hasked : own.Covers asked :=
      hwaits (key, asked) (mem_toList_iff_getElem?_eq_some.mpr hkey) entry hentry
        (txn, own) hmem rfl
    rw [hkey, elim_some] at hmode
    cases hheld : ((manager.pendingKeys[txn]?).getD ∅)[key]? with
    | none =>
      rw [hheld] at hmode
      rw [← some.inj hmode]
      exact hasked
    | some held =>
      rw [hheld] at hmode
      rw [← some.inj hmode]
      exact (hpending held hheld).merge hasked

end LockManager

namespace Sound

variable {latest : TreeMap TxnId (LockRequest κ)} {manager : LockManager κ}

theorem acquire (hsound : Sound latest manager) {txn : TxnId}
    (hscheduled : txn.isAutocommit = false) {keys : LockRequest κ}
    (hwaits : manager.WaitsCover txn keys) :
    let needed := manager.needs txn (manager.fullRequest txn keys)
    Sound (latest.insert txn needed) (manager.acquire txn keys).2 ∧
      ((manager.acquire txn keys).1 = .ready →
        (manager.acquire txn keys).2.HoldsAll txn needed) := by
  intro needed
  have hcases := LockManager.acquire_cases hsound.tidy
    (LockManager.waits_cover_fullRequest hsound hwaits)
  rcases hcases with ⟨hsettles, houtcome⟩
  have hothers : ∀ other request, other ≠ txn →
      manager.pendingKeys[other]? = some request →
        other.isAutocommit = false ∧ ∃ needed', (latest.insert txn needed)[other]? =
          some needed' ∧ Awaits (manager.acquire txn keys).2 other request needed' := by
    intro other request hne hpending
    rcases hsound.pending other request hpending with ⟨hauto, wanted, hlatest, hawaits⟩
    refine ⟨hauto, wanted, ?_, hsettles.awaits_other hne hawaits⟩
    rw [getElem?_insert_ne latest hne]
    exact hlatest
  rcases houtcome with ⟨hready, hpending, hholds⟩ | ⟨hblocked, hpending⟩
  · refine ⟨⟨hsettles.tidy hsound.tidy, ?_⟩, fun _ => hholds⟩
    intro other request hother
    rw [hpending] at hother
    by_cases hne : other = txn
    · subst hne
      simp at hother
    · rw [getElem?_erase_ne _ hne] at hother
      exact hothers other request hne hother
  · refine ⟨⟨hsettles.tidy hsound.tidy, ?_⟩, fun hready => ?_⟩
    · intro other request hother
      rw [hpending] at hother
      by_cases hne : other = txn
      · subst hne
        rw [getElem?_insert_self] at hother
        rw [← some.inj hother]
        exact ⟨hscheduled, needed, getElem?_insert_self, hsettles.awaits_own⟩
      · rw [getElem?_insert_ne _ hne, getElem?_erase_ne _ hne] at hother
        exact hothers other request hne hother
    · rw [hready] at hblocked
      cases hblocked

theorem tryAcquire (hsound : Sound latest manager) {txn : TxnId}
    (hauto : txn.isAutocommit = true) (keys : LockRequest κ) :
    Sound latest (manager.tryAcquire txn keys).2 := by
  rcases LockManager.settles_tryAcquire hsound.tidy with hsame | ⟨hpending, hsettles⟩
  · rw [hsame]
    exact hsound
  · refine ⟨hsettles.tidy hsound.tidy, ?_⟩
    intro other request hother
    rw [hpending] at hother
    rcases hsound.pending other request hother with ⟨hscheduled, needed, hlatest, hawaits⟩
    have hne : other ≠ txn := by
      rintro rfl
      rw [hauto] at hscheduled
      cases hscheduled
    exact ⟨hscheduled, needed, hlatest, hsettles.awaits_other hne hawaits⟩

end Sound

end NodeDB.Calvin
