import NodeDB.LockEntry

/-!
# What the per-key operations do to holders and waiters

The group mode covers every holder's mode, no transaction waits twice on one
key, and no waiter holds the key it waits on.  Serving the queue grants a
stretch of waiters from the front and stops before the first one that a
holder's mode excludes.
-/

namespace NodeDB.Calvin

open List LockMode
namespace LockEntry

@[simp]
theorem regroup_holders (entry : LockEntry) : entry.regroup.holders = entry.holders := by
  unfold regroup
  split <;> simp_all

@[simp]
theorem regroup_waiters (entry : LockEntry) : entry.regroup.waiters = entry.waiters := by
  unfold regroup
  split <;> simp_all

theorem foldl_merge_covers (mode : LockMode) (holders : List (TxnId × LockMode)) :
    (holders.foldl (fun mode holder => mode.merge holder.2) mode).Covers mode ∧
      ∀ holder ∈ holders,
        (holders.foldl (fun mode holder => mode.merge holder.2) mode).Covers holder.2 := by
  induction holders generalizing mode with
  | nil => exact ⟨mode.covers_refl, by simp⟩
  | cons holder rest ih =>
    rcases ih (mode.merge holder.2) with ⟨hmode, hrest⟩
    refine ⟨hmode.trans (mode.merge_covers_left holder.2), ?_⟩
    intro other hmem
    rcases mem_cons.mp hmem with rfl | hmem
    · exact hmode.trans (mode.merge_covers_right other.2)
    · exact hrest other hmem

theorem regroup_covers (entry : LockEntry) :
    ∀ holder ∈ entry.regroup.holders, entry.regroup.mode.Covers holder.2 := by
  intro holder hmem
  rw [regroup_holders] at hmem
  unfold regroup
  split
  next hnil => simp [hnil] at hmem
  next first rest hholders =>
    rw [hholders] at hmem
    rcases foldl_merge_covers first.2 rest with ⟨hfirst, hrest⟩
    rcases mem_cons.mp hmem with rfl | hmem
    · exact hfirst
    · exact hrest holder hmem

/-! ## The mode of one transaction -/

theorem modeOf_regroup (entry : LockEntry) (txn : TxnId) :
    entry.regroup.modeOf txn = entry.modeOf txn := by
  simp [modeOf]

/-- The mode a requester needs on a key: its request, merged with what it
holds. -/
def neededMode (entry : LockEntry) (txn : TxnId) (mode : LockMode) : LockMode :=
  match entry.modeOf txn with
  | none => mode
  | some own => own.merge mode

def neededAt (entry : Option LockEntry) (txn : TxnId) (mode : LockMode) : LockMode :=
  entry.elim mode fun entry => entry.neededMode txn mode

theorem neededAt_covers (entry : Option LockEntry) (txn : TxnId) (mode : LockMode) :
    (neededAt entry txn mode).Covers mode := by
  cases entry with
  | none => exact mode.covers_refl
  | some entry =>
    unfold neededAt neededMode
    dsimp only [Option.elim_some]
    split
    · exact mode.covers_refl
    next own _ => exact own.merge_covers_right mode

private theorem find?_raise (holders : List (TxnId × LockMode)) (txn : TxnId)
    (mode : LockMode) :
    ((raise txn mode holders).find? fun holder => decide (holder.1 = txn)).map
        Prod.snd =
      some (match (holders.find? fun holder => decide (holder.1 = txn)).map
          Prod.snd with
        | none => mode
        | some own => own.merge mode) := by
  induction holders with
  | nil => simp [raise]
  | cons holder rest ih =>
    unfold raise
    by_cases heq : holder.1 = txn
    · simp [heq]
    · rw [if_neg heq]
      simp only [find?_cons, heq, decide_false]
      exact ih

private theorem find?_raise_ne (holders : List (TxnId × LockMode))
    {txn other : TxnId} (hne : other ≠ txn) (mode : LockMode) :
    (raise txn mode holders).find? (fun holder => decide (holder.1 = other)) =
      holders.find? fun holder => decide (holder.1 = other) := by
  induction holders with
  | nil => simp [raise, Ne.symm hne]
  | cons holder rest ih =>
    unfold raise
    by_cases heq : holder.1 = txn
    · simp [heq, Ne.symm hne]
    · simp only [if_neg heq, find?_cons, ih]

theorem modeOf_hold_self (entry : LockEntry) (txn : TxnId) (mode : LockMode) :
    (entry.hold txn mode).modeOf txn = some (entry.neededMode txn mode) := by
  unfold hold
  rw [modeOf_regroup]
  exact find?_raise entry.holders txn mode

variable {txn : TxnId} {entry : LockEntry} {mode : LockMode} {leaving : List TxnId}
  {ahead : List (TxnId × LockMode)}

variable {other : TxnId} {ahead' waiters : List (TxnId × LockMode)} {gone : TxnId}

theorem modeOf_hold_ne (entry : LockEntry) (hne : other ≠ txn) (mode : LockMode) :
    (entry.hold txn mode).modeOf other = entry.modeOf other := by
  unfold hold
  rw [modeOf_regroup]
  unfold modeOf
  rw [find?_raise_ne entry.holders hne mode]

theorem modeOf_dropHolder_self (entry : LockEntry) (txn : TxnId) :
    (entry.dropHolder txn).modeOf txn = none := by
  unfold dropHolder
  rw [modeOf_regroup]
  simp [modeOf]

theorem modeOf_dropHolder_ne (entry : LockEntry) (hne : other ≠ txn) :
    (entry.dropHolder txn).modeOf other = entry.modeOf other := by
  unfold dropHolder
  rw [modeOf_regroup]
  unfold modeOf
  rw [find?_filter]
  congr 2
  funext holder
  by_cases heq : holder.1 = other
  · simp [heq, hne]
  · simp [heq]

theorem holds_iff_modeOf (entry : LockEntry) (txn : TxnId) :
    entry.holds txn = true ↔ ∃ mode, entry.modeOf txn = some mode := by
  unfold holds modeOf
  rw [any_eq_true]
  constructor
  · rintro ⟨holder, hmem, heq⟩
    cases hfind : entry.holders.find? fun holder => decide (holder.1 = txn) with
    | none => exact absurd heq (find?_eq_none.mp hfind holder hmem)
    | some found => exact ⟨found.2, rfl⟩
  · rintro ⟨mode, hmode⟩
    rcases Option.map_eq_some_iff.mp hmode with ⟨found, hfind, -⟩
    have heq := find?_some hfind
    exact ⟨found, mem_of_find?_eq_some hfind, heq⟩

theorem mem_holders_of_modeOf
    (hmode : entry.modeOf txn = some mode) : (txn, mode) ∈ entry.holders := by
  rcases Option.map_eq_some_iff.mp hmode with ⟨found, hfind, rfl⟩
  have heq := find?_some hfind
  simp only [decide_eq_true_eq] at heq
  rw [← heq]
  exact mem_of_find?_eq_some hfind

theorem hasWaiter_iff (entry : LockEntry) (txn : TxnId) :
    entry.hasWaiter txn = true ↔ ∃ mode, (txn, mode) ∈ entry.waiters := by
  unfold hasWaiter
  rw [any_eq_true]
  constructor
  · rintro ⟨waiter, hmem, heq⟩
    simp only [decide_eq_true_eq] at heq
    exact ⟨waiter.2, by rw [← heq]; exact hmem⟩
  · rintro ⟨mode, hmem⟩
    exact ⟨_, hmem, by simp⟩

@[simp]
theorem hold_waiters (entry : LockEntry) (txn : TxnId) (mode : LockMode) :
    (entry.hold txn mode).waiters = entry.waiters := by
  simp [hold]

@[simp]
theorem dropHolder_waiters (entry : LockEntry) (txn : TxnId) :
    (entry.dropHolder txn).waiters = entry.waiters := by
  simp [dropHolder]

theorem exists_mem_raise {holders : List (TxnId × LockMode)}
    {holder : TxnId × LockMode} (hmem : holder ∈ holders) :
    ∃ stronger, (holder.1, stronger) ∈ raise txn mode holders ∧
      stronger.Covers holder.2 := by
  induction holders with
  | nil => simp at hmem
  | cons first rest ih =>
    unfold raise
    by_cases heq : first.1 = txn
    · rw [if_pos heq]
      rcases mem_cons.mp hmem with rfl | hmem
      · exact ⟨_, mem_cons_self, merge_covers_left _ _⟩
      · exact ⟨holder.2, mem_cons_of_mem _ hmem, covers_refl _⟩
    · rw [if_neg heq]
      rcases mem_cons.mp hmem with rfl | hmem
      · exact ⟨holder.2, mem_cons_self, covers_refl _⟩
      · rcases ih hmem with ⟨stronger, hstronger, hcovers⟩
        exact ⟨stronger, mem_cons_of_mem _ hstronger, hcovers⟩

theorem self_mem_raise (holders : List (TxnId × LockMode)) (txn : TxnId) (mode : LockMode) :
    ∃ stronger, (txn, stronger) ∈ raise txn mode holders ∧ stronger.Covers mode := by
  induction holders with
  | nil => exact ⟨mode, by simp [raise], covers_refl _⟩
  | cons first rest ih =>
    unfold raise
    by_cases heq : first.1 = txn
    · rw [if_pos heq, ← heq]
      exact ⟨_, mem_cons_self, merge_covers_right _ _⟩
    · rw [if_neg heq]
      rcases ih with ⟨stronger, hstronger, hcovers⟩
      exact ⟨stronger, mem_cons_of_mem _ hstronger, hcovers⟩

/-! ## Well-formed entries -/

/-- The mode covers every hold; none waits twice or while holding. -/
structure Tidy (entry : LockEntry) : Prop where
  grouped : ∀ holder ∈ entry.holders, entry.mode.Covers holder.2
  waitOnce : (entry.waiters.map Prod.fst).Nodup
  waiterHoldsNot : ∀ waiter ∈ entry.waiters, entry.modeOf waiter.1 = none

theorem Tidy.hold (htidy : entry.Tidy)
    (hwaits : ∀ mode, (txn, mode) ∉ entry.waiters) (mode : LockMode) :
    (entry.hold txn mode).Tidy where
  grouped := regroup_covers _
  waitOnce := by
    rw [hold_waiters]
    exact htidy.waitOnce
  waiterHoldsNot := by
    intro waiter hmem
    rw [hold_waiters] at hmem
    have hne : waiter.1 ≠ txn := by
      rintro rfl
      exact hwaits waiter.2 hmem
    rw [modeOf_hold_ne entry hne]
    exact htidy.waiterHoldsNot waiter hmem

theorem tidy_new (txn : TxnId) (mode : LockMode) :
    ({ mode := mode, holders := [(txn, mode)], waiters := [] } : LockEntry).Tidy where
  grouped := by simp [covers_refl]
  waitOnce := by simp
  waiterHoldsNot := by simp

theorem nodup_names_concat {records : List (TxnId × LockMode)}
    (honce : (records.map Prod.fst).Nodup) (habsent : ∀ record ∈ records, record.1 ≠ txn)
    (mode : LockMode) : ((records ++ [(txn, mode)]).map Prod.fst).Nodup := by
  rw [map_append, nodup_append]
  refine ⟨honce, nodup_singleton _, ?_⟩
  intro name hname new hnew
  obtain ⟨record, hmem, rfl⟩ := mem_map.mp hname
  rw [mem_singleton.mp hnew]
  exact habsent record hmem

private theorem tidy_queue {entry : LockEntry} (htidy : entry.Tidy) {txn : TxnId}
    (hwaits : ∀ mode, (txn, mode) ∉ entry.waiters)
    (hmode : entry.modeOf txn = none) (mode : LockMode) :
    ({ entry with waiters := entry.waiters ++ [(txn, mode)] } : LockEntry).Tidy where
  grouped := htidy.grouped
  waitOnce := by
    refine nodup_names_concat htidy.waitOnce ?_ mode
    rintro waiter hmem rfl
    exact hwaits waiter.2 hmem
  waiterHoldsNot := by
    intro waiter hmem
    rcases mem_append.mp hmem with hmem | hmem
    · exact htidy.waiterHoldsNot waiter hmem
    · have heq : waiter = (txn, mode) := by simpa using hmem
      rw [heq]
      exact hmode

private theorem tidy_dropHolder {entry : LockEntry} (htidy : entry.Tidy)
    (txn : TxnId) : (entry.dropHolder txn).Tidy where
  grouped := regroup_covers _
  waitOnce := by
    rw [dropHolder_waiters]
    exact htidy.waitOnce
  waiterHoldsNot := by
    intro waiter hmem
    rw [dropHolder_waiters] at hmem
    by_cases heq : waiter.1 = txn
    · rw [heq]
      exact modeOf_dropHolder_self entry txn
    · rw [modeOf_dropHolder_ne entry heq]
      exact htidy.waiterHoldsNot waiter hmem

/-- An enqueue leaves a waiting requester as it is; otherwise it takes the
requester out of the holders and puts it at the end of the queue, for its
request merged with what it held. -/
theorem enqueue_cases (entry : LockEntry) (txn : TxnId) (mode : LockMode) :
    (entry.hasWaiter txn = true ∧ LockEntry.enqueue txn mode (some entry) = some entry) ∨
      (entry.hasWaiter txn = false ∧ ∃ left, (left = entry ∧ entry.modeOf txn = none ∨
        left = entry.dropHolder txn) ∧
        LockEntry.enqueue txn mode (some entry) =
          some { left with
            waiters := left.waiters ++ [(txn, entry.neededMode txn mode)] }) := by
  unfold LockEntry.enqueue neededMode
  by_cases hwaits : entry.hasWaiter txn = true
  · exact .inl ⟨hwaits, by simp [hwaits]⟩
  refine .inr ⟨by simpa using hwaits, ?_⟩
  cases hmode : entry.modeOf txn with
  | none => exact ⟨entry, .inl ⟨rfl, rfl⟩, by simp [hwaits, hmode]⟩
  | some own => exact ⟨entry.dropHolder txn, .inr rfl, by simp [hwaits, hmode]⟩

theorem not_mem_waiters (hwaits : entry.hasWaiter txn = false) (mode : LockMode) :
    (txn, mode) ∉ entry.waiters := by
  intro hmem
  have htrue := (entry.hasWaiter_iff txn).mpr ⟨mode, hmem⟩
  simp [hwaits] at htrue

theorem Tidy.enqueue (htidy : entry.Tidy) (txn : TxnId) (mode : LockMode) :
    ∃ queued, LockEntry.enqueue txn mode (some entry) = some queued ∧ queued.Tidy := by
  rcases entry.enqueue_cases txn mode with ⟨-, heq⟩ | ⟨hwaits, left, hleft, heq⟩
  · exact ⟨entry, heq, htidy⟩
  refine ⟨_, heq, ?_⟩
  rcases hleft with ⟨rfl, hmode⟩ | rfl
  · exact tidy_queue htidy (not_mem_waiters hwaits) hmode _
  · apply tidy_queue (tidy_dropHolder htidy txn) ?_ (modeOf_dropHolder_self entry txn)
    simpa using not_mem_waiters hwaits

theorem Tidy.leave (htidy : entry.Tidy) (txn : TxnId) :
    (entry.leave txn).Tidy where
  grouped := (tidy_dropHolder htidy txn).grouped
  waitOnce := by
    have hsub := filter_sublist (p := fun waiter => decide (waiter.1 ≠ txn))
      (l := entry.waiters)
    have hnodup := htidy.waitOnce.sublist (hsub.map Prod.fst)
    simpa [LockEntry.leave] using hnodup
  waiterHoldsNot := by
    intro waiter hmem
    have hmem : waiter ∈ (entry.dropHolder txn).waiters := by
      exact mem_of_mem_filter hmem
    exact (tidy_dropHolder htidy txn).waiterHoldsNot waiter hmem

/-! ## Serving the queue -/

private theorem tidy_serve_next {entry : LockEntry} {next : TxnId} {mode : LockMode}
    {rest : List (TxnId × LockMode)}
    (htidy : ({ entry with waiters := (next, mode) :: rest } : LockEntry).Tidy) :
    ({ entry.hold next mode with waiters := rest } : LockEntry).Tidy where
  grouped := regroup_covers _
  waitOnce := (nodup_cons.mp htidy.waitOnce).2
  waiterHoldsNot := by
    intro waiter hmem
    have hnotin := (nodup_cons.mp htidy.waitOnce).1
    have hne : waiter.1 ≠ next := by
      intro heq
      have hmapped : waiter.1 ∈ rest.map Prod.fst := mem_map_of_mem hmem
      exact hnotin (heq ▸ hmapped)
    have hheld := modeOf_hold_ne entry hne mode
    have hnone := htidy.waiterHoldsNot waiter (mem_cons_of_mem _ hmem)
    exact hheld.trans hnone

theorem tidy_serve (entry : LockEntry) (waiters : List (TxnId × LockMode))
    (htidy : ({ entry with waiters := waiters } : LockEntry).Tidy) :
    (entry.serve waiters).1.Tidy := by
  induction waiters generalizing entry with
  | nil => simpa [serve] using htidy
  | cons waiter rest ih =>
    rcases waiter with ⟨next, mode⟩
    unfold serve
    split
    · exact htidy
    · exact ih (entry.hold next mode) (tidy_serve_next htidy)

/-- Every mode the transaction holds or waits for on this key covers
`mode`. -/
structure ModesCover (entry : LockEntry) (txn : TxnId) (mode : LockMode) : Prop where
  held : ∀ own, entry.modeOf txn = some own → own.Covers mode
  queued : ∀ own, (txn, own) ∈ entry.waiters → own.Covers mode

theorem modesCover_serve (entry : LockEntry) (waiters : List (TxnId × LockMode))
    (hcover : ({ entry with waiters := waiters } : LockEntry).ModesCover txn mode) :
    (entry.serve waiters).1.ModesCover txn mode := by
  induction waiters generalizing entry with
  | nil => simpa [serve] using hcover
  | cons waiter rest ih =>
    rcases waiter with ⟨next, asked⟩
    unfold serve
    split
    · exact hcover
    apply ih (entry.hold next asked)
    refine ⟨?_, fun own hmem => hcover.queued own (mem_cons_of_mem _ hmem)⟩
    intro own hown
    change (entry.hold next asked).modeOf txn = some own at hown
    by_cases heq : txn = next
    · subst heq
      rw [modeOf_hold_self] at hown
      have hown := Option.some.inj hown
      unfold neededMode at hown
      cases hbefore : entry.modeOf txn with
      | none =>
        rw [hbefore] at hown
        subst hown
        exact hcover.queued _ mem_cons_self
      | some before =>
        rw [hbefore] at hown
        subst hown
        exact (before.merge_covers_left asked).trans (hcover.held before hbefore)
    · rw [modeOf_hold_ne entry heq] at hown
      exact hcover.held own hown

theorem modesCover_of_modeOf (hmode : entry.modeOf txn = some mode)
    (hwaits : ∀ own, (txn, own) ∉ entry.waiters) : entry.ModesCover txn mode where
  held := by
    intro own hown
    rw [← Option.some.inj (hmode.symm.trans hown)]
    exact mode.covers_refl
  queued own hown := absurd hown (hwaits own)

/-! ## Settling one requested key -/

/-- What every way to settle a key leaves: a well-formed entry in which the
requester's modes cover what it needs and nobody else's modes get weaker. -/
structure Settled (before : Option LockEntry) (txn : TxnId) (mode : LockMode)
    (after : LockEntry) : Prop where
  tidy : after.Tidy
  own : after.ModesCover txn (neededAt before txn mode)
  others : ∀ other, other ≠ txn → ∀ asked,
    (∀ entry, before = some entry → entry.ModesCover other asked) →
      after.ModesCover other asked

theorem settled_grant {before : Option LockEntry}
    (htidy : ∀ entry, before = some entry → entry.Tidy)
    (hwaits : ∀ entry, before = some entry → entry.hasWaiter txn = false)
    (mode : LockMode) :
    ∃ after, LockEntry.grant txn mode before = some after ∧
      Settled before txn mode after ∧
      after.modeOf txn = some (neededAt before txn mode) := by
  cases before with
  | none =>
    have hheld : modeOf ⟨mode, [(txn, mode)], []⟩ txn = some mode := by simp [modeOf]
    refine ⟨_, rfl, ⟨tidy_new txn mode, modesCover_of_modeOf hheld (by simp), ?_⟩, hheld⟩
    intro other hne asked _
    exact ⟨by simp [modeOf, Ne.symm hne], by simp⟩
  | some entry =>
    have hnone := not_mem_waiters (hwaits entry rfl)
    have hheld := modeOf_hold_self entry txn mode
    refine ⟨entry.hold txn mode, rfl, ⟨(htidy entry rfl).hold hnone mode,
      modesCover_of_modeOf hheld (by simpa using hnone), ?_⟩, hheld⟩
    intro other hne asked hcover
    have hcover := hcover entry rfl
    refine ⟨?_, ?_⟩
    · rw [modeOf_hold_ne entry hne]
      exact hcover.held
    · rw [hold_waiters]
      exact hcover.queued

theorem settled_wound (hwaiters : entry.waiters = []) (txn : TxnId) (mode : LockMode) :
    ∃ after, LockEntry.wound txn mode (some entry) = some after ∧
      Settled (some entry) txn mode after ∧
      after.modeOf txn = some (neededAt (some entry) txn mode) := by
  have heq : LockEntry.wound txn mode (some entry) =
      some { entry with
        holders := [(txn, entry.neededMode txn mode)]
        mode := entry.neededMode txn mode } := rfl
  refine ⟨_, heq, ⟨⟨?_, ?_, ?_⟩, modesCover_of_modeOf ?_ ?_, ?_⟩, by simp [modeOf, neededAt]⟩
  · simp [covers_refl]
  · simp [hwaiters]
  · simp [hwaiters]
  · simp [modeOf, neededAt]
  · simp [hwaiters]
  · intro other hne asked _
    exact ⟨by simp [modeOf, Ne.symm hne], by simp [hwaiters]⟩

theorem settled_enqueue (htidy : entry.Tidy)
    (hcover : ∀ own, (txn, own) ∈ entry.waiters → own.Covers mode) :
    ∃ after, LockEntry.enqueue txn mode (some entry) = some after ∧
      Settled (some entry) txn mode after := by
  rcases htidy.enqueue txn mode with ⟨after, hafter, htidyAfter⟩
  refine ⟨after, hafter, ?_⟩
  rcases entry.enqueue_cases txn mode with ⟨hwaits, heq⟩ | ⟨hwaits, left, hleft, heq⟩
  · obtain rfl : entry = after := Option.some.inj (heq.symm.trans hafter)
    rcases (entry.hasWaiter_iff txn).mp hwaits with ⟨queued, hmem⟩
    have hnone : entry.modeOf txn = none := htidy.waiterHoldsNot _ hmem
    refine ⟨htidy, ⟨by simp [hnone], ?_⟩, fun _ _ _ hother => hother entry rfl⟩
    intro own hown
    simpa [neededAt, neededMode, hnone] using hcover own hown
  · obtain rfl := Option.some.inj (heq.symm.trans hafter)
    have hwaiters : left.waiters = entry.waiters := by
      rcases hleft with ⟨rfl, -⟩ | rfl <;> simp
    have hleftNone : left.modeOf txn = none := by
      rcases hleft with ⟨rfl, hnone⟩ | rfl
      · exact hnone
      · exact modeOf_dropHolder_self entry txn
    refine ⟨htidyAfter, ⟨?_, ?_⟩, ?_⟩
    · intro own hown
      exact absurd (hleftNone.symm.trans hown) (by simp)
    · intro own hown
      rcases mem_append.mp hown with hold | hnew
      · exact absurd (hwaiters ▸ hold) (not_mem_waiters hwaits own)
      · have hown : own = entry.neededMode txn mode := by simpa using hnew
        rw [hown]
        exact covers_refl _
    · intro other hne asked hother
      have hother := hother entry rfl
      refine ⟨?_, ?_⟩
      · intro own hown
        have hkept : entry.modeOf other = some own := by
          rcases hleft with ⟨rfl, -⟩ | rfl
          · exact hown
          · rw [← modeOf_dropHolder_ne entry hne]
            exact hown
        exact hother.held own hkept
      · intro own hown
        rcases mem_append.mp hown with hold | hnew
        · exact hother.queued own (hwaiters ▸ hold)
        · exact absurd (by simpa using hnew : other = txn ∧ _).1 hne

theorem modeOf_serve (entry : LockEntry) (waiters : List (TxnId × LockMode))
    (hmode : entry.modeOf txn = some mode) :
    ∃ stronger, (entry.serve waiters).1.modeOf txn = some stronger ∧
      stronger.Covers mode := by
  induction waiters generalizing entry mode with
  | nil => exact ⟨mode, hmode, mode.covers_refl⟩
  | cons waiter rest ih =>
    rcases waiter with ⟨next, asked⟩
    unfold serve
    split
    · exact ⟨mode, hmode, mode.covers_refl⟩
    by_cases heq : txn = next
    · subst heq
      have hraised := modeOf_hold_self entry txn asked
      simp only [neededMode, hmode] at hraised
      rcases ih (entry.hold txn asked) hraised with ⟨stronger, hstronger, hcovers⟩
      exact ⟨stronger, hstronger, hcovers.trans (mode.merge_covers_left asked)⟩
    · apply ih (entry.hold next asked)
      rw [modeOf_hold_ne entry heq]
      exact hmode

/-! ## Waiters that stay behind

A reap releases several owners one after the other.  A waiter is obstructed
when a record ahead of it, of a transaction that none of these releases
removes, excludes its mode: then no release serves it.
-/

/-- Every wait of `txn` in the queue stands behind a record of a transaction
outside `leaving` that is incompatible with it. -/
def ObstructedFrom (leaving : List TxnId) (txn : TxnId)
    (ahead : List (TxnId × LockMode)) : List (TxnId × LockMode) → Prop
  | [] => True
  | (next, mode) :: rest =>
    (next = txn → ∃ other ∈ ahead,
      other.1 ∉ leaving ∧ other.2.compatible mode = false) ∧
    ObstructedFrom leaving txn ((next, mode) :: ahead) rest

instance decidableObstructedFrom (leaving : List TxnId) (txn : TxnId) :
    (ahead waiters : List (TxnId × LockMode)) →
      Decidable (ObstructedFrom leaving txn ahead waiters)
  | _, [] => inferInstanceAs (Decidable True)
  | ahead, (next, mode) :: rest =>
    have := decidableObstructedFrom leaving txn ((next, mode) :: ahead) rest
    inferInstanceAs (Decidable (_ ∧ _))

/-- The transaction holds nothing here and none of the given releases will
serve it. -/
def HeldUp (entry : LockEntry) (leaving : List TxnId) (txn : TxnId) : Prop :=
  entry.modeOf txn = none ∧
    ObstructedFrom leaving txn entry.holders entry.waiters
  deriving Decidable

def Strengthens (leaving : List TxnId) (ahead ahead' : List (TxnId × LockMode)) :
    Prop :=
  ∀ other ∈ ahead, other.1 ∉ leaving →
    ∃ stronger, (other.1, stronger) ∈ ahead' ∧ stronger.Covers other.2

theorem Strengthens.cons (hstronger : Strengthens leaving ahead ahead')
    (waiter : TxnId × LockMode) : Strengthens leaving (waiter :: ahead) (waiter :: ahead') := by
  intro other hmem hstays
  rcases mem_cons.mp hmem with rfl | hmem
  · exact ⟨other.2, mem_cons_self, other.2.covers_refl⟩
  · rcases hstronger other hmem hstays with ⟨stronger, hin, hcovers⟩
    exact ⟨stronger, mem_cons_of_mem _ hin, hcovers⟩

theorem ObstructedFrom.strengthen (hobstructed : ObstructedFrom leaving txn ahead waiters)
    (hstronger : Strengthens leaving ahead ahead') : ObstructedFrom leaving txn ahead' waiters := by
  induction waiters generalizing ahead ahead' with
  | nil => trivial
  | cons waiter rest ih =>
    refine ⟨?_, ih hobstructed.2 (hstronger.cons waiter)⟩
    intro heq
    rcases hobstructed.1 heq with ⟨other, hmem, hstays, hexcludes⟩
    rcases hstronger other hmem hstays with ⟨stronger, hin, hcovers⟩
    refine ⟨_, hin, hstays, ?_⟩
    by_contra hcompatible
    have hweaker := hcovers.compatible (Bool.eq_true_of_not_eq_false hcompatible)
    simp [hexcludes] at hweaker

theorem ObstructedFrom.filter (hgone : gone ∈ leaving)
    (hobstructed : ObstructedFrom leaving txn ahead waiters) :
    ObstructedFrom leaving txn ahead
      (waiters.filter fun waiter => decide (waiter.1 ≠ gone)) := by
  induction waiters generalizing ahead with
  | nil => trivial
  | cons waiter rest ih =>
    rw [filter_cons]
    split
    · exact ⟨hobstructed.1, ih hobstructed.2⟩
    next hdropped =>
      apply (ih hobstructed.2).strengthen
      intro other hmem hstays
      rcases mem_cons.mp hmem with rfl | hmem
      · have heq : waiter.1 = gone := by simpa using hdropped
        exact absurd (heq ▸ hgone) hstays
      · exact ⟨other.2, hmem, other.2.covers_refl⟩

theorem HeldUp.leave (hheld : entry.HeldUp leaving txn) (hgone : gone ∈ leaving)
    (hne : txn ≠ gone) : (entry.leave gone).HeldUp leaving txn := by
  refine ⟨(modeOf_dropHolder_ne entry hne).trans hheld.1, ?_⟩
  have hfiltered := hheld.2.filter hgone
  have hwaiters : (entry.leave gone).waiters =
      entry.waiters.filter fun waiter => decide (waiter.1 ≠ gone) := by
    simp [LockEntry.leave]
  rw [hwaiters]
  apply hfiltered.strengthen
  intro other hmem hstays
  refine ⟨other.2, ?_, other.2.covers_refl⟩
  have hkept : other.1 ≠ gone := by
    intro heq
    exact hstays (heq ▸ hgone)
  simp [LockEntry.leave, LockEntry.dropHolder, hmem, hkept]

theorem strengthens_hold (entry : LockEntry) (leaving : List TxnId) (next : TxnId)
    (mode : LockMode) :
    Strengthens leaving ((next, mode) :: entry.holders)
      (entry.hold next mode).holders := by
  intro other hmem _
  simp only [LockEntry.hold, regroup_holders]
  rcases mem_cons.mp hmem with rfl | hmem
  · exact self_mem_raise entry.holders next mode
  · exact exists_mem_raise hmem

theorem heldUp_serve (entry : LockEntry) (waiters : List (TxnId × LockMode))
    (hgrouped : ∀ holder ∈ entry.holders, entry.mode.Covers holder.2)
    (hheld : ({ entry with waiters := waiters } : LockEntry).HeldUp leaving txn) :
    (entry.serve waiters).1.HeldUp leaving txn ∧ txn ∉ (entry.serve waiters).2 := by
  induction waiters generalizing entry with
  | nil => exact ⟨hheld, by simp [serve]⟩
  | cons waiter rest ih =>
    rcases waiter with ⟨next, mode⟩
    unfold serve
    split
    · exact ⟨hheld, by simp⟩
    next hserved =>
      rcases hheld with ⟨hnone, hobstructed⟩
      have hne : txn ≠ next := by
        rintro rfl
        rcases hobstructed.1 rfl with ⟨other, hmem, -, hexcludes⟩
        have hnonempty : entry.holders.isEmpty = false :=
          isEmpty_eq_false_iff_exists_mem.mpr ⟨other, hmem⟩
        have hcompatible : entry.mode.compatible mode = true := by
          simpa [hnonempty] using hserved
        have hother := (hgrouped other hmem).compatible hcompatible
        simp [hexcludes] at hother
      have hafter := ih (entry.hold next mode) (regroup_covers _)
        ⟨(modeOf_hold_ne entry hne mode).trans hnone,
          hobstructed.2.strengthen (strengthens_hold entry leaving next mode)⟩
      refine ⟨hafter.1, ?_⟩
      intro hmem
      rcases mem_cons.mp hmem with heq | hmem
      · exact hne heq
      · exact hafter.2 hmem

end LockEntry
end NodeDB.Calvin
