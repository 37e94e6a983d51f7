import NodeDB.LockEntryInvariant

/-!
# The shape of a lock entry

The holders of an entry are pairwise compatible and its mode is the merge of
theirs.  Nobody appears twice.  The operations on one key keep this shape, and
serving the queue moves a stretch of waiters from its front to the holders.
-/

namespace NodeDB.Calvin

open List

namespace LockMode

theorem compatible_comm (mode other : LockMode) :
    mode.compatible other = other.compatible mode := by
  cases mode <;> cases other <;> rfl

theorem merge_compatible {a b c : LockMode} (hab : a.compatible b = true)
    (hac : a.compatible c = true) (hbc : b.compatible c = true) :
    (a.merge b).compatible c = true := by
  revert hab hac hbc
  cases a <;> cases b <;> cases c <;> decide

end LockMode

namespace LockEntry

def groupMode : List (TxnId × LockMode) → Option LockMode
  | [] => none
  | first :: rest => some (rest.foldl (fun mode holder => mode.merge holder.2) first.2)

/-- The holds agree with each other and with the mode of the entry. -/
structure Consistent (entry : LockEntry) : Prop where
  grouped : ∀ mode ∈ groupMode entry.holders, entry.mode = mode
  compatible : entry.holders.Pairwise fun a b => a.2.compatible b.2 = true
  holdOnce : (entry.holders.map Prod.fst).Nodup
  waitOnce : (entry.waiters.map Prod.fst).Nodup
  waiterHoldsNot : ∀ waiter ∈ entry.waiters, ∀ holder ∈ entry.holders, holder.1 ≠ waiter.1

def FrontBlocked (entry : LockEntry) : Prop :=
  ∀ front ∈ entry.waiters.head?, ∃ holder ∈ entry.holders,
    holder.1 ≠ front.1 ∧ holder.2.compatible front.2 = false
  deriving Decidable

/-! ## The group mode -/

theorem grouped_regroup (entry : LockEntry) :
    ∀ mode ∈ groupMode entry.regroup.holders, entry.regroup.mode = mode := by
  intro mode hmode
  rw [regroup_holders] at hmode
  unfold regroup
  cases hholders : entry.holders with
  | nil =>
    rw [hholders] at hmode
    cases hmode
  | cons first rest =>
    rw [hholders] at hmode
    exact Option.some.inj hmode

variable {mode : LockMode} {entry : LockEntry} {holders : List (TxnId × LockMode)} {txn : TxnId}

theorem foldl_merge_compatible (holders : List (TxnId × LockMode))
    {start : LockMode} (hstart : start.compatible mode = true)
    (hall : ∀ holder ∈ holders, holder.2.compatible mode = true)
    (hjoin : ∀ holder ∈ holders, start.compatible holder.2 = true)
    (hpairs : holders.Pairwise fun a b => a.2.compatible b.2 = true) :
    (holders.foldl (fun mode holder => mode.merge holder.2) start).compatible mode =
      true := by
  induction holders generalizing start with
  | nil => exact hstart
  | cons first rest ih =>
    obtain ⟨hfirst, hrest⟩ := pairwise_cons.mp hpairs
    have hhead := hjoin first mem_cons_self
    apply ih
    · exact LockMode.merge_compatible hhead hstart (hall first mem_cons_self)
    · exact fun holder hmem => hall holder (mem_cons_of_mem _ hmem)
    · intro holder hmem
      exact LockMode.merge_compatible hhead
        (hjoin holder (mem_cons_of_mem _ hmem)) (hfirst holder hmem)
    · exact hrest

theorem Consistent.mode_compatible_iff (hentry : entry.Consistent)
    (hheld : entry.holders ≠ []) (mode : LockMode) :
    entry.mode.compatible mode = true ↔
      ∀ holder ∈ entry.holders, holder.2.compatible mode = true := by
  obtain ⟨first, rest, hholders⟩ := exists_cons_of_ne_nil hheld
  have hmode := hentry.grouped _ (by rw [hholders]; exact rfl)
  have hpairs := hentry.compatible
  rw [hholders] at hpairs
  obtain ⟨hfirst, hrest⟩ := pairwise_cons.mp hpairs
  obtain ⟨hcovers, hcover⟩ := foldl_merge_covers first.2 rest
  rw [hmode, hholders]
  constructor
  · intro hcompatible holder hmem
    obtain rfl | hmem := mem_cons.mp hmem
    · exact hcovers.compatible hcompatible
    · exact (hcover holder hmem).compatible hcompatible
  · intro hall
    exact foldl_merge_compatible rest (hall first mem_cons_self)
      (fun holder hmem => hall holder (mem_cons_of_mem _ hmem)) hfirst hrest

theorem Consistent.compatible_of_ne (hentry : entry.Consistent)
    {a b : TxnId × LockMode} (ha : a ∈ entry.holders) (hb : b ∈ entry.holders)
    (hne : a ≠ b) : a.2.compatible b.2 = true := by
  have : Std.Symm fun a b : TxnId × LockMode => a.2.compatible b.2 = true :=
    ⟨fun a b h => (LockMode.compatible_comm b.2 a.2).trans h⟩
  exact hentry.compatible.forall ha hb hne

/-! ## Raising one holder -/

theorem raise_of_absent (habsent : ∀ holder ∈ holders, holder.1 ≠ txn) (mode : LockMode) :
    raise txn mode holders = holders ++ [(txn, mode)] := by
  induction holders with
  | nil => rfl
  | cons first rest ih =>
    rw [raise, if_neg (habsent first mem_cons_self),
      ih fun holder hmem => habsent holder (mem_cons_of_mem _ hmem)]
    rfl

variable {own : LockMode} {waiters taken rest : List (TxnId × LockMode)}
  {served : LockEntry × List TxnId}

theorem raise_of_present (honce : (holders.map Prod.fst).Nodup) (hown : (txn, own) ∈ holders)
    (mode : LockMode) :
    raise txn mode holders = holders.map fun holder =>
      if holder.1 = txn then (txn, own.merge mode) else holder := by
  induction holders with
  | nil => cases hown
  | cons first rest ih =>
    rw [map_cons, nodup_cons] at honce
    rw [raise, map_cons]
    by_cases heq : first.1 = txn
    · rw [if_pos heq, if_pos heq]
      have hfirst : first = (txn, own) := by
        obtain hhead | htail := mem_cons.mp hown
        · exact hhead.symm
        · exact absurd (heq ▸ mem_map_of_mem htail) honce.1
      have hrest : ∀ holder ∈ rest,
          (if holder.1 = txn then (txn, own.merge mode) else holder) = holder := by
        intro holder hmem
        refine if_neg fun hsame => honce.1 ?_
        rw [heq, ← hsame]
        exact mem_map_of_mem hmem
      rw [map_congr_left hrest, map_id', hfirst]
    · rw [if_neg heq, if_neg heq]
      obtain hhead | htail := mem_cons.mp hown
      · exact absurd (congrArg Prod.fst hhead.symm) heq
      · rw [ih honce.2 htail]

theorem Consistent.modeOf_eq (hentry : entry.Consistent) :
    entry.modeOf txn = some mode ↔ (txn, mode) ∈ entry.holders := by
  refine ⟨mem_holders_of_modeOf, fun hmem => ?_⟩
  have hholds : entry.holds txn = true := by
    unfold holds
    exact any_eq_true.mpr ⟨_, hmem, by simp⟩
  obtain ⟨own, hown⟩ := (entry.holds_iff_modeOf txn).mp hholds
  have hsame := inj_on_of_nodup_map hentry.holdOnce (mem_holders_of_modeOf hown) hmem rfl
  exact hown.trans (congrArg (fun holder => some holder.2) hsame)

theorem modeOf_eq_none : entry.modeOf txn = none ↔ ∀ holder ∈ entry.holders, holder.1 ≠ txn := by
  unfold modeOf
  rw [Option.map_eq_none_iff, find?_eq_none]
  simp

/-! ## Operations on one key -/

theorem consistent_new (txn : TxnId) (mode : LockMode) :
    ({ mode := mode, holders := [(txn, mode)], waiters := [] } : LockEntry).Consistent where
  grouped := by
    rintro _ ⟨⟩
    rfl
  compatible := pairwise_singleton _ _
  holdOnce := nodup_singleton _
  waitOnce := nodup_nil
  waiterHoldsNot := by simp

theorem Consistent.hold_absent (hentry : entry.Consistent)
    (habsent : ∀ holder ∈ entry.holders, holder.1 ≠ txn)
    (hwaits : ∀ waiter ∈ entry.waiters, waiter.1 ≠ txn)
    (hfits : ∀ holder ∈ entry.holders, holder.2.compatible mode = true) :
    (entry.hold txn mode).Consistent ∧
      (entry.hold txn mode).holders = entry.holders ++ [(txn, mode)] := by
  have hholders : (entry.hold txn mode).holders = entry.holders ++ [(txn, mode)] := by
    unfold LockEntry.hold
    rw [regroup_holders]
    exact raise_of_absent habsent mode
  refine ⟨⟨?_, ?_, ?_, ?_, ?_⟩, hholders⟩
  · exact grouped_regroup _
  · rw [hholders, pairwise_append]
    refine ⟨hentry.compatible, pairwise_singleton _ _, ?_⟩
    intro holder hmem new hnew
    rw [mem_singleton.mp hnew]
    exact hfits holder hmem
  · rw [hholders]
    exact nodup_names_concat hentry.holdOnce habsent mode
  · rw [hold_waiters]
    exact hentry.waitOnce
  · intro waiter hwaiter holder hholder
    rw [hold_waiters] at hwaiter
    rw [hholders] at hholder
    obtain hold | hnew := mem_append.mp hholder
    · exact hentry.waiterHoldsNot waiter hwaiter holder hold
    · rw [mem_singleton.mp hnew]
      exact (hwaits waiter hwaiter).symm

theorem Consistent.hold_present (hentry : entry.Consistent) (hown : (txn, own) ∈ entry.holders)
    (hfits : ∀ holder ∈ entry.holders, holder.1 ≠ txn →
      holder.2.compatible (own.merge mode) = true) :
    (entry.hold txn mode).Consistent ∧
      (entry.hold txn mode).holders = entry.holders.map fun holder =>
        if holder.1 = txn then (txn, own.merge mode) else holder := by
  have hholders : (entry.hold txn mode).holders = entry.holders.map fun holder =>
      if holder.1 = txn then (txn, own.merge mode) else holder := by
    unfold LockEntry.hold
    rw [regroup_holders]
    exact raise_of_present hentry.holdOnce hown mode
  have hnames : (entry.hold txn mode).holders.map Prod.fst = entry.holders.map Prod.fst := by
    rw [hholders, map_map]
    refine map_congr_left fun holder _ => ?_
    dsimp only [Function.comp]
    split
    next heq => exact heq.symm
    next => rfl
  refine ⟨⟨?_, ?_, ?_, ?_, ?_⟩, hholders⟩
  · exact grouped_regroup _
  · rw [hholders, pairwise_map]
    have hdistinct := pairwise_map.mp hentry.holdOnce
    refine (hentry.compatible.and hdistinct).imp_of_mem ?_
    rintro a b ha hb ⟨hcompatible, hne⟩
    by_cases hatxn : a.1 = txn <;> by_cases hbtxn : b.1 = txn
    · exact absurd (hatxn.trans hbtxn.symm) hne
    · rw [if_pos hatxn, if_neg hbtxn, LockMode.compatible_comm]
      exact hfits b hb hbtxn
    · rw [if_neg hatxn, if_pos hbtxn]
      exact hfits a ha hatxn
    · rw [if_neg hatxn, if_neg hbtxn]
      exact hcompatible
  · rw [hnames]
    exact hentry.holdOnce
  · rw [hold_waiters]
    exact hentry.waitOnce
  · intro waiter hwaiter holder hholder
    rw [hold_waiters] at hwaiter
    have hname : holder.1 ∈ entry.holders.map Prod.fst := by
      rw [← hnames]
      exact mem_map_of_mem hholder
    obtain ⟨old, hold, hsame⟩ := mem_map.mp hname
    rw [← hsame]
    exact hentry.waiterHoldsNot waiter hwaiter old hold

theorem dropHolder_holders (entry : LockEntry) (txn : TxnId) :
    (entry.dropHolder txn).holders =
      entry.holders.filter fun holder => decide (holder.1 ≠ txn) := by
  unfold dropHolder
  rw [regroup_holders]

theorem Consistent.dropHolder (hentry : entry.Consistent)
    (txn : TxnId) : (entry.dropHolder txn).Consistent where
  grouped := grouped_regroup _
  compatible := by
    rw [dropHolder_holders]
    exact hentry.compatible.filter _
  holdOnce := by
    rw [dropHolder_holders]
    exact hentry.holdOnce.sublist (filter_sublist.map _)
  waitOnce := by
    rw [dropHolder_waiters]
    exact hentry.waitOnce
  waiterHoldsNot := by
    intro waiter hwaiter holder hholder
    rw [dropHolder_waiters] at hwaiter
    rw [dropHolder_holders] at hholder
    exact hentry.waiterHoldsNot waiter hwaiter holder (mem_of_mem_filter hholder)

theorem Consistent.queue (hentry : entry.Consistent)
    (habsent : ∀ holder ∈ entry.holders, holder.1 ≠ txn)
    (hwaits : ∀ waiter ∈ entry.waiters, waiter.1 ≠ txn) (mode : LockMode) :
    ({ entry with waiters := entry.waiters ++ [(txn, mode)] } : LockEntry).Consistent :=
  { hentry with
    waitOnce := nodup_names_concat hentry.waitOnce hwaits mode
    waiterHoldsNot := by
      intro waiter hwaiter holder hholder
      obtain hold | hnew := mem_append.mp hwaiter
      · exact hentry.waiterHoldsNot waiter hold holder hholder
      · rw [mem_singleton.mp hnew]
        exact habsent holder hholder }

theorem Consistent.leave (hentry : entry.Consistent) (txn : TxnId) :
    (entry.leave txn).Consistent := by
  have hdropped := hentry.dropHolder txn
  refine ⟨hdropped.grouped, hdropped.compatible, hdropped.holdOnce, ?_, ?_⟩
  · exact hdropped.waitOnce.sublist (filter_sublist.map _)
  · intro waiter hwaiter
    exact hdropped.waiterHoldsNot waiter (mem_of_mem_filter hwaiter)

/-! ## Serving the queue -/

/-- What serving the queue leaves: the first waiters join the holders, and the
next one, if any, is excluded by a holder. -/
structure Served (entry : LockEntry) (waiters taken rest : List (TxnId × LockMode))
    (served : LockEntry × List TxnId) : Prop where
  split : waiters = taken ++ rest
  holders : served.1.holders = entry.holders ++ taken
  waiters : served.1.waiters = rest
  granted : served.2 = taken.map Prod.fst
  consistent : served.1.Consistent
  stopped : ∀ front ∈ rest.head?, ∃ holder ∈ served.1.holders,
    holder.2.compatible front.2 = false

theorem exists_served (entry : LockEntry) (waiters : List (TxnId × LockMode))
    (hentry : ({ entry with waiters := waiters } : LockEntry).Consistent) :
    ∃ taken rest, Served entry waiters taken rest (entry.serve waiters) := by
  induction waiters generalizing entry with
  | nil => exact ⟨[], [], rfl, by simp [serve], rfl, rfl, hentry, by simp⟩
  | cons waiter rest ih =>
    obtain ⟨next, mode⟩ := waiter
    unfold serve
    split
    next hstop =>
      rw [Bool.and_eq_true, Bool.not_eq_true', isEmpty_eq_false_iff, Bool.not_eq_true'] at hstop
      refine ⟨[], (next, mode) :: rest, rfl, by simp, rfl, rfl, hentry, ?_⟩
      rintro front ⟨⟩
      by_contra hnone
      push Not at hnone
      have hfits : entry.mode.compatible mode = true :=
        (hentry.mode_compatible_iff hstop.1 mode).mpr fun holder hmem =>
          Bool.eq_true_of_not_eq_false (hnone holder hmem)
      rw [hstop.2] at hfits
      cases hfits
    next hserved =>
      have habsent : ∀ holder ∈ entry.holders, holder.1 ≠ next :=
        hentry.waiterHoldsNot (next, mode) mem_cons_self
      have hfits : ∀ holder ∈ entry.holders, holder.2.compatible mode = true := by
        by_cases hheld : entry.holders = []
        · simp [hheld]
        · refine (hentry.mode_compatible_iff hheld mode).mp ?_
          simpa [hheld] using hserved
      obtain ⟨hnotin, honce⟩ := nodup_cons.mp hentry.waitOnce
      -- The front waiter leaves the queue and joins the holders.
      have hpopped : ({ entry with waiters := rest } : LockEntry).Consistent :=
        ⟨hentry.grouped, hentry.compatible, hentry.holdOnce, honce,
          fun waiter hmem => hentry.waiterHoldsNot waiter (mem_cons_of_mem _ hmem)⟩
      obtain ⟨hconsistent, hholders⟩ := hpopped.hold_absent habsent
        (fun waiter hmem heq => hnotin (mem_map.mpr ⟨waiter, hmem, heq⟩)) hfits
      obtain ⟨taken, left, hnext⟩ := ih (entry.hold next mode) (by
        have hsame : ({ entry.hold next mode with waiters := rest } : LockEntry) =
            ({ entry with waiters := rest } : LockEntry).hold next mode := by
          unfold LockEntry.hold regroup
          dsimp only
          split <;> rfl
        rw [hsame]
        exact hconsistent)
      refine ⟨(next, mode) :: taken, left, ?_, ?_, hnext.waiters, ?_, hnext.consistent,
        hnext.stopped⟩
      · rw [hnext.split]
        rfl
      · have hheld : (entry.hold next mode).holders = entry.holders ++ [(next, mode)] := by
          unfold LockEntry.hold
          rw [regroup_holders]
          exact raise_of_absent habsent mode
        rw [hnext.holders, hheld, append_assoc]
        rfl
      · exact congrArg (fun granted => next :: granted) hnext.granted

theorem Served.frontBlocked (hserved : Served entry waiters taken rest served) :
    served.1.FrontBlocked := by
  intro front hfront
  have hwaiter : front ∈ served.1.waiters := mem_of_mem_head? hfront
  rw [hserved.waiters] at hfront
  obtain ⟨holder, hmem, hexcludes⟩ := hserved.stopped front hfront
  exact ⟨holder, hmem, hserved.consistent.waiterHoldsNot front hwaiter holder hmem, hexcludes⟩

theorem Served.waiters_eq_nil (hserved : Served entry waiters taken rest served)
    (hholders : served.1.holders = []) : served.1.waiters = [] := by
  cases hwaiters : served.1.waiters with
  | nil => rfl
  | cons front left =>
    obtain ⟨holder, hmem, -⟩ := hserved.frontBlocked front (by rw [hwaiters]; rfl)
    rw [hholders] at hmem
    cases hmem

/-! ## Settling a requested key -/

/-- The requester can take the key now: it holds it and the raised mode fits
the other holders, or it fits all of them and nobody waits. -/
inductive CanTake (entry : LockEntry) (txn : TxnId) (mode : LockMode) : Prop
  | raise (own : LockMode) (hown : (txn, own) ∈ entry.holders)
      (hfits : ∀ holder ∈ entry.holders, holder.1 ≠ txn →
        holder.2.compatible (own.merge mode) = true)
  | join (habsent : ∀ holder ∈ entry.holders, holder.1 ≠ txn)
      (hwaiters : entry.waiters = [])
      (hfits : ∀ holder ∈ entry.holders, holder.2.compatible mode = true)

theorem Consistent.take (hentry : entry.Consistent) (htake : entry.CanTake txn mode) :
    (entry.hold txn mode).Consistent := by
  cases htake with
  | raise own hown hfits => exact (hentry.hold_present hown hfits).1
  | join habsent hwaiters hfits =>
    exact (hentry.hold_absent habsent (by simp [hwaiters]) hfits).1

theorem hold_holders_ne_nil (entry : LockEntry) (txn : TxnId) (mode : LockMode) :
    (entry.hold txn mode).holders ≠ [] := by
  intro hnil
  have hself := mem_holders_of_modeOf (modeOf_hold_self entry txn mode)
  rw [hnil] at hself
  cases hself

theorem FrontBlocked.hold (hfront : entry.FrontBlocked)
    (txn : TxnId) (mode : LockMode) : (entry.hold txn mode).FrontBlocked := by
  intro front hmem
  rw [hold_waiters] at hmem
  obtain ⟨holder, hholder, hne, hexcludes⟩ := hfront front hmem
  have hkept : ∃ stronger, (holder.1, stronger) ∈ (entry.hold txn mode).holders ∧
      stronger.Covers holder.2 := by
    unfold LockEntry.hold
    rw [regroup_holders]
    exact exists_mem_raise hholder
  obtain ⟨stronger, hin, hcovers⟩ := hkept
  refine ⟨_, hin, hne, ?_⟩
  by_contra hcompatible
  have hweaker := hcovers.compatible (Bool.eq_true_of_not_eq_false hcompatible)
  rw [hexcludes] at hweaker
  cases hweaker

/-- The requester must wait: it waits already, it holds the key and another
holder excludes the raised mode, or a holder excludes its mode or somebody
waits. -/
inductive MustWait (entry : LockEntry) (txn : TxnId) (mode : LockMode) : Prop
  | waits (asked : LockMode) (hwaits : (txn, asked) ∈ entry.waiters)
  | holds (own : LockMode) (hown : (txn, own) ∈ entry.holders)
      (hexcluded : ∃ holder ∈ entry.holders, holder.1 ≠ txn ∧
        holder.2.compatible (own.merge mode) = false)
  | arrives (habsent : ∀ holder ∈ entry.holders, holder.1 ≠ txn)
      (hwaits : ∀ waiter ∈ entry.waiters, waiter.1 ≠ txn)
      (hexcluded : entry.waiters ≠ [] ∨
        ∃ holder ∈ entry.holders, holder.2.compatible mode = false)

theorem CanTake.not_mustWait (htake : entry.CanTake txn mode) (hentry : entry.Consistent) :
    ¬ entry.MustWait txn mode := by
  intro hwait
  cases htake with
  | raise own hown hfits =>
    cases hwait with
    | waits asked hwaits => exact hentry.waiterHoldsNot _ hwaits _ hown rfl
    | arrives habsent _ _ => exact habsent _ hown rfl
    | holds own' hown' hexcluded =>
      obtain ⟨holder, hmem, hne, hexcludes⟩ := hexcluded
      have hsame : own' = own :=
        Option.some.inj ((hentry.modeOf_eq.mpr hown').symm.trans (hentry.modeOf_eq.mpr hown))
      have hcompatible := hfits holder hmem hne
      rw [hsame] at hexcludes
      rw [hexcludes] at hcompatible
      cases hcompatible
  | join habsent hwaiters hfits =>
    cases hwait with
    | waits asked hwaits =>
      rw [hwaiters] at hwaits
      cases hwaits
    | holds own hown _ => exact habsent _ hown rfl
    | arrives _ _ hexcluded =>
      obtain hqueue | ⟨holder, hmem, hexcludes⟩ := hexcluded
      · exact hqueue hwaiters
      · have hcompatible := hfits holder hmem
        rw [hexcludes] at hcompatible
        cases hcompatible

def KeepsFront (entry : LockEntry) (txn : TxnId) : Prop :=
  ∀ front ∈ entry.waiters.head?, ∃ holder ∈ entry.holders,
    holder.1 ≠ txn ∧ holder.2.compatible front.2 = false
  deriving Decidable

theorem FrontBlocked.keepsFront (hfront : entry.FrontBlocked)
    (habsent : ∀ holder ∈ entry.holders, holder.1 ≠ txn) : entry.KeepsFront txn := by
  intro front hmem
  obtain ⟨holder, hholder, -, hexcludes⟩ := hfront front hmem
  exact ⟨holder, hholder, habsent holder hholder, hexcludes⟩

theorem filter_ne_eq_self (habsent : ∀ holder ∈ holders, holder.1 ≠ txn) :
    (holders.filter fun holder => decide (holder.1 ≠ txn)) = holders :=
  filter_eq_self.mpr fun holder hmem => decide_eq_true (habsent holder hmem)

/-- What an enqueue leaves: the requester holds nothing and waits, at the end
of the queue unless it waited before. -/
structure Queued (entry : LockEntry) (txn : TxnId) (mode : LockMode) (after : LockEntry) :
    Prop where
  consistent : after.Consistent
  holders : after.holders = entry.holders.filter fun holder => decide (holder.1 ≠ txn)
  held : after.holders ≠ []
  waiters : (after.waiters = entry.waiters ∧ ∃ asked, (txn, asked) ∈ entry.waiters) ∨
    (after.waiters = entry.waiters ++ [(txn, entry.neededMode txn mode)] ∧
      (∀ waiter ∈ entry.waiters, waiter.1 ≠ txn) ∧
      (entry.waiters = [] → ∃ holder ∈ after.holders,
        holder.2.compatible (entry.neededMode txn mode) = false))

theorem hasWaiter_eq_false (hwaits : ∀ waiter ∈ entry.waiters, waiter.1 ≠ txn) :
    entry.hasWaiter txn = false :=
  any_eq_false.mpr fun waiter hmem => by simpa using hwaits waiter hmem

theorem Consistent.enqueue (hentry : entry.Consistent) (hheld : entry.holders ≠ [])
    (hwait : entry.MustWait txn mode) :
    ∃ after, LockEntry.enqueue txn mode (some entry) = some after ∧
      Queued entry txn mode after := by
  unfold LockEntry.enqueue
  cases hwait with
  | waits asked hwaits =>
    have hhas : entry.hasWaiter txn = true := (entry.hasWaiter_iff txn).mpr ⟨asked, hwaits⟩
    have habsent := hentry.waiterHoldsNot _ hwaits
    refine ⟨entry, by simp only [hhas, if_true], hentry, ?_, hheld,
      .inl ⟨rfl, asked, hwaits⟩⟩
    exact (filter_ne_eq_self habsent).symm
  | holds own hown hexcluded =>
    obtain ⟨other, hother, hne, hexcludes⟩ := hexcluded
    have hwaits : ∀ waiter ∈ entry.waiters, waiter.1 ≠ txn := fun waiter hwaiter heq =>
      hentry.waiterHoldsNot waiter hwaiter _ hown heq.symm
    have hhas := hasWaiter_eq_false hwaits
    have hkept : other ∈ (entry.dropHolder txn).holders := by
      rw [dropHolder_holders]
      exact mem_filter.mpr ⟨hother, decide_eq_true hne⟩
    have hneeded : entry.neededMode txn mode = own.merge mode := by
      simp only [neededMode, hentry.modeOf_eq.mpr hown]
    simp only [hhas, Bool.false_eq_true, if_false, hentry.modeOf_eq.mpr hown]
    refine ⟨_, rfl, ?_, dropHolder_holders entry txn, ne_nil_of_mem hkept, .inr ?_⟩
    · refine (hentry.dropHolder txn).queue ?_ ?_ _
      · intro holder hmem
        rw [dropHolder_holders] at hmem
        exact of_decide_eq_true (mem_filter.mp hmem).2
      · rw [dropHolder_waiters]
        exact hwaits
    · rw [hneeded]
      exact ⟨by rw [dropHolder_waiters], hwaits, fun _ => ⟨other, hkept, hexcludes⟩⟩
  | arrives habsent hwaits hexcluded =>
    have hhas := hasWaiter_eq_false hwaits
    have hneeded : entry.neededMode txn mode = mode := by
      simp only [neededMode, modeOf_eq_none.mpr habsent]
    simp only [hhas, Bool.false_eq_true, if_false, modeOf_eq_none.mpr habsent]
    refine ⟨_, rfl, hentry.queue habsent hwaits mode, (filter_ne_eq_self habsent).symm,
      hheld, .inr ?_⟩
    rw [hneeded]
    refine ⟨rfl, hwaits, fun hempty => ?_⟩
    exact hexcluded.resolve_left (not_not.mpr hempty)

theorem Queued.frontBlocked
    {after : LockEntry} (hqueued : Queued entry txn mode after) (hkeeps : entry.KeepsFront txn) :
    after.FrontBlocked := by
  have hold : ∀ front ∈ entry.waiters.head?, ∃ holder ∈ after.holders,
      holder.2.compatible front.2 = false := by
    intro front hfront
    obtain ⟨holder, hmem, hne, hexcludes⟩ := hkeeps front hfront
    refine ⟨holder, ?_, hexcludes⟩
    rw [hqueued.holders]
    exact mem_filter.mpr ⟨hmem, decide_eq_true hne⟩
  intro front hfront
  have hexcluded : ∃ holder ∈ after.holders, holder.2.compatible front.2 = false := by
    obtain ⟨hsame, -⟩ | ⟨hlast, -, hfirst⟩ := hqueued.waiters
    · rw [hsame] at hfront
      exact hold front hfront
    · cases hwaiters : entry.waiters with
      | nil =>
        rw [hlast, hwaiters] at hfront
        cases hfront
        exact hfirst hwaiters
      | cons first rest =>
        rw [hlast, hwaiters] at hfront
        exact hold front (by rw [hwaiters]; exact hfront)
  obtain ⟨holder, hmem, hexcludes⟩ := hexcluded
  exact ⟨holder, hmem, hqueued.consistent.waiterHoldsNot front (mem_of_mem_head? hfront)
    holder hmem, hexcludes⟩

end LockEntry
end NodeDB.Calvin
