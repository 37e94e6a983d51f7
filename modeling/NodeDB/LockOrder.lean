import NodeDB.PendingRequests

/-!
# Waiting in transaction order

If a request that must wait is younger than everybody on the key, every queue
stands in transaction order behind older holders.  Then nobody waits for a
younger transaction.
-/

namespace NodeDB.Calvin

open Std List

instance : LT TxnId := ltOfOrd

instance : DecidableLT TxnId := fun txn other =>
  inferInstanceAs (Decidable (compare txn other = .lt))

theorem TxnId.lt_trans {a b c : TxnId} (hab : a < b) (hbc : b < c) : a < c :=
  TransCmp.lt_trans hab hbc

theorem TxnId.lt_irrefl (txn : TxnId) : ¬ txn < txn :=
  fun hlt => Ordering.noConfusion (ReflOrd.compare_self.symm.trans hlt)

namespace LockEntry

/-- Waiters stand in the order of their ids, behind every holder. -/
structure Ordered (entry : LockEntry) : Prop where
  queue : entry.waiters.Pairwise fun a b => a.1 < b.1
  behind : ∀ holder ∈ entry.holders, ∀ waiter ∈ entry.waiters, holder.1 < waiter.1

def Trails (entry : LockEntry) (txn : TxnId) : Prop :=
  ∀ other ∈ entry.holders ++ entry.waiters, other.1 ≠ txn → other.1 < txn
  deriving Decidable

variable {entry : LockEntry} {txn : TxnId} {mode : LockMode} {after : LockEntry}

theorem ordered_of_waiters_eq_nil (hwaiters : entry.waiters = []) : entry.Ordered := by
  refine ⟨?_, ?_⟩
  · rw [hwaiters]
    exact List.Pairwise.nil
  · intro holder _ waiter hwaiter
    rw [hwaiters] at hwaiter
    cases hwaiter

theorem Taken.ordered {before : Option LockEntry} (htaken : Taken before txn mode after)
    (hbefore : ∀ entry, before = some entry → entry.Ordered) : after.Ordered := by
  cases htaken with
  | fresh _ hafter => exact ordered_of_waiters_eq_nil (by rw [hafter])
  | held entry hentry htake hafter =>
    rw [hafter]
    cases htake with
    | join _ hwaiters _ => exact ordered_of_waiters_eq_nil (by rw [hold_waiters, hwaiters])
    | raise own hown _ =>
      have hold := hbefore entry hentry
      refine ⟨by rw [hold_waiters]; exact hold.queue, ?_⟩
      rintro ⟨holder, held⟩ hholder waiter hwaiter
      rw [hold_waiters] at hwaiter
      obtain rfl | ⟨held, hmem⟩ :=
        (entry.hold_names txn mode holder).mp ⟨held, hholder⟩
      · exact hold.behind _ hown waiter hwaiter
      · exact hold.behind _ hmem waiter hwaiter

theorem Queued.ordered (hqueued : Queued entry txn mode after) (hentry : entry.Ordered)
    (htrails : entry.hasWaiter txn = false → entry.Trails txn) : after.Ordered := by
  have hkept : ∀ holder ∈ after.holders, holder ∈ entry.holders ∧ holder.1 ≠ txn := by
    intro holder hholder
    rw [hqueued.holders] at hholder
    obtain ⟨hmem, hne⟩ := mem_filter.mp hholder
    exact ⟨hmem, of_decide_eq_true hne⟩
  obtain ⟨hsame, -⟩ | ⟨hlast, hnot, -⟩ := hqueued.waiters
  · refine ⟨by rw [hsame]; exact hentry.queue, ?_⟩
    intro holder hholder waiter hwaiter
    rw [hsame] at hwaiter
    exact hentry.behind holder (hkept holder hholder).1 waiter hwaiter
  · have holder : entry.Trails txn := by
      apply htrails
      rw [Bool.eq_false_iff]
      intro hwaits
      obtain ⟨asked, hmem⟩ := (entry.hasWaiter_iff txn).mp hwaits
      exact hnot _ hmem rfl
    refine ⟨?_, ?_⟩
    · rw [hlast, pairwise_append]
      refine ⟨hentry.queue, pairwise_singleton _ _, ?_⟩
      intro waiter hwaiter new hnew
      rw [mem_singleton.mp hnew]
      exact holder waiter (mem_append_right _ hwaiter) (hnot waiter hwaiter)
    · intro held hheld waiter hwaiter
      obtain ⟨hmem, hne⟩ := hkept held hheld
      rw [hlast] at hwaiter
      obtain hold | hnew := mem_append.mp hwaiter
      · exact hentry.behind held hmem waiter hold
      · rw [mem_singleton.mp hnew]
        exact holder held (mem_append_left _ hmem) hne

theorem Ordered.leave (hentry : entry.Ordered) (gone : TxnId) : (entry.leave gone).Ordered := by
  unfold LockEntry.leave
  refine ⟨?_, ?_⟩
  · dsimp only
    rw [dropHolder_waiters]
    exact hentry.queue.filter _
  · intro holder hholder waiter hwaiter
    dsimp only at hholder hwaiter
    rw [dropHolder_holders] at hholder
    rw [dropHolder_waiters] at hwaiter
    exact hentry.behind holder (mem_of_mem_filter hholder) waiter
      (mem_of_mem_filter hwaiter)

theorem Ordered.serve (hentry : entry.Ordered) {taken rest : List (TxnId × LockMode)}
    {served : LockEntry × List TxnId} (hserved : Served entry entry.waiters taken rest served) :
    served.1.Ordered := by
  have hqueue := hentry.queue
  rw [hserved.split, pairwise_append] at hqueue
  obtain ⟨-, hrest, hacross⟩ := hqueue
  refine ⟨by rw [hserved.waiters]; exact hrest, ?_⟩
  intro holder hholder waiter hwaiter
  rw [hserved.waiters] at hwaiter
  rw [hserved.holders] at hholder
  obtain hold | hnew := mem_append.mp hholder
  · refine hentry.behind holder hold waiter ?_
    rw [hserved.split]
    exact mem_append_right _ hwaiter
  · exact hacross holder hnew waiter hwaiter

/-- The transaction waits behind a holder or an earlier waiter that excludes
it. -/
def WaitsFor (entry : LockEntry) (txn other : TxnId) : Prop :=
  ∃ (earlier later : List (TxnId × LockMode)) (mode : LockMode),
    entry.waiters = earlier ++ (txn, mode) :: later ∧
      ∃ item ∈ entry.holders ++ earlier, item.1 = other ∧ item.2.compatible mode = false

theorem Ordered.waitsFor (hentry : entry.Ordered) {other : TxnId}
    (hwaits : entry.WaitsFor txn other) : other < txn := by
  obtain ⟨earlier, later, mode, hwaiters, item, hitem, rfl, -⟩ := hwaits
  obtain hholder | hearlier := mem_append.mp hitem
  · refine hentry.behind item hholder (txn, mode) ?_
    rw [hwaiters]
    exact mem_append_right _ mem_cons_self
  · have hqueue := hentry.queue
    rw [hwaiters, pairwise_append] at hqueue
    exact hqueue.2.2 item hearlier (txn, mode) mem_cons_self

end LockEntry

variable {κ : Type} [Ord κ]

namespace LockManager

def InOrder (manager : LockManager κ) : Prop :=
  ∀ (key : κ) (entry : LockEntry), manager.table[key]? = some entry → entry.Ordered

def WaitsFor (manager : LockManager κ) (txn other : TxnId) : Prop :=
  ∃ (key : κ) (entry : LockEntry), manager.table[key]? = some entry ∧
    entry.WaitsFor txn other

variable {manager : LockManager κ}

theorem InOrder.acyclic (horder : manager.InOrder) (txn : TxnId) :
    ¬ Relation.TransGen manager.WaitsFor txn txn := by
  have hstep : ∀ {a b : TxnId}, manager.WaitsFor a b → b < a := by
    rintro a b ⟨key, entry, hentry, hwaits⟩
    exact (horder key entry hentry).waitsFor hwaits
  have hpath : ∀ {a b : TxnId}, Relation.TransGen manager.WaitsFor a b → b < a := by
    intro a b hpath
    induction hpath with
    | single hwaits => exact hstep hwaits
    | tail _ hwaits ih => exact TxnId.lt_trans (hstep hwaits) ih
  exact fun hcycle => TxnId.lt_irrefl txn (hpath hcycle)

/-- If the request blocks, it is younger than everybody on each key where it
joins the queue. -/
def WaitsInOrder (manager : LockManager κ) (txn : TxnId) (keys : LockRequest κ) : Prop :=
  manager.resolveConflict txn (manager.fullRequest txn keys) = .block →
    ∀ item ∈ (manager.fullRequest txn keys).toList,
      manager.classify txn item.1 item.2 = .conflict →
        ∀ entry ∈ manager.table[item.1]?, entry.hasWaiter txn = false → entry.Trails txn
  deriving Decidable

omit [Ord κ] in
theorem keptByService_ordered : KeptByService fun (_ : κ) entry => entry.Ordered :=
  fun gone _ _ _ _ _ hordered hserved => (hordered.leave gone).serve hserved

variable [TransOrd κ] [LawfulEqOrd κ]

section

variable (horder : manager.InOrder) (hlawful : manager.Lawful)
include horder hlawful

theorem InOrder.acquire {txn : TxnId}
    {keys : LockRequest κ} (hwaits : manager.WaitsInOrder txn keys) :
    (manager.acquire txn keys).2.InOrder := by
  obtain ⟨-, -, -, hresolves⟩ | ⟨-, hblock, -, -, hresolves, -⟩ :=
    acquire_resolves hlawful txn keys
  · refine hresolves.everywhere horder (fun key _ _ _ htaken => htaken.ordered (horder key)) ?_
    rintro key mode entry entry' - - - ⟨-, hwounded⟩
    apply LockEntry.ordered_of_waiters_eq_nil
    rw [hwounded.after_eq]
    exact hwounded.waiters
  · refine hresolves.everywhere horder (fun key _ _ _ htaken => htaken.ordered (horder key)) ?_
    intro key mode entry entry' hmode hentry hwait hqueued
    obtain ⟨hconsistent, hheld⟩ := hlawful key entry hentry
    exact hqueued.ordered (horder key entry hentry)
      (hwaits hblock (key, mode) (TreeMap.mem_toList_iff_getElem?_eq_some.mpr hmode)
        (classify_of_mustWait hentry hconsistent hheld hwait) entry hentry)

theorem InOrder.tryAcquire (txn : TxnId)
    (keys : LockRequest κ) : (manager.tryAcquire txn keys).2.InOrder := by
  obtain hsame | ⟨-, -, hresolves⟩ := tryAcquire_resolves hlawful txn keys
  · rw [hsame]
    exact horder
  · exact hresolves.everywhere horder (fun key _ _ _ htaken => htaken.ordered (horder key))
      (fun _ _ _ _ _ _ _ hfalse => hfalse.elim)

theorem InOrder.release (gone : TxnId) : (manager.release gone).2.InOrder :=
  (hlawful.release horder keptByService_ordered gone).2

theorem InOrder.reapExpiredShared
    (epochThreshold : Nat) : (manager.reapExpiredShared epochThreshold).2.InOrder :=
  (hlawful.reapExpiredShared horder keptByService_ordered epochThreshold).2

end

end LockManager

end NodeDB.Calvin
