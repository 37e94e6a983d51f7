import NodeDB.KvContents

/-!
# Incremental rehash

While a rehash is under way the old slots are empty up to the cursor, and there
is room in the new ones for the entries still to come and for as many again.
The order of the old slots is kept by a step that stops before an entry in its
own slot.
-/

namespace NodeDB.Kv

open RobinHood List

/-- The old slots are half as many.  The new ones have room for twice the entries left in the old
and for `slack` more, with one to spare while an old slot ahead is empty. -/
structure Rehashing (slack capacity : Nat) (slots old : Slots) (cursor : Nat) : Prop where
  probed : Probed old.length old
  double : capacity = 2 * old.length
  ahead : cursor < old.length
  cleared : ∀ i < cursor, peek old i = none
  seated : ∃ barrier < old.length, Barrier (home old.length) old barrier
  load : (entries slots).length + 2 * (entries old).length + slack ≤ capacity
  spare : ∀ i, cursor ≤ i → i < old.length → peek old i = none →
    (entries slots).length + 2 * (entries old).length + slack < capacity

structure Shaped (slack : Nat) (table : KvHashTable) : Prop where
  batch : 0 < table.rehashBatchSize
  primary : Probed table.capacity table.slots
  steady : table.rehashSource = none → (entries table.slots).length < table.capacity
  rehashing : ∀ old, table.rehashSource = some old →
    Rehashing slack table.capacity table.slots old table.rehashCursor

variable {slack capacity cursor : Nat} {slots old : Slots} {table : KvHashTable}

theorem Rehashing.room (h : Rehashing slack capacity slots old cursor) :
    (entries slots).length + (entries old).length < capacity := by
  have hload := h.load
  rcases Nat.eq_zero_or_pos (entries old).length with hnone | hsome
  · -- the slot at the cursor is empty
    have hspare := h.spare cursor le_rfl h.ahead (by
      refine Option.eq_none_iff_forall_ne_some.mpr fun entry hentry => ?_
      have hmem := mem_entries.mpr ⟨_, hentry⟩
      rw [eq_nil_of_length_eq_zero hnone] at hmem
      exact nomatch hmem)
    omega
  · omega

theorem Shaped.room (h : Shaped slack table) : (entries table.slots).length < table.capacity := by
  cases hsource : table.rehashSource with
  | none => exact h.steady hsource
  | some old => exact (Nat.le_add_right _ _).trans_lt (h.rehashing old hsource).room

def AtRest (slots : Slots) (idx : Nat) : Prop :=
  ∀ entry, peek slots idx = some entry → idealSlot slots.length entry.hash = idx

theorem AtRest.barrier {idx : Nat} (h : AtRest slots idx) (hpower : ∃ k, slots.length = 2 ^ k) :
    Barrier (home slots.length) slots idx := by
  intro entry hentry
  rw [← h entry hentry, idealSlot_eq hpower]
  rfl

def KvHashTable.Settled (table : KvHashTable) : Prop :=
  ∀ old, table.rehashSource = some old → AtRest old table.rehashCursor

section Migration

variable {capacity : Nat} {slots slots' old old' : Slots} {cursor cursor' : Nat}

/-- Entries move from the old slots up to the cursor, and none is lost. -/
structure Migrated (capacity batch migrated : Nat) (slots old : Slots) (cursor : Nat)
    (slots' old' : Slots) (cursor' : Nat) : Prop where
  probed : Probed capacity slots'
  length : old'.length = old.length
  advanced : cursor ≤ cursor'
  bound : cursor' ≤ old.length
  cleared : ∀ i < cursor', peek old' i = none
  kept : ∀ i, cursor' ≤ i → peek old' i = peek old i
  perm : (entries slots' ++ entries old').Perm (entries slots ++ entries old)
  moved : ∃ moved, (entries slots').length = (entries slots).length + moved ∧
    (entries old').length + moved = (entries old).length ∧
    (cursor' < old.length → batch ≤ migrated + moved ∧ (migrated < batch → cursor < cursor'))

theorem migrate_spec (batch remaining migrated : Nat) (hprobed : Probed capacity slots)
    (hlength : cursor + remaining = old.length) (hcleared : ∀ i < cursor, peek old i = none)
    (hload : (entries slots).length + 2 * (entries old).length ≤ capacity) :
    ∃ old' cursor' slots', KvHashTable.migrate batch remaining old cursor migrated slots =
        some (old', cursor', slots') ∧
      Migrated capacity batch migrated slots old cursor slots' old' cursor' := by
  induction remaining generalizing slots old cursor migrated with
  | zero =>
    refine ⟨old, cursor, slots, rfl, hprobed, rfl, le_rfl, by omega, hcleared, fun _ _ => rfl,
      List.Perm.refl _, 0, rfl, rfl, fun h => by omega⟩
  | succ remaining ih =>
    unfold KvHashTable.migrate
    split_ifs with hbatch
    · cases hslot : peek old cursor with
      | none =>
        have hcleared' : ∀ i < cursor + 1, peek old i = none := by
          intro i hi
          rcases Nat.lt_or_eq_of_le (Nat.le_of_lt_succ hi) with hlt | rfl
          · exact hcleared i hlt
          · exact hslot
        obtain ⟨old', cursor', slots', hrun, hmigrated⟩ :=
          ih migrated hprobed (by omega) hcleared' hload
        obtain ⟨moved, hmoved⟩ := hmigrated.moved
        exact ⟨old', cursor', slots', hrun,
          { hmigrated with
            advanced := (Nat.le_succ _).trans hmigrated.advanced
            moved := ⟨moved, hmoved.1, hmoved.2.1, fun hlt =>
              ⟨(hmoved.2.2 hlt).1, fun _ => hmigrated.advanced⟩⟩ }⟩
      | some entry =>
        have hbelow := lt_of_peek hslot
        have hclear := entries_clear hslot
        have hold := hclear.length_eq
        rw [length_cons] at hold
        obtain ⟨inserted, hinsert, hinserted⟩ := hprobed.robinHoodInsert entry
          (by omega)
        have hnew := hinserted.perm.length_eq
        rw [length_cons] at hnew
        have hcleared' : ∀ i < cursor + 1, peek (old.set cursor none) i = none := by
          intro i hi
          rcases Nat.lt_or_eq_of_le (Nat.le_of_lt_succ hi) with hlt | rfl
          · rw [peek_set_ne (by omega), hcleared i hlt]
          · exact peek_set_self hbelow
        obtain ⟨old', cursor', slots', hrun, hmigrated⟩ :=
          @ih _ (old.set cursor none) _ (migrated + 1) hinserted.probed
            (by rw [length_set]; omega) hcleared' (by omega)
        obtain ⟨moved, hmoved⟩ := hmigrated.moved
        refine ⟨old', cursor', slots', by simp only [hinsert, Option.bind_eq_bind,
          Option.bind_some, hrun], hmigrated.probed, ?_, ?_, ?_, hmigrated.cleared,
          fun i hi => ?_, ?_, moved + 1, by omega, by omega, fun hlt => ?_⟩
        · rw [hmigrated.length, length_set]
        · exact (Nat.le_succ _).trans hmigrated.advanced
        · have hbound := hmigrated.bound
          rwa [length_set] at hbound
        · have := hmigrated.advanced
          rw [hmigrated.kept i hi, peek_set_ne (by omega)]
        · refine hmigrated.perm.trans ((hinserted.perm.append_right _).trans ?_)
          exact perm_middle.symm.trans (hclear.append_left _)
        · have := hmoved.2.2 (by rwa [length_set])
          exact ⟨by omega, fun _ => hmigrated.advanced⟩
    · exact ⟨old, cursor, slots, rfl, hprobed, rfl, le_rfl, by omega, hcleared,
        fun _ _ => rfl, List.Perm.refl _, 0, rfl, rfl, fun _ => ⟨by omega, fun h => absurd h hbatch⟩⟩

end Migration

theorem liveEntries_some (h : table.rehashSource = some old) :
    table.liveEntries = entries table.slots ++ entries old := by
  rw [KvHashTable.liveEntries, h]
  rfl

theorem liveEntries_none (h : table.rehashSource = none) :
    table.liveEntries = entries table.slots := by
  rw [KvHashTable.liveEntries, h]
  exact append_nil _

/-- A step of the rehash moves entries and changes nothing else. -/
structure Stepped (table next : KvHashTable) : Prop where
  len : next.len = table.len
  capacity : next.capacity = table.capacity
  overflow : next.overflow = table.overflow
  inlineThreshold : next.inlineThreshold = table.inlineThreshold
  surrogateToKey : next.surrogateToKey = table.surrogateToKey
  live : next.liveEntries.Perm table.liveEntries
  shaped : next.Settled → Shaped 1 next

theorem Rehashing.rehashing {batch : Nat} {slots' old' : Slots} {cursor' : Nat}
    (h : Rehashing 0 capacity slots old cursor) (hbatch : 0 < batch)
    (hmigrated : Migrated capacity batch 0 slots old cursor slots' old' cursor')
    (hahead : cursor' < old.length) (hrest : AtRest old' cursor') :
    Rehashing 1 capacity slots' old' cursor' := by
  obtain ⟨moved, hslots, hold, hfull⟩ := hmigrated.moved
  obtain ⟨hmoved, hadvanced⟩ := hfull hahead
  have hpositive : 0 < cursor' := by have := hadvanced hbatch; omega
  have hpower : ∃ k, old'.length = 2 ^ k := hmigrated.length ▸ h.probed.power
  have hload := h.load
  refine ⟨⟨hpower, hmigrated.length ▸ h.probed.large, ?_⟩, hmigrated.length ▸ h.double,
    hmigrated.length ▸ hahead, hmigrated.cleared, ?_, by omega, fun i hi hlt hempty => ?_⟩
  · rw [hmigrated.length]
    exact h.probed.ordered.clear_first hpositive hmigrated.length hmigrated.cleared hmigrated.kept
      (hmigrated.length ▸ hrest.barrier hpower)
  · refine ⟨0, by rw [hmigrated.length]; omega, fun entry hentry => ?_⟩
    rw [hmigrated.cleared 0 hpositive] at hentry
    exact nomatch hentry
  · have hspare := h.spare i (hmigrated.advanced.trans hi) (hmigrated.length ▸ hlt)
      ((hmigrated.kept i hi).symm.trans hempty)
    omega

theorem Shaped.rehashStep (h : Shaped 0 table) :
    ∃ next, table.rehashStep = some next ∧ Stepped table next := by
  cases hsource : table.rehashSource with
  | none =>
    refine ⟨table, by rw [KvHashTable.rehashStep, hsource], rfl, rfl, rfl, rfl, rfl,
      List.Perm.refl _, fun _ => ⟨h.batch, h.primary, h.steady, fun old hold => ?_⟩⟩
    exact nomatch hsource.symm.trans hold
  | some old =>
    have hrehash := h.rehashing old hsource
    obtain ⟨old', cursor', slots', hrun, hmigrated⟩ := migrate_spec
      table.rehashBatchSize (old.length - table.rehashCursor) 0 h.primary
      (Nat.add_sub_cancel' hrehash.ahead.le) hrehash.cleared hrehash.load
    simp only [KvHashTable.rehashStep, hsource, hrun, Option.bind_eq_bind, Option.bind_some]
    split_ifs with hdone
    · -- the old slots are empty
      rw [hmigrated.length] at hdone
      have hempty : entries old' = [] := entries_eq_nil fun i hi =>
        hmigrated.cleared i (by rw [hmigrated.length] at hi; omega)
      have hperm := hmigrated.perm
      rw [hempty, append_nil] at hperm
      refine ⟨_, rfl, rfl, rfl, rfl, rfl, rfl, ?_, fun _ => ⟨h.batch, hmigrated.probed,
        fun _ => ?_, fun old hold => nomatch hold⟩⟩
      · rw [liveEntries_none rfl, liveEntries_some hsource]
        exact hperm
      · show (entries slots').length < table.capacity
        rw [hperm.length_eq, length_append]
        exact hrehash.room
    · refine ⟨_, rfl, rfl, rfl, rfl, rfl, rfl, ?_, fun hsettled => ⟨h.batch, hmigrated.probed,
        nofun, fun rest hrest => ?_⟩⟩
      · rw [liveEntries_some rfl, liveEntries_some hsource]
        exact hmigrated.perm
      · obtain rfl := Option.some.inj hrest
        exact hrehash.rehashing h.batch hmigrated (hmigrated.length ▸ Nat.lt_of_not_le hdone)
          (hsettled old' rfl)

end NodeDB.Kv
