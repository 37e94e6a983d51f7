import NodeDB.KvRehash
import NodeDB.StepRuns

/-!
# The table is a map

Every call is a change of the map of rows that the table stands for, and gives
what the map gives, also in the middle of a rehash.  A put needs the old slots
to be at rest where it empties them.
-/

namespace NodeDB.Kv

open Std KeyedFold RobinHood StepRuns List Option KvHashTable

/-- The table stands for the map `rows`. -/
structure Represents (runtime : TableRuntime) (slack : Nat) (rows : Rows) (table : KvHashTable) :
    Prop where
  shaped : Shaped slack table
  contents : Contents runtime rows table.overflow table.surrogateToKey table.liveEntries
  len : table.len = table.liveEntries.length

section Parts

variable {runtime : TableRuntime} {slack : Nat} {rows : Rows} {table : KvHashTable} {old : Slots}
  {key : Bytes} {entry : KvEntry} {idx : Nat}

theorem mem_liveEntries : entry ∈ table.liveEntries ↔ entry ∈ entries table.slots ∨
    ∃ old, table.rehashSource = some old ∧ entry ∈ entries old := by
  cases hsource : table.rehashSource with
  | none => simp [liveEntries_none hsource]
  | some old => simp [liveEntries_some hsource]

theorem sublist_primary : (entries table.slots).Sublist table.liveEntries :=
  sublist_append_left _ _

theorem sublist_source (hsource : table.rehashSource = some old) :
    (entries old).Sublist table.liveEntries := by
  rw [liveEntries_some hsource]
  exact sublist_append_right _ _

theorem find_eq_none
    (hprimary : probeFindIndex table.slots (runtime.hashKey key) key = none)
    (hsource : (table.rehashSource.bind fun old =>
      (probeFindIndex old (runtime.hashKey key) key).map fun idx => (old, idx)) = none) :
    table.find runtime key = none := by
  simp only [KvHashTable.find, probeFind, hprimary, bind_none]
  rw [bind_eq_none_iff] at hsource ⊢
  intro old hold
  rw [map_eq_none_iff.mp (hsource old hold), bind_none]

section Searches

variable (h : Represents runtime slack rows table)

include h

theorem Represents.part {part : List KvEntry} (hsub : part.Sublist table.liveEntries) :
    Hashed runtime part ∧ (part.map (·.key)).Nodup :=
  ⟨fun entry hentry => h.contents.hashed entry (hsub.subset hentry),
    h.contents.keys.sublist (hsub.map _)⟩

theorem Represents.index_primary :
    probeFindIndex table.slots (runtime.hashKey key) key = some idx ↔
      ∃ entry, peek table.slots idx = some entry ∧ entry.key = key :=
  h.shaped.primary.probeFindIndex (h.part sublist_primary).1 (h.part sublist_primary).2

theorem Represents.index_source (hsource : table.rehashSource = some old) :
    probeFindIndex old (runtime.hashKey key) key = some idx ↔
      ∃ entry, peek old idx = some entry ∧ entry.key = key :=
  (h.shaped.rehashing old hsource).probed.probeFindIndex (h.part (sublist_source hsource)).1
    (h.part (sublist_source hsource)).2

theorem Represents.find_primary : probeFind table.slots (runtime.hashKey key) key = some entry ↔
    entry ∈ entries table.slots ∧ entry.key = key :=
  h.shaped.primary.probeFind (h.part sublist_primary).1 (h.part sublist_primary).2

theorem Represents.find_source (hsource : table.rehashSource = some old) :
    probeFind old (runtime.hashKey key) key = some entry ↔
      entry ∈ entries old ∧ entry.key = key :=
  (h.shaped.rehashing old hsource).probed.probeFind (h.part (sublist_source hsource)).1
    (h.part (sublist_source hsource)).2

theorem Represents.find : table.find runtime key = some entry ↔
    entry ∈ table.liveEntries ∧ entry.key = key := by
  have honly {a b : KvEntry} (ha : a ∈ table.liveEntries) (hb : b ∈ table.liveEntries)
      (hkey : a.key = b.key) : a = b :=
    inj_on_of_nodup_map h.contents.keys ha hb hkey
  cases hprimary : probeFind table.slots (runtime.hashKey key) key with
  | some found =>
    obtain ⟨hfound, rfl⟩ := h.find_primary.mp hprimary
    have hlive := sublist_primary.subset hfound
    simp only [KvHashTable.find, hprimary, Option.some.injEq]
    exact ⟨fun heq => heq ▸ ⟨hlive, rfl⟩, fun ⟨hentry, hkey⟩ => honly hlive hentry hkey.symm⟩
  | none =>
    have habsent : ¬(entry ∈ entries table.slots ∧ entry.key = key) := fun hentry =>
      nomatch hprimary.symm.trans (h.find_primary.mpr hentry)
    simp only [KvHashTable.find, hprimary]
    rw [bind_eq_some_iff, mem_liveEntries]
    constructor
    · rintro ⟨old, hsource, hfound⟩
      obtain ⟨hentry, hkey⟩ := (h.find_source hsource).mp hfound
      exact ⟨.inr ⟨old, hsource, hentry⟩, hkey⟩
    · rintro ⟨hentry | ⟨old, hsource, hentry⟩, hkey⟩
      · exact absurd ⟨hentry, hkey⟩ habsent
      · exact ⟨old, hsource, (h.find_source hsource).mpr ⟨hentry, hkey⟩⟩

variable {row : Row}

theorem Represents.find_row (hrow : rows[key]? = some row) :
    ∃ entry, table.find runtime key = some entry ∧ Shows table.overflow entry row := by
  obtain ⟨entry, hentry, rfl⟩ := mem_map.mp
    (h.contents.live key (mem_of_getElem? hrow))
  exact ⟨entry, h.find.mpr ⟨hentry, rfl⟩, h.contents.getElem?_eq_some hentry hrow⟩

theorem Represents.find_none : table.find runtime key = none ↔ rows[key]? = none := by
  constructor
  · intro hfind
    refine eq_none_iff_forall_ne_some.mpr fun row hrow => ?_
    obtain ⟨entry, hentry, _⟩ := h.find_row hrow
    exact nomatch hfind.symm.trans hentry
  · intro hrow
    refine eq_none_iff_forall_ne_some.mpr fun entry hentry => ?_
    obtain ⟨hlive, rfl⟩ := h.find.mp hentry
    obtain ⟨row, hheld, _⟩ := h.contents.shown entry hlive
    exact nomatch hrow.symm.trans hheld

/-! ## Reads -/

theorem Represents.getIgnoringExpiry :
    table.getIgnoringExpiry runtime key = (rows[key]?).map (·.value) := by
  unfold KvHashTable.getIgnoringExpiry
  cases hrow : rows[key]? with
  | none => simp [h.find_none.mpr hrow]
  | some row =>
    obtain ⟨entry, hentry, hvalue, _⟩ := h.find_row hrow
    simp [hentry, hvalue]

theorem Represents.get {nowMs : Nat} : table.get runtime key nowMs =
    ((rows[key]?).filter fun row => !row.isExpired nowMs).map (·.value) := by
  unfold KvHashTable.get KvHashTable.getWithSurrogate
  cases hrow : rows[key]? with
  | none => simp [h.find_none.mpr hrow]
  | some row =>
    obtain ⟨entry, hentry, hvalue, hexpiry, _⟩ := h.find_row hrow
    have hexpired : entry.isExpired nowMs = row.isExpired nowMs := by
      rw [KvEntry.isExpired, Row.isExpired, hexpiry]
    cases hstate : row.isExpired nowMs <;>
      simp [hentry, hvalue, hexpired, hstate]

theorem Represents.getEntryMeta : table.getEntryMeta runtime key =
    (rows[key]?).map fun row => ⟨decide (row.expireAtMs ≠ noExpiry), row.expireAtMs⟩ := by
  unfold KvHashTable.getEntryMeta
  cases hrow : rows[key]? with
  | none => simp [h.find_none.mpr hrow]
  | some row =>
    obtain ⟨entry, hentry, _, hexpiry, _⟩ := h.find_row hrow
    simp [hentry, KvEntry.hasTtl, hexpiry]

theorem Represents.keyForSurrogate (hrow : rows[key]? = some row) :
    table.keyForSurrogate row.surrogate = some key := by
  obtain ⟨entry, hentry, _, _, hsurrogate⟩ := h.find_row hrow
  obtain ⟨hlive, hkey⟩ := h.find.mp hentry
  exact (h.contents.surrogates _ _).mpr ⟨entry, hlive, hsurrogate, hkey⟩

end Searches

/-! ## Where a key is -/

inductive Located (runtime : TableRuntime) (rows : Rows) (table : KvHashTable) (key : Bytes) : Prop
  | primary (idx : Nat) (entry : KvEntry) (row : Row)
      (index : probeFindIndex table.slots (runtime.hashKey key) key = some idx)
      (slot : peek table.slots idx = some entry) (named : entry.key = key)
      (held : rows[key]? = some row) (shows : Shows table.overflow entry row)
      (elsewhere : ∀ old, table.rehashSource = some old →
        probeFindIndex old (runtime.hashKey key) key = none)
  | source (old : Slots) (idx : Nat) (entry : KvEntry) (row : Row)
      (elsewhere : probeFindIndex table.slots (runtime.hashKey key) key = none)
      (rehashing : table.rehashSource = some old)
      (index : probeFindIndex old (runtime.hashKey key) key = some idx)
      (slot : peek old idx = some entry) (named : entry.key = key)
      (held : rows[key]? = some row) (shows : Shows table.overflow entry row)
  | absent (held : rows[key]? = none)
      (elsewhere : probeFindIndex table.slots (runtime.hashKey key) key = none)
      (nowhere : ∀ old, table.rehashSource = some old →
        probeFindIndex old (runtime.hashKey key) key = none)

theorem Represents.located (h : Represents runtime slack rows table) (key : Bytes) :
    Located runtime rows table key := by
  have hshown {entry : KvEntry} (hlive : entry ∈ table.liveEntries) (hkey : entry.key = key) :
      ∃ row, rows[key]? = some row ∧ Shows table.overflow entry row :=
    hkey ▸ h.contents.shown entry hlive
  cases hprimary : probeFindIndex table.slots (runtime.hashKey key) key with
  | some idx =>
    obtain ⟨entry, hentry, hkey⟩ := h.index_primary.mp hprimary
    have hmem : entry ∈ entries table.slots := mem_entries.mpr ⟨idx, hentry⟩
    obtain ⟨row, hrow, hshows⟩ := hshown (sublist_primary.subset hmem) hkey
    refine .primary idx entry row hprimary hentry hkey hrow hshows fun old hold => ?_
    refine eq_none_iff_forall_ne_some.mpr fun other hother => ?_
    obtain ⟨twin, htwin, htwinKey⟩ := (h.index_source hold).mp hother
    have hkeys := h.contents.keys
    rw [liveEntries_some hold, map_append, nodup_append] at hkeys
    exact hkeys.2.2 _ (mem_map_of_mem hmem) _
      (mem_map_of_mem (mem_entries.mpr ⟨other, htwin⟩)) (hkey.trans htwinKey.symm)
  | none =>
    cases hsource : (table.rehashSource.bind fun old =>
        (probeFindIndex old (runtime.hashKey key) key).map fun idx => (old, idx)) with
    | some found =>
      obtain ⟨old, hold, hfound⟩ := bind_eq_some_iff.mp hsource
      obtain ⟨idx, hidx, rfl⟩ := map_eq_some_iff.mp hfound
      obtain ⟨entry, hentry, hkey⟩ := (h.index_source hold).mp hidx
      obtain ⟨row, hrow, hshows⟩ :=
        hshown ((sublist_source hold).subset (mem_entries.mpr ⟨idx, hentry⟩)) hkey
      exact .source old idx entry row hprimary hold hidx hentry hkey hrow hshows
    | none =>
      refine .absent (h.find_none.mp (find_eq_none hprimary hsource)) hprimary
        fun old hold => ?_
      exact map_eq_none_iff.mp (bind_eq_none_iff.mp hsource old hold)

/-! ## Writes -/

variable {slack' capacity cursor : Nat} {slots : Slots}

theorem Rehashing.reslot {slots' : Slots} (h : Rehashing slack capacity slots old cursor)
    (hlength : (entries slots').length + slack' ≤ (entries slots).length + slack) :
    Rehashing slack' capacity slots' old cursor :=
  { h with
    load := by
      have := h.load
      omega
    spare := fun i hi hlt hempty => by
      have := h.spare i hi hlt hempty
      omega }

theorem Shaped.reslot (h : Shaped slack table) (hprobed : Probed table.capacity slots)
    (hlength : (entries slots).length = (entries table.slots).length) (hslack : slack' ≤ slack) :
    Shaped slack' { table with slots := slots } where
  batch := h.batch
  primary := hprobed
  steady hsource := by
    rw [hlength]
    exact h.steady hsource
  rehashing old hold := (h.rehashing old hold).reslot (Nat.add_le_add hlength.le hslack)

variable {value : Bytes} {expireAtMs surrogate : Nat}

/-- What a put may do to the table: a value and a number of rows that lengths and handles can
count, and a surrogate of its own for a new row.  The old slots are at rest at the cursor once the
batch has been moved, and behind the key if it is still there. -/
structure PutAllowed (runtime : TableRuntime) (table : KvHashTable) (key value : Bytes)
    (surrogate : Nat) : Prop where
  fits : value.length < 2 ^ 32
  few : table.len < 2 ^ 28
  unused : table.find runtime key = none → table.keyForSurrogate surrogate = none
  settled : ∀ next, table.rehashStep = some next → next.Settled
  alone : ∀ next old idx, table.rehashStep = some next → next.rehashSource = some old →
    probeFindIndex old (runtime.hashKey key) key = some idx →
      AtRest old (nextSlot old.length idx)

instance decidableForallEqSome {α : Type*} (held : Option α) (p : α → Prop) [DecidablePred p] :
    Decidable (∀ a, held = some a → p a) :=
  match held with
  | none => isTrue nofun
  | some a => decidable_of_iff (p a) ⟨fun hp _ heq => Option.some.inj heq ▸ hp, fun h => h a rfl⟩

instance (slots : Slots) (idx : Nat) : Decidable (AtRest slots idx) :=
  inferInstanceAs (Decidable (∀ _, _ = _ → _))

instance (table : KvHashTable) : Decidable table.Settled :=
  inferInstanceAs (Decidable (∀ _, _ = _ → _))

instance (runtime : TableRuntime) (table : KvHashTable) (key value : Bytes) (surrogate : Nat) :
    Decidable (PutAllowed runtime table key value surrogate) :=
  decidable_of_iff
    ((value.length < 2 ^ 32 ∧ table.len < 2 ^ 28 ∧
        (table.find runtime key = none → table.keyForSurrogate surrogate = none)) ∧
      ∀ next, table.rehashStep = some next → next.Settled ∧
        ∀ old, next.rehashSource = some old →
          ∀ idx, probeFindIndex old (runtime.hashKey key) key = some idx →
            AtRest old (nextSlot old.length idx))
    ⟨fun h => ⟨h.1.1, h.1.2.1, h.1.2.2, fun next hnext => (h.2 next hnext).1,
        fun next old idx hnext hold => (h.2 next hnext).2 old hold idx⟩,
      fun h => ⟨⟨h.fits, h.few, h.unused⟩, fun next hnext => ⟨h.settled next hnext,
        fun old hold idx => h.alone next old idx hnext hold⟩⟩⟩

def Rows.put (rows : Rows) (key value : Bytes) (expireAtMs surrogate : Nat) : Rows :=
  rows.insert key
    { value := value
      expireAtMs := expireAtMs
      surrogate := ((rows[key]?).map (·.surrogate)).getD surrogate }

theorem Represents.replaceValue (expireAtMs surrogate : Nat) {rest : List KvEntry}
    (h : Represents runtime slack rows table)
    (hlive : table.liveEntries.Perm (entry :: rest)) (hfits : value.length < 2 ^ 32)
    (hfew : table.len < 2 ^ 28) :
    ∃ overflow newValue, table.replaceValue entry value =
        some (overflow, newValue, ((rows[entry.key]?).map (·.value)).getD []) ∧
      Contents runtime (Rows.put rows entry.key value expireAtMs surrogate) overflow
        table.surrogateToKey
        ({ entry with value := newValue, expireAtMs := expireAtMs } :: rest) := by
  have hcontents := h.contents.perm hlive.symm
  have hlen := h.len
  rw [hlive.length_eq, length_cons] at hlen
  obtain ⟨row, hrow, hvalue, _, hsurrogate⟩ := hcontents.shown entry mem_cons_self
  obtain ⟨freed, overflow, newValue, hfree, hstore, hreplaced⟩ :=
    hcontents.replace hfits (by omega) table.inlineThreshold expireAtMs
  refine ⟨overflow, newValue, ?_, ?_⟩
  · simp [KvHashTable.replaceValue, hvalue, hfree, hstore, hrow]
  · rw [Rows.put, hrow, map_some, getD_some, ← hsurrogate]
    exact hreplaced

theorem perm_primary (hentry : peek table.slots idx = some entry) :
    table.liveEntries.Perm (entry :: KvHashTable.liveEntries
      { table with slots := table.slots.set idx none }) :=
  (entries_clear hentry).symm.append_right _

theorem perm_source (hsource : table.rehashSource = some old) (hentry : peek old idx = some entry) :
    table.liveEntries.Perm (entry :: (entries table.slots ++ entries (old.set idx none))) := by
  rw [liveEntries_some hsource]
  exact ((entries_clear hentry).symm.append_left _).trans perm_middle

theorem Represents.set_primary {overflow : SlabAllocator} {rows' : Rows} {updated : KvEntry}
    (h : Represents runtime slack rows table) (hslack : slack' ≤ slack)
    (hentry : peek table.slots idx = some entry) (hhash : updated.hash = entry.hash)
    (hcontents : Contents runtime rows' overflow table.surrogateToKey
      (updated :: KvHashTable.liveEntries { table with slots := table.slots.set idx none })) :
    Represents runtime slack' rows'
      { table with
        slots := table.slots.set idx (some updated)
        overflow := overflow } := by
  have hlength : (entries (table.slots.set idx (some updated))).length =
      (entries table.slots).length := length_entries_replace hentry
  refine ⟨?_, ?_, h.len.trans ?_⟩
  · exact { h.shaped.reslot (h.shaped.primary.set updated hentry hhash) hlength hslack with }
  · exact hcontents.perm ((entries_set_some (lt_of_peek hentry)).append_right _)
  · simp only [liveEntries, length_append, hlength]

theorem Represents.put_source (expireAtMs surrogate : Nat) (h : Represents runtime 1 rows table)
    (hfits : value.length < 2 ^ 32) (hfew : table.len < 2 ^ 28)
    (hsource : table.rehashSource = some old) (hentry : peek old idx = some entry)
    (hrest : AtRest old (nextSlot old.length idx)) :
    ∃ overflow newValue slots, table.replaceValue entry value =
        some (overflow, newValue, ((rows[entry.key]?).map (·.value)).getD []) ∧
      robinHoodInsert table.slots { entry with value := newValue, expireAtMs := expireAtMs } =
        some slots ∧
      Represents runtime 0 (Rows.put rows entry.key value expireAtMs surrogate)
        { table with
          slots := slots
          rehashSource := some (old.set idx none)
          overflow := overflow } := by
  have hbelow := lt_of_peek hentry
  have hrehash := h.shaped.rehashing old hsource
  have hpower := hrehash.probed.power
  obtain ⟨overflow, newValue, hreplace, hcontents⟩ :=
    h.replaceValue expireAtMs surrogate (perm_source hsource hentry) hfits hfew
  have hold := (entries_clear hentry).length_eq
  rw [length_cons] at hold
  have hload := hrehash.load
  obtain ⟨slots, hinsert, hinserted⟩ := h.shaped.primary.robinHoodInsert
    { entry with value := newValue, expireAtMs := expireAtMs } h.shaped.room
  have hnew := hinserted.perm.length_eq
  rw [length_cons] at hnew
  have hcursor : table.rehashCursor ≤ idx := by
    by_contra hlt
    rw [hrehash.cleared idx (by omega)] at hentry
    exact nomatch hentry
  refine ⟨overflow, newValue, slots, hreplace, hinsert, ⟨h.shaped.batch, hinserted.probed,
    nofun, fun rest hrestSource => ?_⟩, ?_, ?_⟩
  · obtain rfl := Option.some.inj hrestSource
    have hordered := hrehash.probed.ordered.clear hbelow
      (nextSlot_eq hpower idx ▸ hrest.barrier hpower)
    refine ⟨?_, by rw [length_set]; exact hrehash.double,
      by rw [length_set]; exact hrehash.ahead, fun i hi => ?_, ⟨idx, ?_, ?_⟩, ?_, ?_⟩
    · rw [length_set]
      exact ⟨hpower, hrehash.probed.large, hordered⟩
    · have hi : i < table.rehashCursor := hi
      rw [peek_set_ne (by omega), hrehash.cleared i hi]
    · rwa [length_set]
    · intro other hother
      rw [peek_set_self hbelow] at hother
      exact nomatch hother
    · dsimp only
      omega
    · intro _ _ _ _
      dsimp only
      omega
  · exact hcontents.perm (hinserted.perm.append_right _)
  · refine h.len.trans ?_
    simp only [liveEntries, hsource, map_some, getD_some, length_append]
    omega

def TableRuntime.BelowOne (runtime : TableRuntime) : Prop :=
  ∀ len capacity, 0 < capacity → capacity ≤ len → runtime.overloaded len capacity = true

theorem represents_maybeStartRehash (hbelow : runtime.BelowOne)
    (hbatch : 0 < table.rehashBatchSize)
    (hprimary : Probed table.capacity table.slots)
    (hcontents : Contents runtime rows table.overflow table.surrogateToKey table.liveEntries)
    (hlen : table.len = table.liveEntries.length)
    (hseated : ∃ barrier < table.capacity, Barrier (home table.capacity) table.slots barrier)
    (hrehashing : ∀ old, table.rehashSource = some old →
      Rehashing 0 table.capacity table.slots old table.rehashCursor) :
    Represents runtime 0 rows (table.maybeStartRehash runtime) := by
  unfold maybeStartRehash
  split
  · rename_i old hsource
    exact ⟨⟨hbatch, hprimary, fun hnone => (nomatch hsource.symm.trans hnone), hrehashing⟩,
      hcontents, hlen⟩
  · rename_i hsource
    have hlive := liveEntries_none hsource
    rw [hlive] at hlen
    split_ifs with hload
    · have hlength := hprimary.ordered.length
      refine ⟨⟨hbatch, ⟨?_, ?_, ordered_replicate⟩, nofun, fun old hold => ?_⟩, ?_, ?_⟩
      · obtain ⟨k, hk⟩ := hprimary.power
        exact ⟨k + 1, by rw [Nat.pow_succ, ← hk]⟩
      · dsimp only
        omega
      · obtain rfl := Option.some.inj hold
        have hfew := reduceOption_length_le table.slots
        refine ⟨hlength.symm ▸ hprimary, ?_, ?_, fun i hi => absurd hi (Nat.not_lt_zero i),
          hlength.symm ▸ hseated, ?_, fun i _ hi hempty => ?_⟩
        · dsimp only
          omega
        · dsimp only
          omega
        · rw [entries_replicate, length_nil, entries]
          dsimp only
          omega
        · rw [entries_replicate, length_nil]
          have := length_entries_lt hi hempty
          dsimp only
          omega
      · rw [hlive] at hcontents
        rw [liveEntries_some rfl, entries_replicate]
        exact hcontents
      · rw [liveEntries_some rfl, entries_replicate]
        exact hlen
    · refine ⟨⟨hbatch, hprimary, fun _ => ?_, hrehashing⟩, hcontents, hlive.symm ▸ hlen⟩
      by_contra hfull
      exact hload (hbelow _ _ (capacity_pos hprimary.power) (by omega))

theorem Represents.put_new (expireAtMs surrogate : Nat) (hbelow : runtime.BelowOne)
    (h : Represents runtime 1 rows table)
    (hfits : value.length < 2 ^ 32) (hfew : table.len < 2 ^ 28) (habsent : rows[key]? = none)
    (hunused : table.keyForSurrogate surrogate = none) :
    ∃ overflow newValue slots,
      storeValueIn table.overflow value table.inlineThreshold = some (overflow, newValue) ∧
      robinHoodInsert table.slots
        { hash := runtime.hashKey key, key := key, value := newValue, expireAtMs := expireAtMs
          surrogate := surrogate } = some slots ∧
      Represents runtime 0 (Rows.put rows key value expireAtMs surrogate)
        (KvHashTable.maybeStartRehash runtime
          { table with
            slots := slots
            overflow := overflow
            surrogateToKey := table.surrogateToKey.insert surrogate key
            len := table.len + 1 }) := by
  have hkey : key ∉ table.liveEntries.map (·.key) := by
    intro hmem
    obtain ⟨entry, hentry, rfl⟩ := mem_map.mp hmem
    exact nomatch (h.find_none.mpr habsent).symm.trans (h.find.mpr ⟨hentry, rfl⟩)
  obtain ⟨overflow, newValue, hstore, hcontents⟩ := h.contents.add hkey hunused
    hfits (h.len ▸ hfew) table.inlineThreshold expireAtMs
  obtain ⟨slots, hinsert, hinserted⟩ := h.shaped.primary.robinHoodInsert
    ⟨runtime.hashKey key, key, newValue, expireAtMs, surrogate⟩ h.shaped.room
  have hlength := hinserted.perm.length_eq
  rw [length_cons] at hlength
  refine ⟨overflow, newValue, slots, hstore, hinsert, represents_maybeStartRehash hbelow
    h.shaped.batch hinserted.probed ?_ ?_ hinserted.seated fun old hold => ?_⟩
  · rw [Rows.put, habsent]
    exact hcontents.perm (hinserted.perm.append_right _)
  · have hlen := h.len
    simp only [liveEntries, length_append] at hlen ⊢
    omega
  · refine (h.shaped.rehashing old hold).reslot ?_
    dsimp only
    omega

theorem Represents.put (expireAtMs : Nat) (hbelow : runtime.BelowOne)
    (h : Represents runtime 0 rows table)
    (hallowed : PutAllowed runtime table key value surrogate) :
    ∃ next, table.put runtime key value expireAtMs surrogate =
        some (next, (rows[key]?).map (·.value)) ∧
      Represents runtime 0 (Rows.put rows key value expireAtMs surrogate) next := by
  obtain ⟨stepped, hstep, hstepped⟩ := h.shaped.rehashStep
  have hsettled : Represents runtime 1 rows stepped :=
    { shaped := hstepped.shaped (hallowed.settled stepped hstep)
      contents := by
        rw [hstepped.overflow, hstepped.surrogateToKey]
        exact h.contents.perm hstepped.live
      len := by rw [hstepped.len, h.len, hstepped.live.length_eq] }
  have hfew : stepped.len < 2 ^ 28 := hstepped.len ▸ hallowed.few
  unfold KvHashTable.put
  simp only [hstep, bind_eq_bind, bind_some]
  cases hsettled.located key with
  | primary idx entry row hindex hslot hkey hrow =>
    subst hkey
    obtain ⟨overflow, newValue, hreplace, hcontents⟩ := hsettled.replaceValue expireAtMs surrogate
      (perm_primary hslot) hallowed.fits hfew
    rw [hrow] at hreplace ⊢
    simp only [hindex, hslot, hreplace, bind_some]
    exact ⟨_, rfl, hsettled.set_primary (Nat.zero_le 1) hslot rfl hcontents⟩
  | source old idx entry row helsewhere hold hindex hslot hkey hrow =>
    subst hkey
    obtain ⟨overflow, newValue, slots, hreplace, hinsert, hnext⟩ :=
      hsettled.put_source expireAtMs surrogate hallowed.fits hfew hold hslot
        (hallowed.alone stepped old idx hstep hold hindex)
    have hhash : entry.hash = runtime.hashKey entry.key :=
      (hsettled.part (sublist_source hold)).1 entry (mem_entries.mpr ⟨idx, hslot⟩)
    rw [hhash] at hinsert
    rw [hrow] at hreplace ⊢
    simp only [helsewhere, hold, hindex, hslot, hreplace, hinsert, bind_some, map_some]
    exact ⟨_, rfl, hnext⟩
  | absent habsent helsewhere hnowhere =>
    have hsource : (stepped.rehashSource.bind fun old =>
        (probeFindIndex old (runtime.hashKey key) key).map fun idx => (old, idx)) = none :=
      bind_eq_none_iff.mpr fun old hold => by rw [hnowhere old hold, map_none]
    obtain ⟨overflow, newValue, slots, hstore, hinsert, hnext⟩ := hsettled.put_new
      expireAtMs surrogate hbelow hallowed.fits hfew habsent
      (by
        rw [KvHashTable.keyForSurrogate, hstepped.surrogateToKey]
        exact hallowed.unused (h.find_none.mpr habsent))
    simp only [helsewhere, hsource, hstore, hinsert, bind_some, habsent, map_none]
    exact ⟨_, rfl, hnext⟩

def Rows.rewrite (rows : Rows) (key value : Bytes) (expireAtMs : Nat) : Rows :=
  if (rows[key]?).isSome then rows.put key value expireAtMs 0 else rows

theorem Represents.rewrite (expireAtMs : Nat) (hbelow : runtime.BelowOne)
    (h : Represents runtime 0 rows table)
    (hallowed : ∀ entry, table.find runtime key = some entry →
      PutAllowed runtime table key value entry.surrogate) :
    ∃ next, table.rewrite runtime key value expireAtMs =
        some (next, (rows[key]?).map (·.value)) ∧
      Represents runtime 0 (Rows.rewrite rows key value expireAtMs) next := by
  unfold KvHashTable.rewrite Rows.rewrite
  cases hrow : rows[key]? with
  | none =>
    rw [h.find_none.mpr hrow]
    exact ⟨table, rfl, h⟩
  | some row =>
    obtain ⟨entry, hentry, _⟩ := h.find_row hrow
    obtain ⟨next, hput, hnext⟩ := h.put expireAtMs hbelow (hallowed entry hentry)
    refine ⟨next, by simp only [hentry, hput, hrow], ?_⟩
    rw [Rows.put, hrow] at hnext
    rw [isSome_some, if_pos rfl, Rows.put, hrow]
    exact hnext

/-! ## Removals and expiries -/

theorem Represents.remove_primary (h : Represents runtime 0 rows table)
    (hentry : peek table.slots idx = some entry) :
    ∃ overflow slots, freeValueFrom entry.value table.overflow = some overflow ∧
      repairAfterDelete (table.slots.set idx none) idx = some slots ∧
      Represents runtime 0 (rows.erase entry.key)
        { table with
          slots := slots
          overflow := overflow
          surrogateToKey := table.surrogateToKey.erase entry.surrogate
          len := table.len - 1 } := by
  obtain ⟨gap, hgap, hempty⟩ :=
    exists_empty (h.shaped.primary.ordered.length.symm ▸ h.shaped.room)
  obtain ⟨slots, hrepair, hremoved⟩ := h.shaped.primary.repairAfterDelete
    (h.shaped.primary.ordered.length ▸ hgap)
    (fun other hother => (nomatch hempty.symm.trans hother)) hentry
  have hlength := hremoved.perm.length_eq
  rw [length_cons] at hlength
  have hlive : table.liveEntries.Perm (entry :: liveEntries
      { table with slots := slots }) := hremoved.perm.symm.append_right _
  obtain ⟨overflow, hfree, hcontents⟩ := (h.contents.perm hlive.symm).remove
  refine ⟨overflow, slots, hfree, hrepair, ⟨h.shaped.batch, hremoved.probed, fun hsource => ?_,
    fun old hold => ?_⟩, hcontents, ?_⟩
  · have := h.shaped.steady hsource
    dsimp only
    omega
  · refine (h.shaped.rehashing old hold).reslot ?_
    dsimp only
    omega
  · exact Nat.sub_eq_of_eq_add (h.len.trans hlive.length_eq)

theorem Represents.remove_source (h : Represents runtime 0 rows table)
    (hsource : table.rehashSource = some old) (hentry : peek old idx = some entry) :
    ∃ overflow rest, freeValueFrom entry.value table.overflow = some overflow ∧
      repairAfterDelete (old.set idx none) idx = some rest ∧
      Represents runtime 0 (rows.erase entry.key)
        { table with
          rehashSource := some rest
          overflow := overflow
          surrogateToKey := table.surrogateToKey.erase entry.surrogate
          len := table.len - 1 } := by
  have hrehash := h.shaped.rehashing old hsource
  obtain ⟨barrier, hbound, hbarrier⟩ := hrehash.seated
  obtain ⟨rest, hrepair, hremoved⟩ := hrehash.probed.repairAfterDelete hbound hbarrier hentry
  have hlength := hremoved.perm.length_eq
  rw [length_cons] at hlength
  have hsize := hremoved.probed.ordered.length
  have hlive : table.liveEntries.Perm (entry :: liveEntries
      { table with rehashSource := some rest }) := by
    rw [liveEntries_some hsource]
    exact (hremoved.perm.symm.append_left _).trans perm_middle
  obtain ⟨overflow, hfree, hcontents⟩ := (h.contents.perm hlive.symm).remove
  have hload := hrehash.load
  have hfew := reduceOption_length_le old
  refine ⟨overflow, rest, hfree, hrepair, ⟨h.shaped.batch, h.shaped.primary, nofun,
    fun other hother => ?_⟩, hcontents, ?_⟩
  · obtain rfl := Option.some.inj hother
    obtain ⟨gap, hgap, hempty⟩ : ∃ i < rest.length, peek rest i = none :=
      exists_empty (by unfold entries at hlength ⊢; omega)
    refine ⟨hsize.symm ▸ hremoved.probed, hsize.symm ▸ hrehash.double, hsize.symm ▸ hrehash.ahead,
      fun i hi => hremoved.empty i (hrehash.cleared i hi),
      ⟨gap, hgap, fun other hother => (nomatch hempty.symm.trans hother)⟩, ?_, ?_⟩
    · dsimp only
      omega
    · intro _ _ _ _
      dsimp only
      omega
  · exact Nat.sub_eq_of_eq_add (h.len.trans hlive.length_eq)

theorem Represents.removeIf (key : Bytes) (h : Represents runtime 0 rows table)
    {check : KvEntry → Bool}
    (accepts : Row → Bool)
    (hcheck : ∀ entry row, Shows table.overflow entry row → check entry = accepts row) :
    ∃ next, table.removeIf runtime key check = some (next, (rows[key]?).any accepts) ∧
      Represents runtime 0 (if (rows[key]?).any accepts then rows.erase key else rows) next := by
  unfold KvHashTable.removeIf
  have hsource (helsewhere : ∀ old, table.rehashSource = some old →
      probeFindIndex old (runtime.hashKey key) key = none) : (table.rehashSource.bind fun old =>
        (((probeFindIndex old (runtime.hashKey key) key).bind fun idx =>
          (peek old idx).bind fun entry => if check entry then some (idx, entry) else none).map
            fun place => (old, place))) = none := by
    refine bind_eq_none_iff.mpr fun old hold => ?_
    rw [helsewhere old hold]
    rfl
  cases h.located key with
  | primary idx entry row hindex hslot hkey hrow hshows helsewhere =>
    simp only [bind_eq_bind, hindex, hslot, bind_some, hcheck entry row hshows, hrow, any_some]
    cases haccepts : accepts row with
    | false =>
      simp only [Bool.false_eq_true, if_false, hsource helsewhere]
      exact ⟨table, rfl, h⟩
    | true =>
      obtain ⟨overflow, slots, hfree, hrepair, hnext⟩ := h.remove_primary hslot
      simp only [if_true, hfree, hrepair, bind_some]
      exact ⟨_, rfl, hkey ▸ hnext⟩
  | source old idx entry row helsewhere hold hindex hslot hkey hrow hshows =>
    simp only [bind_eq_bind, helsewhere, hold, hindex, hslot, bind_none,
      bind_some, hcheck entry row hshows, hrow, any_some]
    cases haccepts : accepts row with
    | false =>
      exact ⟨table, rfl, h⟩
    | true =>
      obtain ⟨overflow, rest, hfree, hrepair, hnext⟩ := h.remove_source hold hslot
      simp only [if_true, map_some, hfree, hrepair, bind_some]
      exact ⟨_, rfl, hkey ▸ hnext⟩
  | absent hrow helsewhere hnowhere =>
    simp only [bind_eq_bind, helsewhere, bind_none, hsource hnowhere, hrow, any_none,
      Bool.false_eq_true, if_false]
    exact ⟨table, rfl, h⟩

theorem Represents.delete (h : Represents runtime 0 rows table) :
    ∃ next, table.delete runtime key = some (next, (rows[key]?).isSome) ∧
      Represents runtime 0 (rows.erase key) next := by
  obtain ⟨next, hnext, hrows⟩ := h.removeIf key (fun _ => true) fun _ _ _ => rfl
  cases hrow : rows[key]? with
  | some row =>
    rw [hrow] at hnext hrows
    exact ⟨next, hnext, hrows⟩
  | none =>
    rw [hrow] at hnext hrows
    refine ⟨next, hnext, { hrows with contents := hrows.contents.congr (fun other => ?_) ?_ }⟩
    · by_cases heq : other = key
      · subst heq
        simpa using hrow.symm
      · exact getElem?_erase_ne _ heq
    · exact fun _ => rfl

theorem Represents.reapExpired (h : Represents runtime 0 rows table) (expectedExpireMs : Nat) :
    ∃ next, table.reapExpired runtime key expectedExpireMs =
        some (next, (rows[key]?).any fun row => row.expireAtMs = expectedExpireMs) ∧
      Represents runtime 0
        (if (rows[key]?).any fun row => row.expireAtMs = expectedExpireMs then rows.erase key
          else rows) next :=
  h.removeIf _ (fun row => row.expireAtMs = expectedExpireMs) fun _ _ hshows => by
    rw [hshows.2.1]

theorem Rehashing.set {updated : KvEntry} (h : Rehashing slack capacity slots old cursor)
    (hentry : peek old idx = some entry) (hhash : updated.hash = entry.hash) :
    Rehashing slack capacity slots (old.set idx (some updated)) cursor := by
  have hbelow := lt_of_peek hentry
  have hprobed := h.probed.set updated hentry hhash
  have hlength : (entries (old.set idx (some updated))).length = (entries old).length :=
    length_entries_replace hentry
  have hempty {i : Nat} : peek (old.set idx (some updated)) i = none ↔ peek old i = none := by
    by_cases hi : i = idx
    · subst hi
      rw [peek_set_self hbelow, hentry]
      exact iff_of_false nofun nofun
    · rw [peek_set_ne hi]
  obtain ⟨barrier, hbound, hbarrier⟩ := h.seated
  constructor
  · rw [length_set]
    exact hprobed
  · rw [length_set]
    exact h.double
  · rw [length_set]
    exact h.ahead
  · exact fun i hi => hempty.mpr (h.cleared i hi)
  · refine ⟨barrier, by rwa [length_set], fun other hother => ?_⟩
    rw [length_set]
    by_cases hi : barrier = idx
    · subst hi
      rw [peek_set_self hbelow] at hother
      obtain rfl := Option.some.inj hother
      rw [home, hhash]
      exact hbarrier entry hentry
    · rw [peek_set_ne hi] at hother
      exact hbarrier other hother
  · rw [hlength]
    exact h.load
  · intro i hi hlt hnone
    rw [hlength]
    exact h.spare i hi (by rwa [length_set] at hlt) (hempty.mp hnone)

def Rows.setExpire (rows : Rows) (key : Bytes) (expireAtMs : Nat) : Rows :=
  match rows[key]? with
  | some row => rows.insert key { row with expireAtMs := expireAtMs }
  | none => rows

theorem Represents.setExpire (h : Represents runtime 0 rows table) :
    (table.setExpire runtime key expireAtMs).2 = (rows[key]?).isSome ∧
      Represents runtime 0 (Rows.setExpire rows key expireAtMs)
        (table.setExpire runtime key expireAtMs).1 := by
  unfold KvHashTable.setExpire Rows.setExpire
  cases h.located key with
  | primary idx entry row hindex hslot hkey hrow hshows helsewhere =>
    subst hkey
    simp only [hindex, hslot, hrow, map_some, isSome_some]
    exact ⟨trivial, h.set_primary le_rfl hslot rfl
      ((h.contents.perm (perm_primary hslot).symm).expire hrow)⟩
  | source old idx entry row helsewhere hold hindex hslot hkey hrow hshows =>
    subst hkey
    simp only [helsewhere, hold, hindex, hslot, hrow, bind_some, map_some, isSome_some]
    have hlength : (entries (old.set idx
        (some { entry with expireAtMs := expireAtMs }))).length = (entries old).length :=
      length_entries_replace hslot
    refine ⟨trivial, ⟨h.shaped.batch, h.shaped.primary, by simp, fun other hother => ?_⟩, ?_, ?_⟩
    · obtain rfl := Option.some.inj hother
      exact (h.shaped.rehashing old hold).set hslot rfl
    · refine ((h.contents.perm (perm_source hold hslot).symm).expire hrow).perm ?_
      rw [liveEntries_some rfl]
      exact ((entries_set_some (lt_of_peek hslot)).append_left _).trans perm_middle
    · refine h.len.trans ?_
      simp only [liveEntries, hold, map_some, getD_some, length_append, hlength]
  | absent hrow helsewhere hnowhere =>
    have hsource : (table.rehashSource.bind fun old =>
        (probeFindIndex old (runtime.hashKey key) key).map fun idx => (old, idx)) = none := by
      refine bind_eq_none_iff.mpr fun old hold => ?_
      rw [hnowhere old hold]
      rfl
    simp only [helsewhere, hsource, hrow]
    exact ⟨rfl, h⟩

/-! ## A new table -/

theorem represents_new {rehashBatchSize : Nat} (inlineThreshold : Nat)
    (hbatch : 0 < rehashBatchSize) :
    Represents runtime 0 ∅ (.new capacity rehashBatchSize inlineThreshold) := by
  have hcapacity : ∃ k, max capacity.nextPowerOfTwo 4 = 2 ^ k := by
    obtain ⟨k, hk⟩ := Nat.isPowerOfTwo_nextPowerOfTwo capacity
    rcases max_choice capacity.nextPowerOfTwo 4 with hmax | hmax
    · exact ⟨k, hmax.trans hk⟩
    · exact ⟨2, hmax⟩
  have hlarge : 4 ≤ max capacity.nextPowerOfTwo 4 := le_max_right _ _
  have hlive : (new capacity rehashBatchSize inlineThreshold).liveEntries = [] := by
    rw [liveEntries_none rfl]
    exact entries_replicate _
  refine ⟨⟨hbatch, ⟨hcapacity, Nat.le_trans (by decide) hlarge, ordered_replicate⟩,
    fun _ => ?_, nofun⟩, ?_, ?_⟩
  · exact (congrArg List.length (entries_replicate _)).trans_lt
      (Nat.lt_of_lt_of_le (by decide) hlarge)
  · rw [hlive]
    exact contents_empty
  · rw [hlive]
    rfl

end Parts

end NodeDB.Kv
