import NodeDB.KvProbing

/-!
# What the table holds

The entries of a table stand for a map of rows, whatever slots they are in.
The overflow values they name are all that is allocated, each by one entry,
and the reverse map has the surrogates they carry.
-/

namespace NodeDB.Kv

open Std KeyedFold List SlabAllocator

structure Row where
  value : Bytes
  expireAtMs : Nat
  surrogate : Nat
  deriving DecidableEq

def Row.isExpired (row : Row) (nowMs : Nat) : Bool :=
  row.expireAtMs ≠ noExpiry ∧ nowMs ≥ row.expireAtMs

abbrev Rows := TreeMap Bytes Row

def KvEntry.place (entry : KvEntry) : Option Place :=
  match entry.value with
  | .inline _ => none
  | .overflow index _ => some (placeOf index)

def Shows (overflow : SlabAllocator) (entry : KvEntry) (row : Row) : Prop :=
  readValueFrom entry overflow = some row.value ∧ entry.expireAtMs = row.expireAtMs ∧
    entry.surrogate = row.surrogate

/-- The entries show the rows, and own what the slab has given out. -/
structure Contents (runtime : TableRuntime) (rows : Rows) (overflow : SlabAllocator)
    (surrogateToKey : TreeMap Nat Bytes) (all : List KvEntry) : Prop where
  hashed : Hashed runtime all
  keys : (all.map (·.key)).Nodup
  slab : overflow.Sound
  places : (all.filterMap (·.place)).Nodup
  owns : ∀ place, overflow.Owns place ↔ place ∈ all.filterMap (·.place)
  shown : ∀ entry ∈ all, ∃ row, rows[entry.key]? = some row ∧ Shows overflow entry row
  live : ∀ key ∈ rows, key ∈ all.map (·.key)
  surrogates : ∀ (surrogate : Nat) (key : Bytes), surrogateToKey[surrogate]? = some key ↔
    ∃ entry ∈ all, entry.surrogate = surrogate ∧ entry.key = key

section Contents

variable {runtime : TableRuntime} {rows rows' : Rows} {overflow overflow' : SlabAllocator}
  {surrogateToKey surrogateToKey' : TreeMap Nat Bytes} {all all' : List KvEntry} {entry : KvEntry}
  {key value : Bytes} {row : Row} {surrogate expireAtMs : Nat}

theorem contents_empty : Contents runtime ∅ .new ∅ [] where
  hashed := nofun
  keys := nodup_nil
  slab := sound_new
  places := nodup_nil
  owns place := iff_of_false (not_owns_new place) not_mem_nil
  shown := nofun
  live key h := by simp at h
  surrogates surrogate key := by simp

section

variable (h : Contents runtime rows overflow surrogateToKey all)
include h

theorem Contents.perm (hperm : all'.Perm all) :
    Contents runtime rows overflow surrogateToKey all' where
  hashed entry hentry := h.hashed entry (hperm.mem_iff.mp hentry)
  keys := (hperm.map _).nodup_iff.mpr h.keys
  slab := h.slab
  places := (hperm.filterMap _).nodup_iff.mpr h.places
  owns place := (h.owns place).trans (hperm.filterMap _).mem_iff.symm
  shown entry hentry := h.shown entry (hperm.mem_iff.mp hentry)
  live key hkey := (hperm.map _).mem_iff.mpr (h.live key hkey)
  surrogates surrogate key := by simp only [h.surrogates, hperm.mem_iff]

theorem Contents.congr (hrows : ∀ key : Bytes, rows'[key]? = rows[key]?)
    (hsurrogates : ∀ surrogate : Nat, surrogateToKey'[surrogate]? = surrogateToKey[surrogate]?) :
    Contents runtime rows' overflow surrogateToKey' all :=
  { h with
    shown := fun entry hentry => by
      rw [hrows]
      exact h.shown entry hentry
    live := fun key hkey => by
      rw [mem_iff_exists, hrows, ← mem_iff_exists] at hkey
      exact h.live key hkey
    surrogates := fun surrogate key => by
      rw [hsurrogates]
      exact h.surrogates surrogate key }

theorem Contents.size : rows.size = all.length := by
  rw [size_eq_length h.keys h.live, length_map]
  intro key hkey
  obtain ⟨entry, hentry, rfl⟩ := mem_map.mp hkey
  obtain ⟨row, hrow, _⟩ := h.shown entry hentry
  exact mem_of_getElem? hrow

theorem Contents.sparse (hfew : all.length < 2 ^ 28) : overflow.Sparse := by
  intro places hdistinct howned
  have hsubset : places ⊆ all.filterMap (·.place) := fun place hplace =>
    (h.owns place).mp (howned place hplace)
  exact (hdistinct.subperm hsubset).length_le.trans_lt
    ((length_filterMap_le _ _).trans_lt hfew)

end

theorem readValueFrom_congr {other : KvEntry}
    (h : ∀ place ∈ other.place, ∀ len, overflow'.read place len = overflow.read place len) :
    readValueFrom other overflow' = readValueFrom other overflow := by
  unfold readValueFrom
  unfold KvEntry.place at h
  split
  · rfl
  · rename_i index len hvalue
    rw [hvalue] at h
    rw [get_eq_read, get_eq_read, h _ rfl]

theorem Contents.key_ne (h : Contents runtime rows overflow surrogateToKey (entry :: all))
    {other : KvEntry} (hmem : other ∈ all) : other.key ≠ entry.key := fun heq =>
  (List.nodup_cons.mp h.keys).1 (List.mem_map.mpr ⟨other, hmem, heq⟩)

theorem Contents.remove (h : Contents runtime rows overflow surrogateToKey (entry :: all)) :
    ∃ overflow', freeValueFrom entry.value overflow = some overflow' ∧
      Contents runtime (rows.erase entry.key) overflow'
        (surrogateToKey.erase entry.surrogate) all := by
  have hplaces := h.places
  rw [filterMap_cons] at hplaces
  have hfreed : ∃ overflow', freeValueFrom entry.value overflow = some overflow' ∧
      overflow'.Sound ∧ (∀ place, overflow'.Owns place ↔ place ∈ all.filterMap (·.place)) ∧
      (all.filterMap (·.place)).Nodup ∧
      ∀ other ∈ all, readValueFrom other overflow' = readValueFrom other overflow := by
    cases hvalue : entry.value with
    | inline data =>
      have hplace : entry.place = none := by rw [KvEntry.place, hvalue]
      rw [hplace] at hplaces
      refine ⟨overflow, rfl, h.slab, fun place => ?_, hplaces, fun _ _ => rfl⟩
      rw [h.owns, filterMap_cons, hplace]
    | overflow index len =>
      have hplace : entry.place = some (placeOf index) := by rw [KvEntry.place, hvalue]
      rw [hplace, nodup_cons] at hplaces
      have howns (place : Place) : overflow.Owns place ↔
          place = placeOf index ∨ place ∈ all.filterMap (·.place) := by
        rw [h.owns, filterMap_cons, hplace, mem_cons]
      obtain ⟨overflow', hfree, hfreed⟩ := h.slab.free ((howns _).mpr (.inl rfl))
      refine ⟨overflow', hfree, hfreed.sound, fun place => ?_, hplaces.2, fun other hother => ?_⟩
      · rw [hfreed.owns, howns]
        constructor
        · rintro ⟨hplace | hmem, hne⟩
          · exact absurd hplace hne
          · exact hmem
        · exact fun hmem => ⟨.inr hmem, fun heq => hplaces.1 (heq ▸ hmem)⟩
      · refine readValueFrom_congr fun place hmem len => hfreed.kept place len ?_
        rintro rfl
        exact hplaces.1 (mem_filterMap.mpr ⟨other, hother, hmem⟩)
  obtain ⟨overflow', hfree, hsound, howns, hdistinct, hread⟩ := hfreed
  refine ⟨overflow', hfree, fun other hmem => h.hashed other (mem_cons_of_mem _ hmem),
    (nodup_cons.mp h.keys).2, hsound, hdistinct, howns, fun other hmem => ?_, fun key hkey => ?_,
    fun surrogate key => ?_⟩
  · obtain ⟨row, hrow, hvalue, hrest⟩ := h.shown other (mem_cons_of_mem _ hmem)
    exact ⟨row, by rw [getElem?_erase_ne _ (h.key_ne hmem), hrow],
      (hread other hmem).trans hvalue, hrest⟩
  · obtain ⟨hne, hkey⟩ := mem_erase_iff.mp hkey
    have hmem := h.live key hkey
    rw [map_cons, mem_cons] at hmem
    exact hmem.resolve_left hne
  · constructor
    · intro hheld
      obtain ⟨hne, hheld⟩ := getElem?_erase_eq_some_iff.mp hheld
      obtain ⟨other, hmem, rfl, hkey⟩ := (h.surrogates surrogate key).mp hheld
      obtain rfl | hmem := mem_cons.mp hmem
      · exact absurd rfl hne
      · exact ⟨other, hmem, rfl, hkey⟩
    · rintro ⟨other, hmem, rfl, rfl⟩
      have hheld := (h.surrogates other.surrogate other.key).mpr
        ⟨other, mem_cons_of_mem _ hmem, rfl, rfl⟩
      have hne : other.surrogate ≠ entry.surrogate := by
        intro heq
        have hself := (h.surrogates entry.surrogate entry.key).mpr
          ⟨entry, mem_cons_self, rfl, rfl⟩
        rw [← heq, hheld, Option.some.injEq] at hself
        exact h.key_ne hmem hself
      rw [getElem?_erase_ne _ hne, hheld]

theorem Contents.add (h : Contents runtime rows overflow surrogateToKey all)
    (hkey : key ∉ all.map (·.key)) (hsurrogate : surrogateToKey[surrogate]? = none)
    (hlen : value.length < 2 ^ 32) (hfew : all.length < 2 ^ 28)
    (inlineThreshold expireAtMs : Nat) :
    ∃ overflow' newValue,
      storeValueIn overflow value inlineThreshold = some (overflow', newValue) ∧
      Contents runtime (rows.insert key ⟨value, expireAtMs, surrogate⟩) overflow'
        (surrogateToKey.insert surrogate key)
        ({ hash := runtime.hashKey key, key := key, value := newValue, expireAtMs := expireAtMs
           surrogate := surrogate } :: all) := by
  have hstored : ∃ overflow' newValue,
      storeValueIn overflow value inlineThreshold = some (overflow', newValue) ∧
      overflow'.Sound ∧
      (∀ hash expireAtMs, readValueFrom ⟨hash, key, newValue, expireAtMs, surrogate⟩ overflow' =
        some value) ∧
      (∀ other ∈ all, readValueFrom other overflow' = readValueFrom other overflow) ∧
      ∀ hash expireAtMs, let entry : KvEntry := ⟨hash, key, newValue, expireAtMs, surrogate⟩
        (((entry :: all).filterMap (·.place)).Nodup ∧
          ∀ place, overflow'.Owns place ↔ place ∈ (entry :: all).filterMap (·.place)) := by
    unfold storeValueIn
    split_ifs with hinline
    · exact ⟨overflow, .inline value, rfl, h.slab, fun _ _ => rfl, fun _ _ => rfl,
        fun _ _ => ⟨h.places, h.owns⟩⟩
    · obtain ⟨overflow', index, halloc, hallocated⟩ := h.slab.alloc (h.sparse hfew) hlen
      refine ⟨overflow', .overflow index value.length, by simp [halloc], hallocated.sound,
        fun _ _ => ?_, fun other hmem => ?_, fun _ _ => ?_⟩
      · exact (get_eq_read _ _ _).trans hallocated.value
      · refine readValueFrom_congr fun place hplace len => hallocated.kept place len ?_
        exact (h.owns place).mpr (mem_filterMap.mpr ⟨other, hmem, hplace⟩)
      · have hplaces (hash : UInt64) (expireAtMs : Nat) :
            ((⟨hash, key, .overflow index value.length, expireAtMs, surrogate⟩ : KvEntry) ::
              all).filterMap (·.place) = placeOf index :: all.filterMap (·.place) := rfl
        dsimp only
        rw [hplaces]
        refine ⟨nodup_cons.mpr ⟨fun hmem => ?_, h.places⟩, fun place => ?_⟩
        · exact hallocated.fresh ((h.owns _).mpr hmem)
        · rw [hallocated.owns, h.owns, mem_cons, or_comm]
  obtain ⟨overflow', newValue, hstore, hsound, hvalue, hread, hplaces⟩ := hstored
  have hother (other : KvEntry) (hmem : other ∈ all) : other.key ≠ key := fun heq =>
    hkey (heq ▸ mem_map_of_mem hmem)
  refine ⟨overflow', newValue, hstore, ?_, ?_, hsound, (hplaces _ _).1, (hplaces _ _).2, ?_, ?_,
    fun other otherKey => ?_⟩
  · rintro other (_ | ⟨_, hmem⟩)
    · rfl
    · exact h.hashed other hmem
  · exact nodup_cons.mpr ⟨hkey, h.keys⟩
  · rintro other (_ | ⟨_, hmem⟩)
    · exact ⟨_, TreeMap.getElem?_insert_self, hvalue _ _, rfl, rfl⟩
    · obtain ⟨row, hrow, hshown, hrest⟩ := h.shown other hmem
      exact ⟨row, by rw [getElem?_insert_ne _ (hother other hmem), hrow],
        (hread other hmem).trans hshown, hrest⟩
  · intro otherKey hmem
    obtain rfl | hmem := mem_insert_iff.mp hmem
    · exact mem_cons_self
    · exact mem_cons_of_mem _ (h.live _ hmem)
  · rw [getElem?_insert_eq_some_iff]
    constructor
    · rintro (⟨rfl, rfl⟩ | ⟨_, hheld⟩)
      · exact ⟨_, mem_cons_self, rfl, rfl⟩
      · obtain ⟨entry, hmem, hentry⟩ := (h.surrogates other otherKey).mp hheld
        exact ⟨entry, mem_cons_of_mem _ hmem, hentry⟩
    · rintro ⟨entry, _ | ⟨_, hmem⟩, rfl, rfl⟩
      · exact .inl ⟨rfl, rfl⟩
      · have hheld := (h.surrogates _ _).mpr ⟨entry, hmem, rfl, rfl⟩
        refine .inr ⟨fun heq => ?_, hheld⟩
        rw [heq, hsurrogate] at hheld
        exact nomatch hheld

theorem Contents.getElem?_eq_some (h : Contents runtime rows overflow surrogateToKey all)
    (hentry : entry ∈ all) (hrow : rows[entry.key]? = some row) : Shows overflow entry row := by
  obtain ⟨shown, hshown, hrest⟩ := h.shown entry hentry
  obtain rfl := Option.some.inj (hrow.symm.trans hshown)
  exact hrest

theorem Contents.replace (h : Contents runtime rows overflow surrogateToKey (entry :: all))
    (hlen : value.length < 2 ^ 32) (hfew : all.length < 2 ^ 28)
    (inlineThreshold expireAtMs : Nat) :
    ∃ freed overflow' newValue, freeValueFrom entry.value overflow = some freed ∧
      storeValueIn freed value inlineThreshold = some (overflow', newValue) ∧
      Contents runtime (rows.insert entry.key ⟨value, expireAtMs, entry.surrogate⟩) overflow'
        surrogateToKey ({ entry with value := newValue, expireAtMs := expireAtMs } :: all) := by
  obtain ⟨freed, hfree, hrest⟩ := h.remove
  have hunused : (surrogateToKey.erase entry.surrogate)[entry.surrogate]? = none := by simp
  obtain ⟨overflow', newValue, hstore, hcontents⟩ :=
    hrest.add (nodup_cons.mp h.keys).1 hunused hlen hfew inlineThreshold expireAtMs
  refine ⟨freed, overflow', newValue, hfree, hstore, ?_⟩
  rw [← h.hashed entry mem_cons_self] at hcontents
  refine hcontents.congr (fun key => ?_) fun surrogate => ?_
  · by_cases hkey : key = entry.key
    · subst hkey
      simp
    · rw [getElem?_insert_ne _ hkey, getElem?_insert_ne _ hkey, getElem?_erase_ne _ hkey]
  · by_cases hsurrogate : surrogate = entry.surrogate
    · subst hsurrogate
      rw [TreeMap.getElem?_insert_self]
      exact (h.surrogates _ _).mpr ⟨entry, mem_cons_self, rfl, rfl⟩
    · rw [getElem?_insert_ne _ hsurrogate, getElem?_erase_ne _ hsurrogate]

theorem Contents.expire (h : Contents runtime rows overflow surrogateToKey (entry :: all))
    (hrow : rows[entry.key]? = some row) :
    Contents runtime (rows.insert entry.key { row with expireAtMs := expireAtMs }) overflow
      surrogateToKey ({ entry with expireAtMs := expireAtMs } :: all) := by
  obtain ⟨hvalue, _, hsurrogate⟩ := h.getElem?_eq_some mem_cons_self hrow
  refine ⟨?_, h.keys, h.slab, h.places, h.owns, ?_, ?_, fun surrogate key => ?_⟩
  · rintro other (_ | ⟨_, hmem⟩)
    · exact h.hashed entry mem_cons_self
    · exact h.hashed other (mem_cons_of_mem _ hmem)
  · rintro other (_ | ⟨_, hmem⟩)
    · exact ⟨_, TreeMap.getElem?_insert_self, hvalue, rfl, hsurrogate⟩
    · rw [getElem?_insert_ne _ (h.key_ne hmem)]
      exact h.shown other (mem_cons_of_mem _ hmem)
  · intro key hmem
    obtain rfl | hmem := mem_insert_iff.mp hmem
    · exact mem_cons_self
    · exact h.live key hmem
  · simp only [h.surrogates, exists_mem_cons_iff]

end Contents

end NodeDB.Kv
