import Mathlib.Tactic

/-!
# Folding updates over ordered maps and sets

Updating a map once for each item of another map acts on each key on its own.
Inserting a list of items into a set adds exactly these items, erasing one
takes exactly these away.  A map or set
that stays inside a list and is as large has all of it.
-/

namespace KeyedFold

open Std List TreeMap

section Maps

variable {κ α ν : Type} [Ord κ] [TransOrd κ] [LawfulEqOrd κ]

section

omit [LawfulEqOrd κ]

theorem mem_iff_exists (map : TreeMap κ ν) (key : κ) :
    key ∈ map ↔ ∃ value, map[key]? = some value := by
  rw [mem_iff_isSome_getElem?, Option.isSome_iff_exists]

theorem mem_of_getElem? {map : TreeMap κ ν} {key : κ} {value : ν} (h : map[key]? = some value) :
    key ∈ map :=
  (mem_iff_exists map key).mpr ⟨value, h⟩

end

variable {key other : κ} {map : TreeMap κ ν} {value : ν}

theorem getElem?_insert_ne (map : TreeMap κ ν) (hne : other ≠ key)
    (value : ν) : (map.insert key value)[other]? = map[other]? := by
  rw [TreeMap.getElem?_insert, if_neg]
  rw [LawfulEqOrd.compare_eq_iff_eq]
  exact Ne.symm hne

variable {held : ν}

theorem getElem?_insert_eq_some_iff :
    (map.insert key value)[other]? = some held ↔
      other = key ∧ held = value ∨ other ≠ key ∧ map[other]? = some held := by
  by_cases heq : other = key
  · subst heq
    rw [getElem?_insert_self, Option.some.injEq]
    simp [eq_comm]
  · rw [getElem?_insert_ne map heq]
    simp [heq]

theorem mem_insert_iff : other ∈ map.insert key value ↔ other = key ∨ other ∈ map := by
  rw [mem_insert, LawfulEqOrd.compare_eq_iff_eq, eq_comm]

theorem mem_erase_iff : other ∈ map.erase key ↔ other ≠ key ∧ other ∈ map := by
  rw [mem_erase, ne_eq, LawfulEqOrd.compare_eq_iff_eq, eq_comm]

theorem pairwise_ne_toList (map : TreeMap κ ν) : map.toList.Pairwise fun a b => a.1 ≠ b.1 :=
  distinct_keys_toList.imp fun hdistinct heq =>
    hdistinct (LawfulEqOrd.compare_eq_iff_eq.mpr heq)

theorem getElem?_insertIfNew (map : TreeMap κ ν) [DecidableEq κ] [DecidableEq ν]
    (key other : κ) (value : ν) :
    (map.insertIfNew key value)[other]? =
      if other = key ∧ map[key]? = none then some value else map[other]? := by
  rw [TreeMap.getElem?_insertIfNew]
  refine ite_congr (propext (and_congr (LawfulEqOrd.compare_eq_iff_eq.trans eq_comm) ?_))
    (fun _ => rfl) fun _ => rfl
  rw [mem_iff_exists, Option.eq_none_iff_forall_ne_some]
  simp

theorem getElem?_insertIfNew_eq_some_iff (hsame : ∀ stored ∈ map[key]?, stored = value) :
    (map.insertIfNew key value)[other]? = some held ↔
      map[other]? = some held ∨ other = key ∧ held = value := by
  rw [TreeMap.getElem?_insertIfNew]
  split_ifs with hnew
  · obtain ⟨hkey, habsent⟩ := hnew
    rw [LawfulEqOrd.compare_eq_iff_eq] at hkey
    subst hkey
    simp [getElem?_eq_none habsent, eq_comm]
  · refine ⟨.inl, Or.rec id ?_⟩
    rintro ⟨rfl, rfl⟩
    obtain ⟨stored, hstored⟩ := (mem_iff_exists map other).mp (by simpa using hnew)
    rw [hstored, hsame stored hstored]

theorem getElem?_filter_eq_some_iff {keep : κ → ν → Bool} :
    (map.filter keep)[key]? = some value ↔ map[key]? = some value ∧ keep key value = true := by
  rw [getElem?_filter', Option.filter_eq_some_iff]

theorem getElem?_erase_ne (map : TreeMap κ ν) (hne : other ≠ key) :
    (map.erase key)[other]? = map[other]? := by
  rw [getElem?_erase, if_neg]
  rw [LawfulEqOrd.compare_eq_iff_eq]
  exact Ne.symm hne

theorem getElem?_erase_eq_some_iff :
    (map.erase key)[other]? = some value ↔ other ≠ key ∧ map[other]? = some value := by
  by_cases heq : other = key
  · simp [heq]
  · simp [getElem?_erase_ne map heq, heq]

theorem getElem?_foldl_erase_eq_some_iff (keyOf : α → κ) (items : List α) :
    (items.foldl (fun map item => map.erase (keyOf item)) map)[key]? = some value ↔
      map[key]? = some value ∧ ∀ item ∈ items, keyOf item ≠ key := by
  induction items generalizing map with
  | nil => simp
  | cons item rest ih =>
    rw [foldl_cons, ih, forall_mem_cons]
    by_cases heq : key = keyOf item
    · subst heq
      simp
    · rw [getElem?_erase_ne map heq]
      simp [Ne.symm heq]

theorem getElem?_alter_ne (map : TreeMap κ ν) (hne : other ≠ key)
    (update : Option ν → Option ν) : (map.alter key update)[other]? = map[other]? := by
  rw [getElem?_alter, if_neg]
  rw [LawfulEqOrd.compare_eq_iff_eq]
  exact Ne.symm hne

section

variable (update : κ → α → Option ν → Option ν)

theorem getElem?_foldl_alter_of_notMem (items : List (κ × α)) (map : TreeMap κ ν)
    (hnotin : ∀ value, (key, value) ∉ items) :
    (items.foldl (fun map item => map.alter item.1 (update item.1 item.2)) map)[key]? =
      map[key]? := by
  induction items generalizing map with
  | nil => rfl
  | cons item rest ih =>
    have hne : key ≠ item.1 := by
      rintro rfl
      exact hnotin item.2 mem_cons_self
    rw [foldl_cons, ih]
    · exact getElem?_alter_ne map hne _
    · intro value hmem
      exact hnotin value (mem_cons_of_mem _ hmem)

theorem getElem?_foldl_alter_of_mem (items : List (κ × α)) (map : TreeMap κ ν) {value : α}
    (hdistinct : items.Pairwise fun a b => a.1 ≠ b.1) (hmem : (key, value) ∈ items) :
    (items.foldl (fun map item => map.alter item.1 (update item.1 item.2)) map)[key]? =
      update key value map[key]? := by
  induction items generalizing map with
  | nil => simp at hmem
  | cons item rest ih =>
    rcases pairwise_cons.mp hdistinct with ⟨hfirst, hrest⟩
    rw [foldl_cons]
    rcases mem_cons.mp hmem with rfl | hmem
    · rw [getElem?_foldl_alter_of_notMem]
      · simp
      · intro other hother
        exact hfirst (key, other) hother rfl
    · rw [ih _ hrest hmem, getElem?_alter_ne]
      intro heq
      exact hfirst (key, value) hmem heq.symm

theorem getElem?_foldl_toList_alter (items : TreeMap κ α) (map : TreeMap κ ν) (key : κ) :
    (items.toList.foldl
        (fun map item => map.alter item.1 (update item.1 item.2)) map)[key]? =
      (items[key]?).elim map[key]? fun value => update key value map[key]? := by
  cases hitem : items[key]? with
  | none =>
    apply getElem?_foldl_alter_of_notMem
    intro value hmem
    rw [mem_toList_iff_getElem?_eq_some, hitem] at hmem
    cases hmem
  | some value =>
    apply getElem?_foldl_alter_of_mem
    · exact pairwise_ne_toList items
    · rwa [mem_toList_iff_getElem?_eq_some]

end

end Maps

section Sets

variable {α : Type} [Ord α] [TransOrd α] [LawfulEqOrd α]

variable {set : TreeSet α} {item other : α}

theorem mem_set_insert_iff : other ∈ set.insert item ↔ other = item ∨ other ∈ set := by
  rw [TreeSet.mem_insert, LawfulEqOrd.compare_eq_iff_eq, eq_comm]

theorem mem_set_erase_iff : other ∈ set.erase item ↔ other ≠ item ∧ other ∈ set := by
  rw [TreeSet.mem_erase, ne_eq, LawfulEqOrd.compare_eq_iff_eq, eq_comm]

theorem mem_foldl_insert (items : List α) (set : TreeSet α) (item : α) :
    item ∈ items.foldl (fun set item => set.insert item) set ↔
      item ∈ items ∨ item ∈ set := by
  induction items generalizing set with
  | nil => simp
  | cons first rest ih =>
    rw [foldl_cons, ih, mem_set_insert_iff, mem_cons, or_left_comm, or_assoc]

theorem mem_foldl_erase (items : List α) (set : TreeSet α) (item : α) :
    item ∈ items.foldl (fun set item => set.erase item) set ↔ item ∈ set ∧ item ∉ items := by
  induction items generalizing set with
  | nil => simp
  | cons first rest ih =>
    rw [foldl_cons, ih, mem_set_erase_iff, mem_cons, not_or, and_assoc, and_left_comm]

theorem nodup_set_toList (set : TreeSet α) : set.toList.Nodup :=
  TreeSet.distinct_toList.imp ReflCmp.ne_of_cmp_ne_eq

end Sets

section Counting

variable {κ ν : Type} [Ord κ] [TransOrd κ] [LawfulEqOrd κ]

variable {map : TreeMap κ ν} {keys : List κ}

theorem mem_of_length_le {α : Type} {items all : List α} (hdistinct : items.Nodup)
    (hsub : items ⊆ all) (hlength : all.length ≤ items.length) : all ⊆ items :=
  ((hdistinct.subperm hsub).perm_of_length_le hlength).symm.subset

theorem mem_of_length_le_size (hsub : ∀ key ∈ map, key ∈ keys) (hsize : keys.length ≤ map.size) :
    ∀ key ∈ keys, key ∈ map := by
  rw [← length_keys] at hsize
  intro key hkey
  exact mem_keys.mp
    (mem_of_length_le nodup_keys (fun key hkey => hsub key (mem_keys.mp hkey)) hsize hkey)

theorem size_le_length (hsub : ∀ key ∈ map, key ∈ keys) : map.size ≤ keys.length := by
  rw [← length_keys]
  exact (nodup_keys.subperm fun key hkey =>
    hsub key (mem_keys.mp hkey)).length_le

theorem size_eq_length (hdistinct : keys.Nodup) (hsub : ∀ key ∈ map, key ∈ keys)
    (hall : ∀ key ∈ keys, key ∈ map) : map.size = keys.length := by
  apply Nat.le_antisymm (size_le_length hsub)
  rw [← length_keys]
  exact (hdistinct.subperm fun key hkey => mem_keys.mpr (hall key hkey)).length_le

theorem mem_of_length_le_size_set {set : TreeSet κ} (hsub : ∀ key ∈ set, key ∈ keys)
    (hsize : keys.length ≤ set.size) : ∀ key ∈ keys, key ∈ set := by
  rw [← TreeSet.length_toList] at hsize
  intro key hkey
  exact TreeSet.mem_toList.mp (mem_of_length_le (nodup_set_toList set)
    (fun key hkey => hsub key (TreeSet.mem_toList.mp hkey)) hsize hkey)

end Counting

section Ordered

variable {κ ν α : Type} [LinearOrder κ]

theorem pairwise_toList (map : TreeMap κ ν) :
    map.toList.Pairwise fun one other => one.1 < other.1 :=
  (ordered_keys_toList (t := map)).imp fun h => compare_lt_iff_lt.mp h

theorem le_of_getLast? {items : List (κ × ν)}
    (hsorted : items.Pairwise fun one other => one.1 < other.1) {last : κ × ν}
    (hlast : items.getLast? = some last) : ∀ item ∈ items, item.1 ≤ last.1 := by
  induction items using List.reverseRecOn with
  | nil => simp at hlast
  | append_singleton items final _ =>
    simp only [getLast?_append, getLast?_singleton, Option.some_or, Option.some.injEq] at hlast
    subst hlast
    intro item hitem
    rcases mem_append.mp hitem with hitem | hitem
    · exact (pairwise_append.mp hsorted).2.2 item hitem final mem_cons_self |>.le
    · rw [mem_singleton.mp hitem]

def lastEntry (map : TreeMap κ ν) : Option (κ × ν) :=
  map.toList.getLast?

variable {items : List α} {map : TreeMap κ ν} {key : κ} {item : α}

theorem lastEntry_eq_none_iff : lastEntry map = none ↔ ∀ key : κ, map[key]? = none := by
  rw [lastEntry, getLast?_eq_none_iff]
  constructor
  · intro hempty key
    rw [Option.eq_none_iff_forall_not_mem]
    intro value hvalue
    have hmem := mem_toList_iff_getElem?_eq_some.mpr hvalue
    simp [hempty] at hmem
  · intro hnone
    rw [eq_nil_iff_forall_not_mem]
    rintro ⟨key, value⟩ hmem
    have hvalue := mem_toList_iff_getElem?_eq_some.mp hmem
    simp [hnone] at hvalue

theorem lastEntry_eq_some_iff {value : ν} :
    lastEntry map = some (key, value) ↔
      map[key]? = some value ∧ ∀ (other : κ) (held : ν), map[other]? = some held → other ≤ key := by
  constructor
  · intro hlast
    refine ⟨mem_toList_iff_getElem?_eq_some.mp (mem_of_getLast? hlast),
      fun other held hheld => ?_⟩
    exact le_of_getLast? (pairwise_toList map) hlast (other, held)
      (mem_toList_iff_getElem?_eq_some.mpr hheld)
  · rintro ⟨hvalue, hmax⟩
    rcases hlast : lastEntry map with _ | ⟨last, held⟩
    · rw [lastEntry_eq_none_iff] at hlast
      simp [hlast] at hvalue
    · have hheld := mem_toList_iff_getElem?_eq_some.mp (mem_of_getLast? hlast)
      have hle : key ≤ last := le_of_getLast? (pairwise_toList map) hlast (key, value)
        (mem_toList_iff_getElem?_eq_some.mpr hvalue)
      have heq : key = last := hle.antisymm (hmax last held hheld)
      subst heq
      rw [hvalue] at hheld
      rw [Option.some.inj hheld]

theorem getElem?_foldl_insert_of_notMem (keyOf : α → κ) (items : List α) (map : TreeMap κ α)
    (hnotin : ∀ item ∈ items, keyOf item ≠ key) :
    (items.foldl (fun map item => map.insert (keyOf item) item) map)[key]? = map[key]? := by
  induction items generalizing map with
  | nil => rfl
  | cons item rest ih =>
    rw [foldl_cons, ih _ fun later hlater => hnotin later (mem_cons_of_mem _ hlater)]
    exact getElem?_insert_ne map (Ne.symm (hnotin item mem_cons_self)) item

theorem getElem?_foldl_insert_of_mem (keyOf : α → κ) (map : TreeMap κ α)
    (hdistinct : items.Pairwise fun one other => keyOf one ≠ keyOf other) (hmem : item ∈ items) :
    (items.foldl (fun map item => map.insert (keyOf item) item) map)[keyOf item]? =
      some item := by
  induction items generalizing map with
  | nil => simp at hmem
  | cons first rest ih =>
    obtain ⟨hfirst, hrest⟩ := pairwise_cons.mp hdistinct
    rw [foldl_cons]
    rcases mem_cons.mp hmem with rfl | hmem
    · rw [getElem?_foldl_insert_of_notMem keyOf rest _
        fun later hlater => Ne.symm (hfirst later hlater)]
      simp
    · exact ih _ hrest hmem

theorem getElem?_foldl_insert_eq_some {keyOf : α → κ} {map : TreeMap κ α}
    (h : (items.foldl (fun map item => map.insert (keyOf item) item) map)[key]? = some item) :
    map[key]? = some item ∨ item ∈ items ∧ keyOf item = key := by
  induction items generalizing map with
  | nil => exact .inl h
  | cons first rest ih =>
    rcases ih h with hold | ⟨hmem, hkey⟩
    · by_cases heq : key = keyOf first
      · subst heq
        rw [getElem?_insert_self, Option.some.injEq] at hold
        exact .inr ⟨hold ▸ mem_cons_self, by rw [hold]⟩
      · rw [getElem?_insert_ne map heq] at hold
        exact .inl hold
    · exact .inr ⟨mem_cons_of_mem _ hmem, hkey⟩

end Ordered

end KeyedFold
