import Mathlib.Data.List.ReduceOption
import Mathlib.Data.List.Perm.Basic
import Mathlib.Data.Nat.Init
import Mathlib.Order.Nat
import Mathlib.Tactic.Common

/-!
# Robin Hood order

An open-addressing table is a ring of slots, and every entry has a home slot.
The table is in order if an entry away from its home stands behind one that is
at least as far from its own.  A search that starts at the home of an entry
then meets it before an empty slot and before any entry nearer to its home.
-/

namespace NodeDB.RobinHood

open List Option

variable {α : Type}

/-! ## Slots -/

def peek (slots : List (Option α)) (i : Nat) : Option α := (slots[i]?).join

def entries (slots : List (Option α)) : List α := slots.reduceOption

section Slots

variable {slots : List (Option α)} {i j : Nat} {entry : α} {value : Option α}

theorem peek_set_self (hi : i < slots.length) : peek (slots.set i value) i = value := by
  simp [peek, hi]

theorem peek_set_ne (h : j ≠ i) : peek (slots.set i value) j = peek slots j := by
  simp [peek, getElem?_set_ne (Ne.symm h)]

theorem lt_of_peek (h : peek slots i = some entry) : i < slots.length := by
  exact (List.getElem?_eq_some_iff.mp (join_eq_some_iff.mp h)).1

theorem getElem?_of_peek (h : peek slots i = some entry) : slots[i]? = some (some entry) :=
  join_eq_some_iff.mp h

theorem set_peek (hi : i < slots.length) : slots.set i (peek slots i) = slots := by
  rw [peek, getElem?_eq_getElem hi, join_some, set_getElem_self]

theorem set_of_peek (h : peek slots i = some entry) : slots.set i (some entry) = slots :=
  h ▸ set_peek (lt_of_peek h)

theorem mem_entries : entry ∈ entries slots ↔ ∃ i, peek slots i = some entry := by
  rw [entries, reduceOption_mem_iff, mem_iff_getElem?]
  exact exists_congr fun i => ⟨fun h => by rw [peek, h, join_some], getElem?_of_peek⟩

theorem entries_set (hi : i < slots.length) :
    ((peek slots i).toList ++ entries (slots.set i value)).Perm
      (value.toList ++ entries slots) := by
  have hslots : slots = slots.take i ++ peek slots i :: slots.drop (i + 1) := by
    rw [peek, getElem?_eq_getElem hi, join_some, ← drop_eq_getElem_cons hi, take_append_drop]
  have hentries (middle : Option α) (before after : List (Option α)) :
      (entries (before ++ middle :: after)).Perm
        (middle.toList ++ (entries before ++ entries after)) := by
    rw [entries, reduceOption_append, ← singleton_append, reduceOption_append]
    cases middle with
    | none => rfl
    | some entry => exact perm_middle
  have hset : (entries (slots.set i value)).Perm
      (value.toList ++ (entries (slots.take i) ++ entries (slots.drop (i + 1)))) := by
    rw [set_eq_take_append_cons_drop, if_pos hi]
    exact hentries ..
  have hold := hentries (peek slots i) (slots.take i) (slots.drop (i + 1))
  rw [← hslots] at hold
  refine (hset.append_left _).trans (List.Perm.trans ?_ (hold.symm.append_left _))
  rw [← append_assoc, ← append_assoc (value.toList)]
  exact perm_append_comm.append_right _

theorem entries_fill (hi : i < slots.length) (hempty : peek slots i = none) :
    (entries (slots.set i (some entry))).Perm (entry :: entries slots) := by
  simpa [hempty] using @entries_set _ slots i (some entry) hi

theorem entries_clear (hentry : peek slots i = some entry) :
    (entry :: entries (slots.set i none)).Perm (entries slots) := by
  simpa [hentry] using @entries_set _ slots i none (lt_of_peek hentry)

theorem entries_set_some (hi : i < slots.length) :
    (entries (slots.set i (some entry))).Perm (entry :: entries (slots.set i none)) := by
  have hfilled := @entries_fill _ (slots.set i none) i entry (by rwa [length_set])
    (peek_set_self hi)
  rwa [set_set] at hfilled

theorem entries_replace {other : α} (hentry : peek slots i = some entry) :
    (entry :: entries (slots.set i (some other))).Perm (other :: entries slots) := by
  simpa [hentry] using @entries_set _ slots i (some other) (lt_of_peek hentry)

theorem length_entries_replace {other : α} (hentry : peek slots i = some entry) :
    (entries (slots.set i (some other))).length = (entries slots).length := by
  simpa using (@entries_replace _ slots i entry other hentry).length_eq

theorem peek_inj {β : Type} {f : α → β} (hdistinct : ((entries slots).map f).Nodup) {other : α}
    (hi : peek slots i = some entry) (hj : peek slots j = some other) (hsame : f entry = f other) :
    i = j := by
  by_contra hne
  rw [((entries_clear hi).symm.map f).nodup_iff, map_cons, nodup_cons] at hdistinct
  refine hdistinct.1 (hsame ▸ mem_map_of_mem (mem_entries.mpr ⟨j, ?_⟩))
  rw [peek_set_ne (Ne.symm hne), hj]

theorem exists_empty (h : (entries slots).length < slots.length) :
    ∃ i < slots.length, peek slots i = none := by
  by_contra hfull
  push Not at hfull
  have hall : ∀ slot ∈ slots, slot.isSome := by
    intro slot hslot
    obtain ⟨i, hi, rfl⟩ := getElem_of_mem hslot
    have hsome := isSome_iff_ne_none.mpr (hfull i hi)
    rwa [peek, getElem?_eq_getElem hi, join_some] at hsome
  exact absurd (reduceOption_length_eq_iff.mpr hall) (Nat.ne_of_lt h)

theorem length_entries_lt (hi : i < slots.length) (hempty : peek slots i = none) :
    (entries slots).length < slots.length := by
  refine Nat.lt_of_le_of_ne (reduceOption_length_le slots) fun hfull => ?_
  have hsome := reduceOption_length_eq_iff.mp hfull slots[i] (getElem_mem hi)
  rw [peek, getElem?_eq_getElem hi, join_some] at hempty
  rw [hempty] at hsome
  exact nomatch hsome

theorem entries_eq_nil (h : ∀ i < slots.length, peek slots i = none) : entries slots = [] := by
  refine eq_nil_iff_forall_not_mem.mpr fun entry hentry => ?_
  obtain ⟨i, hi⟩ := mem_entries.mp hentry
  exact nomatch (h i (lt_of_peek hi)).symm.trans hi

theorem peek_replicate (n : Nat) : peek (List.replicate n (none : Option α)) i = none := by
  rw [peek, getElem?_replicate]
  split <;> rfl

theorem entries_replicate (n : Nat) : entries (List.replicate n (none : Option α)) = [] :=
  entries_eq_nil fun _ _ => peek_replicate n

end Slots

/-! ## The ring -/

def succ (cap i : Nat) : Nat := (i + 1) % cap

def distance (cap home i : Nat) : Nat := (i + cap - home) % cap

section Ring

variable {cap home i : Nat}

theorem succ_eq (hi : i < cap) : succ cap i = if i + 1 = cap then 0 else i + 1 := by
  unfold succ
  split_ifs with h
  · rw [h, Nat.mod_self]
  · exact Nat.mod_eq_of_lt (by omega)

theorem succ_lt (hcap : 0 < cap) : succ cap i < cap := Nat.mod_lt _ hcap

theorem succ_ne (hcap : 2 ≤ cap) (hi : i < cap) : succ cap i ≠ i := by
  rw [succ_eq hi]
  split_ifs <;> omega

theorem exists_succ (hi : i < cap) : ∃ j < cap, succ cap j = i := by
  rcases Nat.eq_zero_or_pos i with rfl | hpos
  · refine ⟨cap - 1, by omega, ?_⟩
    rw [succ_eq (by omega), if_pos (by omega)]
  · refine ⟨i - 1, by omega, ?_⟩
    rw [succ_eq (by omega), if_neg (by omega)]
    omega

theorem succ_inj {j : Nat} (hi : i < cap) (hj : j < cap) (h : succ cap i = succ cap j) : i = j := by
  rw [succ_eq hi, succ_eq hj] at h
  split_ifs at h <;> omega

section

variable (hhome : home < cap)
include hhome

theorem distance_eq (hi : i < cap) :
    distance cap home i = if home ≤ i then i - home else i + cap - home := by
  unfold distance
  split_ifs with h
  · rw [show i + cap - home = i - home + cap by omega, Nat.add_mod_right,
      Nat.mod_eq_of_lt (by omega)]
  · exact Nat.mod_eq_of_lt (by omega)

theorem distance_lt : distance cap home i < cap :=
  Nat.mod_lt _ (by omega)

theorem distance_eq_zero (hi : i < cap) : distance cap home i = 0 ↔ i = home := by
  rw [distance_eq hhome hi]
  split_ifs <;> omega

theorem distance_succ (hi : i < cap) (h : succ cap i ≠ home) :
    distance cap home (succ cap i) = distance cap home i + 1 := by
  have hnext : succ cap i < cap := succ_lt (by omega)
  rw [distance_eq hhome hnext, distance_eq hhome hi]
  rw [succ_eq hi] at h ⊢
  split_ifs at h ⊢ <;> omega

theorem distance_of_succ (hi : i < cap) (h : succ cap i = home) :
    distance cap home i + 1 = cap := by
  rw [distance_eq hhome hi]
  rw [succ_eq hi] at h
  split_ifs at h ⊢ <;> omega

theorem add_distance (hi : i < cap) : (home + distance cap home i) % cap = i := by
  rw [distance_eq hhome hi]
  split_ifs with h
  · rw [Nat.add_sub_cancel' h, Nat.mod_eq_of_lt hi]
  · rw [show home + (i + cap - home) = i + cap by omega, Nat.add_mod_right, Nat.mod_eq_of_lt hi]

theorem distance_add {d : Nat} (hd : d < cap) : distance cap home ((home + d) % cap) = d := by
  have hmod : (home + d) % cap = if home + d < cap then home + d else home + d - cap := by
    split_ifs with h
    · exact Nat.mod_eq_of_lt h
    · rw [Nat.mod_eq_sub_mod (by omega), Nat.mod_eq_of_lt (by omega)]
  rw [distance_eq hhome (Nat.mod_lt _ (by omega)), hmod]
  split_ifs <;> omega

end

theorem distance_succ_left {j : Nat} (hi : i < cap) (hj : j < cap) (h : i ≠ j) :
    distance cap (succ cap i) j + 1 = distance cap i j := by
  have hnext : succ cap i < cap := succ_lt (by omega)
  rw [distance_eq hnext hj, distance_eq hi hj, succ_eq hi]
  split_ifs <;> omega

theorem succ_add (d : Nat) : succ cap ((home + d) % cap) = (home + (d + 1)) % cap := by
  rw [succ, Nat.mod_add_mod, Nat.add_assoc]

end Ring

/-! ## Order -/

def Barrier (home : α → Nat) (slots : List (Option α)) (i : Nat) : Prop :=
  ∀ entry, peek slots i = some entry → i = home entry

/-- The slot before has an entry that is at least as far from its home. -/
def Placeable (cap : Nat) (home : α → Nat) (slots : List (Option α)) (entry : α) (i : Nat) :
    Prop :=
  i = home entry ∨ ∃ j < cap, succ cap j = i ∧ ∃ prior, peek slots j = some prior ∧
    distance cap (home entry) j ≤ distance cap (home prior) j

/-- Every entry is at home or stands behind one at least as far from its own home. -/
structure Ordered (cap : Nat) (home : α → Nat) (slots : List (Option α)) : Prop where
  length : slots.length = cap
  placed : ∀ i entry, peek slots i = some entry → Placeable cap home slots entry i

section Order

variable {cap : Nat} {home : α → Nat} {slots : List (Option α)} {entry other : α} {i : Nat}

theorem ordered_replicate : Ordered cap home (List.replicate cap none) where
  length := length_replicate
  placed i entry h := by
    rw [peek_replicate] at h
    exact nomatch h

theorem Placeable.prior (h : Placeable cap home slots entry (succ cap i)) (hi : i < cap)
    (hne : succ cap i ≠ home entry) :
    ∃ prior, peek slots i = some prior ∧
      distance cap (home entry) i ≤ distance cap (home prior) i := by
  obtain hhere | ⟨j, hj, hsucc, hprior⟩ := h
  · exact absurd hhere hne
  · obtain rfl := succ_inj hj hi hsucc
    exact hprior

section

variable (h : Ordered cap home slots)
include h

theorem Ordered.barrier_succ (hi : i < cap) (hempty : peek slots i = none) :
    Barrier home slots (succ cap i) := by
  intro entry hentry
  by_contra hne
  obtain ⟨prior, hprior, _⟩ := (h.placed _ _ hentry).prior hi hne
  rw [hempty] at hprior
  exact nomatch hprior

theorem Ordered.write (hcap : 2 ≤ cap) (hi : i < cap) (hplace : Placeable cap home slots entry i)
    (hnext : ∀ next, peek slots (succ cap i) = some next → succ cap i ≠ home next →
      distance cap (home next) i ≤ distance cap (home entry) i) :
    Ordered cap home (slots.set i (some entry)) where
  length := by rw [length_set, h.length]
  placed j moved hmoved := by
    have hlength : i < slots.length := h.length ▸ hi
    by_cases hj : j = i
    · subst hj
      rw [peek_set_self hlength, Option.some.injEq] at hmoved
      subst hmoved
      obtain hhere | ⟨k, hk, hsucc, prior, hprior, hle⟩ := hplace
      · exact .inl hhere
      · have hne : k ≠ j := fun heq => succ_ne hcap hk (hsucc.trans heq.symm)
        exact .inr ⟨k, hk, hsucc, prior, (peek_set_ne hne).trans hprior, hle⟩
    · rw [peek_set_ne hj] at hmoved
      obtain hhere | ⟨k, hk, rfl, prior, hprior, hle⟩ := h.placed j moved hmoved
      · exact .inl hhere
      · by_cases hki : k = i
        · subst hki
          by_cases hhere : succ cap k = home moved
          · exact .inl hhere
          · exact .inr ⟨k, hk, rfl, entry, peek_set_self hlength, hnext moved hmoved hhere⟩
        · exact .inr ⟨k, hk, rfl, prior, (peek_set_ne hki).trans hprior, hle⟩

theorem Ordered.fill (hcap : 2 ≤ cap) (hi : i < cap) (hempty : peek slots i = none)
    (hplace : Placeable cap home slots entry i) : Ordered cap home (slots.set i (some entry)) :=
  h.write hcap hi hplace fun next hnext hne =>
    absurd (h.barrier_succ hi hempty next hnext) hne

theorem Ordered.distance_le (hi : i < cap) (hother : peek slots i = some other)
    (hentry : peek slots (succ cap i) = some entry) (haway : succ cap i ≠ home entry) :
    distance cap (home entry) i ≤ distance cap (home other) i := by
  obtain ⟨prior, hprior, hle⟩ := (h.placed _ _ hentry).prior hi haway
  obtain rfl := Option.some.inj (hother.symm.trans hprior)
  exact hle

theorem Ordered.steal (hcap : 2 ≤ cap) (hother : peek slots i = some other)
    (hplace : Placeable cap home slots entry i)
    (hfar : distance cap (home other) i ≤ distance cap (home entry) i) :
    Ordered cap home (slots.set i (some entry)) := by
  have hi : i < cap := h.length ▸ lt_of_peek hother
  exact h.write hcap hi hplace fun next hnext hne =>
    (h.distance_le hi hother hnext hne).trans hfar

theorem Ordered.clear (hi : i < cap) (hbarrier : Barrier home slots (succ cap i)) :
    Ordered cap home (slots.set i none) where
  length := by rw [length_set, h.length]
  placed j moved hmoved := by
    have hlength : i < slots.length := h.length ▸ hi
    have hj : j ≠ i := by
      rintro rfl
      rw [peek_set_self hlength] at hmoved
      exact nomatch hmoved
    rw [peek_set_ne hj] at hmoved
    obtain hhere | ⟨k, hk, rfl, prior, hprior, hle⟩ := h.placed j moved hmoved
    · exact .inl hhere
    · by_cases hki : k = i
      · exact .inl (hki ▸ hbarrier moved (hki ▸ hmoved))
      · exact .inr ⟨k, hk, rfl, prior, (peek_set_ne hki).trans hprior, hle⟩

theorem Ordered.clear_first {rest : List (Option α)} {n : Nat} (hn : 0 < n)
    (hlength : rest.length = cap) (hcleared : ∀ i < n, peek rest i = none)
    (hrest : ∀ i, n ≤ i → peek rest i = peek slots i) (hbarrier : Barrier home rest n) :
    Ordered cap home rest where
  length := hlength
  placed j moved hmoved := by
    have hj : n ≤ j := by
      by_contra hlt
      rw [hcleared j (by omega)] at hmoved
      exact nomatch hmoved
    rcases Nat.eq_or_lt_of_le hj with rfl | hlt
    · exact .inl (hbarrier moved hmoved)
    · rw [hrest j hj] at hmoved
      obtain hhere | ⟨k, hk, hsucc, prior, hprior, hle⟩ := h.placed j moved hmoved
      · exact .inl hhere
      · have hkn : n ≤ k := by
          rw [succ_eq hk] at hsucc
          split_ifs at hsucc <;> omega
        exact .inr ⟨k, hk, hsucc, prior, (hrest k hkn).trans hprior, hle⟩

end

variable (hhome : ∀ entry, home entry < cap)

include hhome

theorem Ordered.path (h : Ordered cap home slots) {d : Nat} (hd : d < cap)
    (hentry : peek slots ((home entry + d) % cap) = some entry) {j : Nat} (hj : j ≤ d) :
    ∃ prior, peek slots ((home entry + j) % cap) = some prior ∧
      j ≤ distance cap (home prior) ((home entry + j) % cap) := by
  -- backwards from the entry: the one before is at least as far from its home, less one
  induction hj using Nat.decreasingInduction with
  | self => exact ⟨entry, hentry, (distance_add (hhome entry) hd).ge⟩
  | @of_succ j hj ih =>
    obtain ⟨next, hnext, hfar⟩ := ih
    have hslot : (home entry + j) % cap < cap := Nat.mod_lt _ (by omega)
    rw [← succ_add] at hnext hfar
    obtain hhere | ⟨k, hk, hsucc, prior, hprior, hle⟩ := h.placed _ _ hnext
    · rw [(distance_eq_zero (hhome next) (succ_lt (by omega))).mpr hhere] at hfar
      omega
    · obtain rfl := succ_inj hk hslot hsucc
      refine ⟨prior, hprior, ?_⟩
      have hne : succ cap ((home entry + j) % cap) ≠ home next := by
        intro heq
        rw [(distance_eq_zero (hhome next) (succ_lt (by omega))).mpr heq] at hfar
        omega
      rw [distance_succ (hhome next) hslot hne] at hfar
      omega

theorem Ordered.distance_lt_of_empty (h : Ordered cap home slots) {gap : Nat} (hgap : gap < cap)
    (hempty : peek slots gap = none) (hentry : peek slots i = some entry) :
    distance cap (home entry) i + 1 < cap := by
  have hi : i < cap := h.length ▸ lt_of_peek hentry
  have hlt := distance_lt (hhome entry) (i := i)
  by_contra hround
  rw [← add_distance (hhome entry) hi] at hentry
  obtain ⟨prior, hprior, _⟩ := h.path hhome hlt hentry
    (j := distance cap (home entry) gap) (by have := distance_lt (hhome entry) (i := gap); omega)
  rw [add_distance (hhome entry) hgap, hempty] at hprior
  exact nomatch hprior

theorem Ordered.shift {ghost : α} (h : Ordered cap home (slots.set i (some ghost)))
    (hcap : 2 ≤ cap) (hi : i < cap) (hnext : peek slots (succ cap i) = some entry)
    (haway : succ cap i ≠ home entry) : Ordered cap home (slots.set i (some entry)) := by
  have hlength : i < slots.length := by
    have := h.length
    rw [length_set] at this
    omega
  have hghost : peek (slots.set i (some ghost)) i = some ghost := peek_set_self hlength
  have hkept : peek (slots.set i (some ghost)) (succ cap i) = some entry := by
    rw [peek_set_ne (succ_ne hcap hi), hnext]
  have hle := h.distance_le hi hghost hkept haway
  have hplace : Placeable cap home (slots.set i (some ghost)) entry i := by
    by_cases hhere : i = home entry
    · exact .inl hhere
    · -- the former entry was away from home, and so was the one before it
      obtain ⟨k, hk, rfl⟩ := exists_succ hi
      have haway' : succ cap k ≠ home ghost := by
        intro heq
        rw [(distance_eq_zero (hhome ghost) hi).mpr heq, Nat.le_zero,
          distance_eq_zero (hhome entry) hi] at hle
        exact hhere hle
      obtain ⟨before, hbefore, hfar⟩ := (h.placed _ _ hghost).prior hk haway'
      refine .inr ⟨k, hk, rfl, before, hbefore, ?_⟩
      rw [distance_succ (hhome entry) hk hhere, distance_succ (hhome ghost) hk haway'] at hle
      omega
  have hwritten := h.write hcap hi hplace fun next hsame _ => by
    rw [Option.some.inj (hkept.symm.trans hsame)]
  rwa [set_set] at hwritten

end Order

end NodeDB.RobinHood
