import NodeDB.KvTable

/-!
# Probing

On slots in Robin Hood order a search finds the key that is there, an insertion
into slots with an empty one ends and keeps the order, and a deletion with its
repair does.  Capacities are powers of two, so that the masks of the code are
remainders.
-/

namespace NodeDB.Kv

open RobinHood Option

/-! ## Masks -/

def home (capacity : Nat) (entry : KvEntry) : Nat := entry.hash.toNat % capacity

section Masks

variable {capacity : Nat} (hcapacity : ∃ k, capacity = 2 ^ k)

include hcapacity

theorem mask_eq (n : Nat) : n &&& (capacity - 1) = n % capacity := by
  obtain ⟨k, rfl⟩ := hcapacity
  exact Nat.and_two_pow_sub_one_eq_mod n k

theorem idealSlot_eq (hash : UInt64) : idealSlot capacity hash = hash.toNat % capacity :=
  mask_eq hcapacity _

theorem nextSlot_eq (idx : Nat) : nextSlot capacity idx = succ capacity idx :=
  mask_eq hcapacity _

theorem probeDistance_eq (entry : KvEntry) (idx : Nat) :
    probeDistance capacity entry.hash idx = distance capacity (home capacity entry) idx := by
  rw [probeDistance, mask_eq hcapacity, idealSlot_eq hcapacity]
  rfl

theorem capacity_pos : 0 < capacity := by
  obtain ⟨k, rfl⟩ := hcapacity
  exact Nat.two_pow_pos k

theorem home_lt (entry : KvEntry) : home capacity entry < capacity :=
  Nat.mod_lt _ (capacity_pos hcapacity)

end Masks

/-- The slots are in probe order. -/
structure Probed (capacity : Nat) (slots : Slots) : Prop where
  power : ∃ k, capacity = 2 ^ k
  large : 2 ≤ capacity
  ordered : Ordered capacity (home capacity) slots

def Hashed (runtime : TableRuntime) (all : List KvEntry) : Prop :=
  ∀ entry ∈ all, entry.hash = runtime.hashKey entry.key

section Probing

variable {runtime : TableRuntime} {capacity : Nat} {slots : Slots} {key : Bytes} {hash : UInt64}
  {entry : KvEntry} {idx : Nat}

/-! ## Searches -/

theorem probeFrom_some {fuel dist idx' : Nat}
    (h : probeFrom slots hash key fuel idx dist = some idx') :
    ∃ entry, peek slots idx' = some entry ∧ entry.hash = hash ∧ entry.key = key := by
  induction fuel generalizing idx dist with
  | zero => exact nomatch h
  | succ fuel ih =>
    unfold probeFrom at h
    split at h
    · exact nomatch h
    · rename_i entry hentry
      split_ifs at h with hfound
      · exact ⟨entry, some.inj h ▸ hentry, hfound⟩
      · exact ih h

theorem Probed.probeFrom (h : Probed capacity slots) {target fuel dist d : Nat}
    (htarget : peek slots target = some entry)
    (hd : d = distance capacity (home capacity entry) target)
    (honly : ∀ i other, peek slots i = some other → other.hash = entry.hash →
      other.key = entry.key → i = target)
    (hdist : dist ≤ d) (hidx : idx = (home capacity entry + dist) % capacity)
    (hfuel : d < dist + fuel) :
    probeFrom slots entry.hash entry.key fuel idx dist = some target := by
  have hhome := home_lt h.power entry
  have hbelow : target < capacity := h.ordered.length ▸ lt_of_peek htarget
  have hround : d < capacity := hd ▸ distance_lt hhome
  induction fuel generalizing idx dist with
  | zero => omega
  | succ fuel ih =>
    have hway : peek slots ((home capacity entry + d) % capacity) = some entry := by
      rw [hd, add_distance hhome hbelow, htarget]
    obtain ⟨prior, hprior, hfar⟩ := h.ordered.path (home_lt h.power) hround hway hdist
    rw [← hidx] at hprior hfar
    simp only [Kv.probeFrom, hprior, h.ordered.length, probeDistance_eq h.power,
      nextSlot_eq h.power]
    by_cases hfound : prior.hash = entry.hash ∧ prior.key = entry.key
    · rw [if_pos hfound, honly idx prior hprior hfound.1 hfound.2]
    · rw [if_neg hfound, if_neg (by omega)]
      have hne : dist ≠ d := by
        rintro rfl
        rw [hidx] at hprior
        obtain rfl := some.inj (hway.symm.trans hprior)
        exact hfound ⟨rfl, rfl⟩
      refine ih (by omega) ?_ (by omega)
      rw [hidx, succ_add]

section

variable (h : Probed capacity slots) (hhashed : Hashed runtime (entries slots))
  (hkeys : ((entries slots).map (·.key)).Nodup)
include h hhashed hkeys

theorem Probed.probeFindIndex : probeFindIndex slots (runtime.hashKey key) key = some idx ↔
      ∃ entry, peek slots idx = some entry ∧ entry.key = key := by
  constructor
  · intro hfound
    obtain ⟨entry, hentry, _, hkey⟩ := probeFrom_some hfound
    exact ⟨entry, hentry, hkey⟩
  · rintro ⟨entry, hentry, rfl⟩
    have hhash := hhashed entry (mem_entries.mpr ⟨idx, hentry⟩)
    have hhome := home_lt h.power entry
    unfold Kv.probeFindIndex
    rw [← hhash, h.ordered.length]
    refine h.probeFrom hentry rfl ?_ (Nat.zero_le _) ?_ ?_
    · exact fun i other hother _ hkey => peek_inj hkeys hother hentry hkey
    · rw [idealSlot_eq h.power, Nat.add_zero]
      exact (Nat.mod_mod _ _).symm
    · have := distance_lt hhome (i := idx)
      omega

theorem Probed.probeFind : probeFind slots (runtime.hashKey key) key = some entry ↔
      entry ∈ entries slots ∧ entry.key = key := by
  rw [Kv.probeFind, bind_eq_some_iff, mem_entries]
  simp only [h.probeFindIndex hhashed hkeys]
  constructor
  · rintro ⟨idx, ⟨found, hfound, hkey⟩, hentry⟩
    obtain rfl := some.inj (hfound.symm.trans hentry)
    exact ⟨⟨idx, hentry⟩, hkey⟩
  · rintro ⟨⟨idx, hentry⟩, hkey⟩
    exact ⟨idx, ⟨entry, hentry, hkey⟩, hentry⟩

end

/-! ## Insertions -/

/-- What an insertion does.  Some slot is then a barrier, also if the last empty one was filled. -/
structure Inserted (capacity : Nat) (slots : Slots) (entry : KvEntry) (result : Slots) : Prop where
  probed : Probed capacity result
  perm : (entries result).Perm (entry :: entries slots)
  seated : ∃ barrier < capacity, Barrier (home capacity) result barrier

theorem Probed.robinHoodInsertFrom (h : Probed capacity slots) {dist gap : Nat} (fuel : Nat)
    (hidx : idx < capacity) (hplace : Placeable capacity (home capacity) slots entry idx)
    (hdist : dist = distance capacity (home capacity entry) idx) (hgap : gap < capacity)
    (hempty : peek slots gap = none) (hfuel : distance capacity idx gap < fuel)
    (hstart : idx = succ capacity gap → dist = 0) :
    ∃ result, robinHoodInsertFrom fuel slots entry idx dist = some result ∧
      Probed capacity result ∧ (entries result).Perm (entry :: entries slots) ∧
      Barrier (home capacity) result (succ capacity gap) := by
  induction fuel generalizing slots entry idx dist with
  | zero => omega
  | succ fuel ih =>
    have hhome := home_lt h.power
    have hlength : idx < slots.length := h.ordered.length ▸ hidx
    have hbarrier := h.ordered.barrier_succ hgap hempty
    cases hslot : peek slots idx with
    | none =>
      refine ⟨_, by simp only [Kv.robinHoodInsertFrom, hslot],
        ⟨h.power, h.large, h.ordered.fill h.large hidx hslot hplace⟩,
        entries_fill hlength hslot, fun other hother => ?_⟩
      by_cases hsame : succ capacity gap = idx
      · rw [hsame, peek_set_self hlength, some.injEq] at hother
        rw [← hother, hsame]
        exact (distance_eq_zero (hhome entry) hidx).mp (hdist ▸ hstart hsame.symm)
      · rw [peek_set_ne hsame] at hother
        exact hbarrier other hother
    | some existing =>
      have hne : idx ≠ gap := by
        rintro rfl
        rw [hempty] at hslot
        exact nomatch hslot
      have hround := h.ordered.distance_lt_of_empty hhome hgap hempty hslot
      have hnext : succ capacity idx < capacity := succ_lt (by omega)
      have hleft := distance_succ_left hidx hgap hne
      have hpassed : succ capacity idx ≠ succ capacity gap := fun heq =>
        hne (succ_inj hidx hgap heq)
      simp only [Kv.robinHoodInsertFrom, hslot, h.ordered.length, probeDistance_eq h.power,
        nextSlot_eq h.power]
      split_ifs with hsteal
      · -- the entry takes the slot, and the existing one goes on
        have haway : succ capacity idx ≠ home capacity existing := fun heq => by
          have := distance_of_succ (hhome existing) hidx heq
          omega
        have hnear : distance capacity (home capacity existing) idx ≤
            distance capacity (home capacity entry) idx := by omega
        obtain ⟨result, hresult, hprobed, hperm, hkept⟩ := ih
          ⟨h.power, h.large, h.ordered.steal h.large hslot hplace hnear⟩ hnext
          (.inr ⟨idx, hidx, rfl, entry, peek_set_self hlength, hnear⟩)
          (distance_succ (hhome existing) hidx haway).symm
          ((peek_set_ne (Ne.symm hne)).trans hempty) (by omega)
          (fun heq => absurd heq hpassed)
        exact ⟨result, hresult, hprobed, hperm.trans (entries_replace hslot), hkept⟩
      · have haway : succ capacity idx ≠ home capacity entry := fun heq => by
          have := distance_of_succ (hhome entry) hidx heq
          omega
        exact ih h hnext (.inr ⟨idx, hidx, rfl, existing, hslot, by omega⟩)
          (by rw [hdist, distance_succ (hhome entry) hidx haway]) hempty (by omega)
          (fun heq => absurd heq hpassed)

theorem Probed.robinHoodInsert (h : Probed capacity slots) (entry : KvEntry)
    (hroom : (entries slots).length < capacity) :
    ∃ result, robinHoodInsert slots entry = some result ∧ Inserted capacity slots entry result := by
  obtain ⟨gap, hgap, hempty⟩ := exists_empty (h.ordered.length.symm ▸ hroom)
  rw [h.ordered.length] at hgap
  have hhome := home_lt h.power entry
  have hzero : 0 = distance capacity (home capacity entry) (home capacity entry) :=
    ((distance_eq_zero hhome hhome).mpr rfl).symm
  obtain ⟨result, hresult, hprobed, hperm, hbarrier⟩ := h.robinHoodInsertFrom capacity hhome
    (.inl rfl) hzero hgap hempty (distance_lt hhome) fun _ => rfl
  refine ⟨result, ?_, hprobed, hperm, succ capacity gap, succ_lt (by omega), hbarrier⟩
  rw [Kv.robinHoodInsert, h.ordered.length, idealSlot_eq h.power]
  exact hresult

/-! ## Deletions -/

theorem repairAfterDeleteFrom_spec (fuel : Nat) (ghost : KvEntry) (hpower : ∃ k, capacity = 2 ^ k)
    (hlarge : 2 ≤ capacity)
    (h : Ordered capacity (home capacity) (slots.set idx (some ghost))) (hidx : idx < capacity)
    (hhole : peek slots idx = none) {barrier : Nat} (hbound : barrier < capacity)
    (hbarrier : Barrier (home capacity) (slots.set idx (some ghost)) barrier)
    (hfuel : distance capacity (succ capacity idx) barrier < fuel) :
    ∃ result, repairAfterDeleteFrom fuel slots idx = some result ∧ Probed capacity result ∧
      (entries result).Perm (entries slots) ∧
      ∀ i, i ≠ idx → peek slots i = none → peek result i = none := by
  induction fuel generalizing slots idx ghost with
  | zero => omega
  | succ fuel ih =>
    have hhome := home_lt hpower
    have hlength : slots.length = capacity := by
      have := h.length
      rwa [List.length_set] at this
    have hbelow : idx < slots.length := hlength ▸ hidx
    have hnext : succ capacity idx < capacity := succ_lt (by omega)
    have hdistinct : succ capacity idx ≠ idx := succ_ne hlarge hidx
    have hclosed (hstop : Barrier (home capacity) slots (succ capacity idx)) :
        Probed capacity slots := by
      refine ⟨hpower, hlarge, ?_⟩
      have hcleared := h.clear hidx fun entry hentry =>
        hstop entry ((peek_set_ne hdistinct).symm.trans hentry)
      rwa [List.set_set, ← hhole, set_peek hbelow] at hcleared
    simp only [Kv.repairAfterDeleteFrom, hlength, nextSlot_eq hpower, probeDistance_eq hpower]
    cases hslot : peek slots (succ capacity idx) with
    | none =>
      refine ⟨slots, rfl, hclosed fun entry hentry => ?_, List.Perm.refl _, fun _ _ hi => hi⟩
      exact nomatch hslot.symm.trans hentry
    | some entry =>
      dsimp only
      split_ifs with hzero
      · refine ⟨slots, rfl, hclosed fun other hother => ?_, List.Perm.refl _, fun _ _ hi => hi⟩
        obtain rfl := some.inj (hslot.symm.trans hother)
        exact (distance_eq_zero (hhome entry) hnext).mp hzero
      · have haway : succ capacity idx ≠ home capacity entry := fun heq =>
          hzero ((distance_eq_zero (hhome entry) hnext).mpr heq)
        have hnotNext : succ capacity idx ≠ barrier := by
          rintro rfl
          exact haway (hbarrier entry ((peek_set_ne hdistinct).trans hslot))
        have hmoved : ((slots.set idx (some entry)).set (succ capacity idx) none).set
            (succ capacity idx) (some entry) = slots.set idx (some entry) := by
          rw [List.set_set, set_of_peek ((peek_set_ne hdistinct).trans hslot)]
        have hmovedBarrier : Barrier (home capacity) (slots.set idx (some entry)) barrier := by
          intro other hother
          by_cases hsame : barrier = idx
          · -- the former entry was at home, so the moved one is
            subst hsame
            rw [peek_set_self hbelow, some.injEq] at hother
            subst hother
            have hghost := hbarrier ghost (peek_set_self hbelow)
            have hle := h.distance_le hidx (peek_set_self hbelow)
              ((peek_set_ne hdistinct).trans hslot) haway
            rw [(distance_eq_zero (hhome ghost) hidx).mpr hghost, Nat.le_zero] at hle
            exact (distance_eq_zero (hhome entry) hidx).mp hle
          · exact hbarrier other (by rw [peek_set_ne hsame] at hother ⊢; exact hother)
        have hempty : peek ((slots.set idx (some entry)).set (succ capacity idx) none)
            (succ capacity idx) = none :=
          peek_set_self (by rwa [List.length_set, hlength])
        obtain ⟨result, hresult, hprobed, hperm, hnone⟩ := @ih
          ((slots.set idx (some entry)).set (succ capacity idx) none) (succ capacity idx) entry
          (hmoved.symm ▸ h.shift hhome hlarge hidx hslot haway) hnext hempty
          (hmoved.symm ▸ hmovedBarrier)
          (by have := distance_succ_left hnext hbound hnotNext; omega)
        rw [hhole]
        refine ⟨result, hresult, hprobed, hperm.trans ?_, fun i hi hslotNone => ?_⟩
        · have hcleared := @entries_clear _ (slots.set idx (some entry)) _ _
            ((peek_set_ne hdistinct).trans hslot)
          exact (hcleared.trans (entries_fill hbelow hhole)).cons_inv
        · have hi' : i ≠ succ capacity idx := by
            rintro rfl
            exact nomatch hslot.symm.trans hslotNone
          refine hnone i hi' ?_
          rw [peek_set_ne hi', peek_set_ne hi, hslotNone]

structure Removed (capacity : Nat) (slots : Slots) (entry : KvEntry) (result : Slots) : Prop where
  probed : Probed capacity result
  perm : (entry :: entries result).Perm (entries slots)
  empty : ∀ i, peek slots i = none → peek result i = none

theorem Probed.repairAfterDelete (h : Probed capacity slots) {barrier : Nat}
    (hbound : barrier < capacity) (hbarrier : Barrier (home capacity) slots barrier)
    (hentry : peek slots idx = some entry) :
    ∃ result, repairAfterDelete (slots.set idx none) idx = some result ∧
      Removed capacity slots entry result := by
  have hbelow := lt_of_peek hentry
  have hidx : idx < capacity := h.ordered.length ▸ hbelow
  have hback : (slots.set idx none).set idx (some entry) = slots := by
    rw [List.set_set, set_of_peek hentry]
  obtain ⟨result, hresult, hprobed, hperm, hnone⟩ := repairAfterDeleteFrom_spec capacity entry
    h.power h.large (hback.symm ▸ h.ordered) hidx (peek_set_self hbelow) hbound
    (hback.symm ▸ hbarrier) (distance_lt (succ_lt (by omega)))
  refine ⟨result, ?_, hprobed, (hperm.cons entry).trans (entries_clear hentry), fun i hi => ?_⟩
  · rw [Kv.repairAfterDelete, List.length_set, h.ordered.length, hresult]
  · have hne : i ≠ idx := by
      rintro rfl
      exact nomatch hentry.symm.trans hi
    exact hnone i hne ((peek_set_ne hne).trans hi)

theorem Probed.set (h : Probed capacity slots) (updated : KvEntry)
    (hentry : peek slots idx = some entry) (hhash : updated.hash = entry.hash) :
    Probed capacity (slots.set idx (some updated)) := by
  have hhome : home capacity updated = home capacity entry := by rw [home, home, hhash]
  refine ⟨h.power, h.large, h.ordered.steal h.large hentry ?_ (by rw [hhome])⟩
  have hplaced := h.ordered.placed idx entry hentry
  rwa [Placeable, ← hhome] at hplaced

end Probing

end NodeDB.Kv
