import NodeDB.KeyedFold
import Mathlib.Data.List.Nodup
import Mathlib.Data.List.Range
import Mathlib.Data.Nat.Bitwise

/-!
# Overflow values

Values too long for a slot of the table are kept in an allocator.  It has tiers
of fixed-size slots and, for what no tier can hold, a list of large objects.
A handle names a slot of a tier or a large object.  An allocation hands out a
place that nothing else owns and changes no place that is owned.
-/

namespace NodeDB.Kv

open List Option

abbrev Bytes := List UInt8

/-! ## The allocator -/

def tierSizes : List Nat := [64, 128, 256, 512, 1024, 2048, 4096]

def maxSlabSize : Nat := 4096

def initialSlotsPerTier : Nat := 64

/-- A tier keeps its slots in one buffer, here a list of slots.  The top of the free list comes
first. -/
structure SlabTier where
  slotSize : Nat
  slots : List Bytes
  freeList : List Nat

namespace SlabTier

def new (slotSize initialSlots : Nat) : SlabTier where
  slotSize := slotSize
  slots := List.replicate initialSlots (List.replicate slotSize 0)
  freeList := List.range initialSlots

def alloc (self : SlabTier) (data : Bytes) : Option (Nat × SlabTier) :=
  match self.freeList with
  | [] => none
  | slotIdx :: rest =>
    some (slotIdx,
      { self with
        slots := self.slots.set slotIdx (data ++ List.replicate (self.slotSize - data.length) 0)
        freeList := rest })

def grow (self : SlabTier) : SlabTier :=
  { self with
    slots := self.slots ++ List.replicate self.slots.length (List.replicate self.slotSize 0)
    freeList := List.range' self.slots.length self.slots.length ++ self.freeList }

def free (self : SlabTier) (slotIdx : Nat) : SlabTier :=
  { self with freeList := slotIdx :: self.freeList }

def get (self : SlabTier) (slotIdx len : Nat) : Option Bytes :=
  (self.slots[slotIdx]?).map (List.take len)

end SlabTier

def largeFlag : Nat := 2 ^ 31

def encodeHandle (tierIdx slotIdx : Nat) : Nat := tierIdx <<< 28 ||| slotIdx

def decodeHandle (handle : Nat) : Nat × Nat :=
  ((handle >>> 28) &&& 7, handle &&& (2 ^ 28 - 1))

def encodeLargeHandle (id : Nat) : Nat := largeFlag ||| id

def decodeLargeHandle (handle : Nat) : Nat := handle &&& (2 ^ 31 - 1)

def isLargeHandle (handle : Nat) : Bool := handle &&& largeFlag != 0

def tierIndex (size : Nat) : Nat :=
  (tierSizes.findIdx? (size ≤ ·)).getD (tierSizes.length - 1)

structure SlabAllocator where
  tiers : List SlabTier
  largeObjects : List (Option Bytes)
  largeFree : List Nat
  nextLargeId : Nat

namespace SlabAllocator

def new : SlabAllocator where
  tiers := tierSizes.map (SlabTier.new · initialSlotsPerTier)
  largeObjects := []
  largeFree := []
  nextLargeId := 0

def pushLarge (self : SlabAllocator) (data : Bytes) : SlabAllocator × Nat :=
  ({ self with
     nextLargeId := self.nextLargeId + 1
     largeObjects := self.largeObjects ++ [some data] },
   encodeLargeHandle self.nextLargeId)

def allocLarge (self : SlabAllocator) (data : Bytes) : SlabAllocator × Nat :=
  match self.largeFree with
  | freeId :: rest =>
    ({ self with
       largeFree := rest
       largeObjects := self.largeObjects.set freeId (some data) },
     encodeLargeHandle freeId)
  | [] => self.pushLarge data

def allocTier (self : SlabAllocator) (tierIdx : Nat) (tier : SlabTier) (data : Bytes) :
    SlabAllocator × Nat :=
  match tier.alloc data with
  | some (slotIdx, tier) =>
    ({ self with tiers := self.tiers.set tierIdx tier }, encodeHandle tierIdx slotIdx)
  | none =>
    match tier.grow.alloc data with
    | some (slotIdx, tier) =>
      ({ self with tiers := self.tiers.set tierIdx tier }, encodeHandle tierIdx slotIdx)
    | none => { self with tiers := self.tiers.set tierIdx tier.grow }.pushLarge data

/-- The allocator, the handle and the length as a `u32`.  No result stands for an index out of
bounds, here and below. -/
def alloc (self : SlabAllocator) (data : Bytes) : Option (SlabAllocator × Nat × Nat) := do
  let (slab, handle) ←
    if data.length ≤ maxSlabSize then do
      let tier ← self.tiers[tierIndex data.length]?
      some (self.allocTier (tierIndex data.length) tier data)
    else
      some (self.allocLarge data)
  some (slab, handle, data.length % 2 ^ 32)

def get (self : SlabAllocator) (handle len : Nat) : Option Bytes :=
  if isLargeHandle handle then do
    let data ← (self.largeObjects[decodeLargeHandle handle]?).join
    if len ≤ data.length then some (data.take len) else none
  else do
    let tier ← self.tiers[(decodeHandle handle).1]?
    tier.get (decodeHandle handle).2 len

def free (self : SlabAllocator) (handle : Nat) : Option SlabAllocator :=
  if isLargeHandle handle then do
    let _ ← self.largeObjects[decodeLargeHandle handle]?
    some
      { self with
        largeObjects := self.largeObjects.set (decodeLargeHandle handle) none
        largeFree := decodeLargeHandle handle :: self.largeFree }
  else do
    let (tierIdx, slotIdx) := decodeHandle handle
    let tier ← self.tiers[tierIdx]?
    some { self with tiers := self.tiers.set tierIdx (tier.free slotIdx) }

end SlabAllocator

/-! ## Free lists -/

namespace FreeList

/-- The free places are distinct places of the pool. -/
structure Sound (n : Nat) (free : List Nat) : Prop where
  below : ∀ i ∈ free, i < n
  distinct : free.Nodup

def Owned (n : Nat) (free : List Nat) (i : Nat) : Prop := i < n ∧ i ∉ free

variable {n i j : Nat} {free : List Nat}

theorem Sound.pop (h : Sound n (i :: free)) : Sound n free :=
  ⟨fun j hj => h.below j (mem_cons_of_mem _ hj), (nodup_cons.mp h.distinct).2⟩

theorem Sound.owned_pop (h : Sound n (i :: free)) :
    Owned n free j ↔ Owned n (i :: free) j ∨ j = i := by
  have hi := h.below i mem_cons_self
  have hfresh := (nodup_cons.mp h.distinct).1
  simp only [Owned, mem_cons, not_or]
  constructor
  · rintro ⟨hlt, hmem⟩
    by_cases hji : j = i
    · exact .inr hji
    · exact .inl ⟨hlt, hji, hmem⟩
  · rintro (⟨hlt, _, hmem⟩ | rfl)
    · exact ⟨hlt, hmem⟩
    · exact ⟨hi, hfresh⟩

theorem Sound.push (h : Sound n free) (howned : Owned n free i) : Sound n (i :: free) :=
  ⟨forall_mem_cons.mpr ⟨howned.1, h.below⟩, nodup_cons.mpr ⟨howned.2, h.distinct⟩⟩

theorem owned_push : Owned n (i :: free) j ↔ Owned n free j ∧ j ≠ i := by
  simp only [Owned, mem_cons, not_or]
  tauto

theorem Sound.grow (h : Sound n free) (m : Nat) : Sound (n + m) (List.range' n m ++ free) where
  below j hj := by
    rw [mem_append, mem_range'_1] at hj
    obtain hnew | hold := hj
    · exact hnew.2
    · exact (h.below j hold).trans_le (Nat.le_add_right n m)
  distinct := by
    refine List.Nodup.append nodup_range' h.distinct fun j hnew hold => ?_
    rw [mem_range'_1] at hnew
    exact absurd (h.below j hold) hnew.1.not_gt

theorem owned_grow (m : Nat) : Owned (n + m) (List.range' n m ++ free) j ↔ Owned n free j := by
  simp only [Owned, mem_append, mem_range'_1, not_or, not_and]
  constructor
  · rintro ⟨hlt, hnew, hmem⟩
    exact ⟨by by_contra hge; exact hnew (by omega) hlt, hmem⟩
  · rintro ⟨hlt, hmem⟩
    exact ⟨by omega, fun hge => by omega, hmem⟩

theorem Sound.owned_succ (h : Sound n free) : Owned (n + 1) free j ↔ Owned n free j ∨ j = n := by
  have hfresh : n ∉ free := fun hmem => absurd (h.below n hmem) (lt_irrefl n)
  simp only [Owned]
  constructor
  · rintro ⟨hlt, hmem⟩
    by_cases hjn : j = n
    · exact .inr hjn
    · exact .inl ⟨by omega, hmem⟩
  · rintro (⟨hlt, hmem⟩ | rfl)
    · exact ⟨by omega, hmem⟩
    · exact ⟨Nat.lt_succ_self j, hfresh⟩

end FreeList

/-! ## Handles -/

inductive Place where
  | tier (tierIdx slotIdx : Nat)
  | large (id : Nat)
  deriving DecidableEq

def placeOf (handle : Nat) : Place :=
  if isLargeHandle handle then .large (decodeLargeHandle handle)
  else .tier (decodeHandle handle).1 (decodeHandle handle).2

theorem placeOf_encodeHandle {tierIdx slotIdx : Nat} (htier : tierIdx < 8)
    (hslot : slotIdx < 2 ^ 28) : placeOf (encodeHandle tierIdx slotIdx) = .tier tierIdx slotIdx := by
  have hhandle : encodeHandle tierIdx slotIdx = tierIdx * 2 ^ 28 + slotIdx := by
    rw [encodeHandle, ← Nat.shiftLeft_add_eq_or_of_lt hslot, Nat.shiftLeft_eq]
  have hsmall : isLargeHandle (tierIdx * 2 ^ 28 + slotIdx) = false := by
    have hbit : (tierIdx * 2 ^ 28 + slotIdx).testBit 31 = false :=
      Nat.testBit_lt_two_pow (by omega)
    rw [isLargeHandle, largeFlag, Nat.and_two_pow, hbit]
    rfl
  have hdecode : decodeHandle (tierIdx * 2 ^ 28 + slotIdx) = (tierIdx, slotIdx) := by
    rw [decodeHandle, Nat.and_two_pow_sub_one_eq_mod, Nat.shiftRight_eq_div_pow,
      show (7 : Nat) = 2 ^ 3 - 1 from rfl, Nat.and_two_pow_sub_one_eq_mod, Prod.mk.injEq]
    omega
  rw [placeOf, hhandle, hsmall, hdecode]
  rfl

theorem placeOf_encodeLargeHandle {id : Nat} (hid : id < 2 ^ 31) :
    placeOf (encodeLargeHandle id) = .large id := by
  have hhandle : encodeLargeHandle id = 2 ^ 31 + id := by
    have hor := Nat.shiftLeft_add_eq_or_of_lt hid 1
    rw [Nat.shiftLeft_eq, Nat.one_mul] at hor
    exact hor.symm
  have hlarge : isLargeHandle (2 ^ 31 + id) = true := by
    have hbit : (2 ^ 31 + id).testBit 31 = true := by
      rw [Nat.testBit_two_pow_add_eq, Nat.testBit_lt_two_pow hid]
      rfl
    rw [isLargeHandle, largeFlag, Nat.and_two_pow, hbit]
    rfl
  have hdecode : decodeLargeHandle (2 ^ 31 + id) = id := by
    rw [decodeLargeHandle, Nat.and_two_pow_sub_one_eq_mod]
    omega
  rw [placeOf, hhandle, hlarge, hdecode]
  rfl

/-! ## Tiers -/

namespace SlabTier

structure Sound (tier : SlabTier) : Prop where
  sizes : ∀ slot ∈ tier.slots, slot.length = tier.slotSize
  free : FreeList.Sound tier.slots.length tier.freeList
  doubled : ∃ k, tier.slots.length = 64 * 2 ^ k

variable {self next : SlabTier} {data : Bytes} {slotIdx : Nat}

theorem sound_new (slotSize : Nat) : (new slotSize initialSlotsPerTier).Sound where
  sizes slot hslot := by
    rw [new, mem_replicate] at hslot
    rw [hslot.2, length_replicate]
    rfl
  free := by
    rw [new, length_replicate]
    exact ⟨fun i hi => mem_range.mp hi, nodup_range⟩
  doubled := ⟨0, length_replicate⟩

theorem Sound.grow (h : self.Sound) : self.grow.Sound where
  sizes slot hslot := by
    rw [SlabTier.grow, mem_append, mem_replicate] at hslot
    obtain hold | ⟨_, rfl⟩ := hslot
    · exact h.sizes slot hold
    · exact length_replicate
  free := by
    rw [SlabTier.grow, length_append, length_replicate]
    exact h.free.grow self.slots.length
  doubled := by
    obtain ⟨k, hk⟩ := h.doubled
    refine ⟨k + 1, ?_⟩
    rw [SlabTier.grow, length_append, length_replicate, hk, Nat.pow_succ]
    omega

theorem get_grow {i len : Nat} (hi : i < self.slots.length) :
    self.grow.get i len = self.get i len := by
  rw [get, get, grow, getElem?_append_left hi]

structure Filled (tier : SlabTier) (data : Bytes) (slotIdx : Nat) (next : SlabTier) : Prop where
  sound : next.Sound
  slotSize : next.slotSize = tier.slotSize
  slots : next.slots.length = tier.slots.length
  below : slotIdx < tier.slots.length
  fresh : ¬FreeList.Owned tier.slots.length tier.freeList slotIdx
  owned : ∀ i, FreeList.Owned next.slots.length next.freeList i ↔
    FreeList.Owned tier.slots.length tier.freeList i ∨ i = slotIdx
  value : next.get slotIdx data.length = some data
  kept : ∀ i len, i ≠ slotIdx → next.get i len = tier.get i len

theorem Sound.alloc (h : self.Sound) (hfits : data.length ≤ self.slotSize)
    (halloc : self.alloc data = some (slotIdx, next)) : Filled self data slotIdx next := by
  unfold SlabTier.alloc at halloc
  split at halloc
  · exact nomatch halloc
  · rename_i top rest hfree
    obtain ⟨rfl, rfl⟩ := Prod.mk.inj (Option.some.inj halloc)
    have hsound : FreeList.Sound self.slots.length (top :: rest) := hfree ▸ h.free
    have hbelow := hsound.below top mem_cons_self
    have hlength : ∀ slot, (self.slots.set top slot).length = self.slots.length :=
      fun _ => length_set
    refine ⟨⟨fun slot hslot => ?_, ?_, ?_⟩, rfl, hlength _, hbelow, ?_, fun i => ?_, ?_, ?_⟩
    · obtain hold | rfl := mem_or_eq_of_mem_set hslot
      · exact h.sizes slot hold
      · rw [length_append, length_replicate]
        exact Nat.add_sub_cancel' hfits
    · rw [hlength]
      exact hsound.pop
    · rw [hlength]
      exact h.doubled
    · exact fun howned => howned.2 (hfree ▸ mem_cons_self)
    · rw [hlength, hfree]
      exact hsound.owned_pop
    · rw [get, List.getElem?_set_self hbelow, map_some, take_left]
    · intro i len hne
      rw [get, get, getElem?_set_ne (Ne.symm hne)]

theorem exists_alloc_grow (h : self.Sound) (data : Bytes) : ∃ slotIdx next,
    self.grow.alloc data = some (slotIdx, next) := by
  obtain ⟨k, hk⟩ := h.doubled
  obtain ⟨n, hn⟩ : ∃ n, self.slots.length = n + 1 :=
    ⟨64 * 2 ^ k - 1, by have := Nat.two_pow_pos k; omega⟩
  unfold alloc grow
  rw [hn, List.range'_succ]
  exact ⟨_, _, rfl⟩

end SlabTier

/-! ## The whole allocator -/

namespace SlabAllocator

def Owns (self : SlabAllocator) : Place → Prop
  | .tier tierIdx slotIdx => ∃ tier, self.tiers[tierIdx]? = some tier ∧
      FreeList.Owned tier.slots.length tier.freeList slotIdx
  | .large id => FreeList.Owned self.largeObjects.length self.largeFree id

structure Sound (slab : SlabAllocator) : Prop where
  sizes : slab.tiers.map (·.slotSize) = tierSizes
  tiers : ∀ tier ∈ slab.tiers, tier.Sound ∧ tier.slots.length ≤ 2 ^ 28
  large : FreeList.Sound slab.largeObjects.length slab.largeFree
  few : slab.largeObjects.length ≤ 2 ^ 28
  counted : slab.nextLargeId = slab.largeObjects.length

def Sparse (self : SlabAllocator) : Prop :=
  ∀ places : List Place, places.Nodup → (∀ place ∈ places, self.Owns place) →
    places.length < 2 ^ 28

def read (self : SlabAllocator) (place : Place) (len : Nat) : Option Bytes :=
  match place with
  | .tier tierIdx slotIdx => (self.tiers[tierIdx]?).bind (·.get slotIdx len)
  | .large id => ((self.largeObjects[id]?).join).bind fun data =>
    if len ≤ data.length then some (data.take len) else none

theorem get_eq_read (self : SlabAllocator) (handle len : Nat) :
    self.get handle len = self.read (placeOf handle) len := by
  unfold get placeOf
  split <;> rfl

structure Allocated (slab : SlabAllocator) (data : Bytes) (next : SlabAllocator) (place : Place) :
    Prop where
  sound : next.Sound
  fresh : ¬slab.Owns place
  owns : ∀ other, next.Owns other ↔ slab.Owns other ∨ other = place
  value : next.read place data.length = some data
  kept : ∀ other len, slab.Owns other → next.read other len = slab.read other len

variable {self : SlabAllocator} {data : Bytes}

theorem sound_new : SlabAllocator.new.Sound where
  sizes := rfl
  tiers tier htier := by
    obtain ⟨size, _, rfl⟩ := mem_map.mp htier
    refine ⟨SlabTier.sound_new size, ?_⟩
    rw [SlabTier.new, length_replicate]
    decide
  large := ⟨nofun, nodup_nil⟩
  few := Nat.zero_le _
  counted := rfl

theorem not_owns_new (place : Place) : ¬SlabAllocator.new.Owns place := by
  cases place with
  | large id => exact fun howns => absurd howns.1 (Nat.not_lt_zero _)
  | tier tierIdx slotIdx =>
    rintro ⟨tier, htier, hlt, hmem⟩
    obtain ⟨size, _, rfl⟩ := mem_map.mp (List.mem_of_getElem? htier)
    rw [SlabTier.new, length_replicate] at hlt
    exact hmem (mem_range.mpr hlt)

theorem Sparse.lt (hsparse : self.Sparse) {place : Nat → Place} (hinj : Function.Injective place)
    {n : Nat} (howned : ∀ i < n, self.Owns (place i)) : n < 2 ^ 28 := by
  have hplaces := hsparse ((List.range n).map place) (nodup_range.map hinj) fun _ hplace => by
    obtain ⟨i, hi, rfl⟩ := mem_map.mp hplace
    exact howned i (mem_range.mp hi)
  rwa [List.length_map, length_range] at hplaces

theorem Sound.setTier (h : self.Sound) {tierIdx : Nat} {tier next : SlabTier}
    (htier : self.tiers[tierIdx]? = some tier) (hsize : next.slotSize = tier.slotSize)
    (hnext : next.Sound ∧ next.slots.length ≤ 2 ^ 28) :
    { self with tiers := self.tiers.set tierIdx next }.Sound :=
  { h with
    sizes := by
      obtain ⟨hbelow, rfl⟩ := List.getElem?_eq_some_iff.mp htier
      have hself := @List.set_getElem_self _ (self.tiers.map (·.slotSize)) tierIdx (by simpa)
      rwa [List.getElem_map, ← hsize, ← List.map_set, h.sizes] at hself
    tiers := fun other hother => by
      obtain hold | rfl := mem_or_eq_of_mem_set hother
      · exact h.tiers other hold
      · exact hnext }

theorem Sound.setLarge (h : self.Sound) {free : List Nat}
    (hfree : FreeList.Sound self.largeObjects.length free) (id : Nat) (object : Option Bytes) :
    { self with
      largeObjects := self.largeObjects.set id object
      largeFree := free }.Sound :=
  { h with
    large := by rwa [length_set]
    few := by rw [length_set]; exact h.few
    counted := by rw [length_set]; exact h.counted }

theorem Sound.filled (h : self.Sound) {tierIdx slotIdx : Nat} {tier grown next : SlabTier}
    (htier : self.tiers[tierIdx]? = some tier) (hsize : grown.slotSize = tier.slotSize)
    (howned : ∀ i, FreeList.Owned grown.slots.length grown.freeList i ↔
      FreeList.Owned tier.slots.length tier.freeList i)
    (hkept : ∀ i len, FreeList.Owned tier.slots.length tier.freeList i →
      grown.get i len = tier.get i len)
    (hfilled : SlabTier.Filled grown data slotIdx next) (hroom : grown.slots.length ≤ 2 ^ 28) :
    self.Allocated data { self with tiers := self.tiers.set tierIdx next }
      (.tier tierIdx slotIdx) := by
  have hbelow : tierIdx < self.tiers.length := (List.getElem?_eq_some_iff.mp htier).1
  have hself : (self.tiers.set tierIdx next)[tierIdx]? = some next :=
    List.getElem?_set_self hbelow
  refine ⟨h.setTier htier (hfilled.slotSize.trans hsize) ⟨hfilled.sound, hfilled.slots ▸ hroom⟩,
    ?_, ?_, ?_, ?_⟩
  · rintro ⟨owner, howner, howns⟩
    obtain rfl := Option.some.inj (htier.symm.trans howner)
    exact hfilled.fresh ((howned slotIdx).mpr howns)
  · rintro (⟨otherTier, otherSlot⟩ | id)
    · by_cases hsame : otherTier = tierIdx
      · subst hsame
        simp only [Owns, hself, htier, Option.some.injEq, exists_eq_left', hfilled.owned, howned,
          Place.tier.injEq, true_and]
      · simp only [Owns, getElem?_set_ne (Ne.symm hsame), Place.tier.injEq, hsame, false_and,
          or_false]
    · simp [Owns]
  · simp only [read, hself, bind_some, hfilled.value]
  · rintro (⟨otherTier, otherSlot⟩ | id) len howns
    · by_cases hsame : otherTier = tierIdx
      · subst hsame
        obtain ⟨owner, howner, howns⟩ := howns
        obtain rfl := Option.some.inj (htier.symm.trans howner)
        have hne : otherSlot ≠ slotIdx := by
          rintro rfl
          exact hfilled.fresh ((howned otherSlot).mpr howns)
        simp only [read, hself, htier, bind_some]
        rw [hfilled.kept otherSlot len hne, hkept otherSlot len howns]
      · simp only [read, getElem?_set_ne (Ne.symm hsame)]
    · rfl

theorem tierIndex_spec {size : Nat} (h : size ≤ maxSlabSize) :
    ∃ slotSize, tierSizes[tierIndex size]? = some slotSize ∧ size ≤ slotSize := by
  unfold maxSlabSize at h
  unfold tierIndex tierSizes
  simp only [findIdx?_cons, findIdx?_nil, decide_eq_true_eq]
  split_ifs <;> simp_all

theorem Sound.allocTier (h : self.Sound) (hsparse : self.Sparse) {tierIdx : Nat} {tier : SlabTier}
    (htier : self.tiers[tierIdx]? = some tier) (hfits : data.length ≤ tier.slotSize) :
    self.Allocated data (self.allocTier tierIdx tier data).1
      (placeOf (self.allocTier tierIdx tier data).2) := by
  have hcount : tierIdx < 8 := by
    have hlength := congrArg List.length h.sizes
    have hlt := (List.getElem?_eq_some_iff.mp htier).1
    rw [List.length_map] at hlength
    have : tierSizes.length = 7 := rfl
    omega
  obtain ⟨hsound, hroom⟩ := h.tiers tier (List.mem_of_getElem? htier)
  cases halloc : tier.alloc data with
  | some filled =>
    obtain ⟨slotIdx, next⟩ := filled
    have hfilled := hsound.alloc hfits halloc
    simp only [SlabAllocator.allocTier, halloc]
    rw [placeOf_encodeHandle hcount (hfilled.below.trans_le hroom)]
    exact h.filled htier rfl (fun _ => Iff.rfl) (fun _ _ _ => rfl) hfilled hroom
  | none =>
    obtain ⟨slotIdx, next, hgrown⟩ := SlabTier.exists_alloc_grow hsound data
    have hfilled := hsound.grow.alloc hfits hgrown
    -- the tier grows when every slot of it is owned
    have hfree : tier.freeList = [] := by
      unfold SlabTier.alloc at halloc
      split at halloc
      · assumption
      · exact nomatch halloc
    have hfull := hsparse.lt (fun i j hij => (Place.tier.inj hij).2) fun i hi =>
      (⟨tier, htier, hi, hfree ▸ not_mem_nil⟩ : self.Owns (.tier tierIdx i))
    have hdouble : tier.grow.slots.length ≤ 2 ^ 28 := by
      obtain ⟨k, hk⟩ := hsound.doubled
      have hpow : 64 * 2 ^ k = 2 ^ (6 + k) := by rw [Nat.pow_add]
      rw [hk, hpow] at hfull
      have hexp : 6 + k < 28 := (Nat.pow_lt_pow_iff_right (by decide)).mp hfull
      have hle : 2 ^ (6 + k + 1) ≤ 2 ^ 28 := Nat.pow_le_pow_right (by decide) hexp
      rw [SlabTier.grow, length_append, length_replicate, hk, hpow]
      omega
    simp only [SlabAllocator.allocTier, halloc, hgrown]
    rw [placeOf_encodeHandle hcount (hfilled.below.trans_le hdouble)]
    refine @Sound.filled self data h tierIdx slotIdx tier tier.grow next htier rfl
      (fun i => ?_) (fun i len howned => ?_) hfilled hdouble
    · rw [SlabTier.grow, length_append, length_replicate]
      exact FreeList.owned_grow tier.slots.length
    · exact SlabTier.get_grow howned.1

theorem Sound.allocLarge (h : self.Sound) (hsparse : self.Sparse) :
    self.Allocated data (self.allocLarge data).1 (placeOf (self.allocLarge data).2) := by
  cases hfree : self.largeFree with
  | cons freeId rest =>
    have hsound : FreeList.Sound self.largeObjects.length (freeId :: rest) := hfree ▸ h.large
    have hbelow := hsound.below freeId mem_cons_self
    simp only [SlabAllocator.allocLarge, hfree]
    rw [placeOf_encodeLargeHandle (by have := h.few; omega)]
    refine ⟨h.setLarge hsound.pop _ _, ?_, ?_, ?_, ?_⟩
    · exact fun howns => howns.2 (hfree ▸ mem_cons_self)
    · rintro (⟨tierIdx, slotIdx⟩ | id)
      · simp [Owns]
      · simp only [Owns, length_set, hfree, Place.large.injEq]
        exact hsound.owned_pop
    · simp [read, List.getElem?_set_self hbelow]
    · rintro (⟨tierIdx, slotIdx⟩ | id) len howns
      · rfl
      · have hne : freeId ≠ id := by
          rintro rfl
          exact howns.2 (hfree ▸ mem_cons_self)
        simp only [read, getElem?_set_ne hne]
  | nil =>
    have hfull := hsparse.lt (fun i j hij => Place.large.inj hij) fun i hi =>
      (⟨hi, hfree ▸ not_mem_nil⟩ : self.Owns (.large i))
    simp only [SlabAllocator.allocLarge, hfree, pushLarge]
    rw [placeOf_encodeLargeHandle (by rw [h.counted]; omega), h.counted]
    have hlength : (self.largeObjects ++ [some data]).length = self.largeObjects.length + 1 := by
      simp
    refine ⟨⟨h.sizes, h.tiers, ?_, ?_, ?_⟩, ?_, ?_, ?_, ?_⟩
    · exact ⟨nofun, nodup_nil⟩
    · rw [hlength]
      exact hfull
    · rw [hlength]
    · exact fun howns => absurd howns.1 (lt_irrefl _)
    · rintro (⟨tierIdx, slotIdx⟩ | id)
      · simp [Owns]
      · simp only [Owns, hlength, Place.large.injEq]
        exact hfree ▸ h.large.owned_succ
    · simp [read]
    · rintro (⟨tierIdx, slotIdx⟩ | id) len howns
      · rfl
      · simp only [read, getElem?_append_left howns.1]

theorem Sound.alloc (h : self.Sound) (hsparse : self.Sparse) (hlen : data.length < 2 ^ 32) :
    ∃ next handle, self.alloc data = some (next, handle, data.length) ∧
      self.Allocated data next (placeOf handle) := by
  unfold SlabAllocator.alloc
  rw [Nat.mod_eq_of_lt hlen]
  split_ifs with hsmall
  · obtain ⟨slotSize, hsize, hfits⟩ := tierIndex_spec hsmall
    rw [← h.sizes, getElem?_map, map_eq_some_iff] at hsize
    obtain ⟨tier, htier, rfl⟩ := hsize
    exact ⟨_, _, by simp only [htier, bind_eq_bind, bind_some],
      h.allocTier hsparse htier hfits⟩
  · exact ⟨_, _, by simp only [bind_eq_bind, bind_some], h.allocLarge hsparse⟩

structure Freed (slab : SlabAllocator) (place : Place) (next : SlabAllocator) : Prop where
  sound : next.Sound
  owns : ∀ other, next.Owns other ↔ slab.Owns other ∧ other ≠ place
  kept : ∀ other len, other ≠ place → next.read other len = slab.read other len

theorem Sound.free (h : self.Sound) {handle : Nat} (howns : self.Owns (placeOf handle)) :
    ∃ next, self.free handle = some next ∧ self.Freed (placeOf handle) next := by
  unfold SlabAllocator.free placeOf
  unfold placeOf at howns
  split_ifs at howns ⊢ with hlarge
  · rw [getElem?_eq_getElem howns.1]
    refine ⟨_, rfl, h.setLarge (h.large.push howns) _ _, ?_, ?_⟩
    · rintro (⟨tierIdx, slotIdx⟩ | id)
      · simp [Owns]
      · simp only [Owns, length_set, ne_eq, Place.large.injEq]
        exact FreeList.owned_push
    · rintro (⟨tierIdx, slotIdx⟩ | id) len hne
      · rfl
      · have hid : decodeLargeHandle handle ≠ id := fun heq => hne (heq ▸ rfl)
        simp only [read, getElem?_set_ne hid]
  · obtain ⟨tier, htier, howned⟩ := howns
    have hbelow := (List.getElem?_eq_some_iff.mp htier).1
    obtain ⟨hsound, hroom⟩ := h.tiers tier (List.mem_of_getElem? htier)
    refine ⟨{ self with
        tiers := self.tiers.set (decodeHandle handle).1 (tier.free (decodeHandle handle).2) },
      by simp [htier],
      h.setTier htier rfl ⟨{ hsound with free := hsound.free.push howned }, hroom⟩, ?_, ?_⟩
    · rintro (⟨tierIdx, slotIdx⟩ | id)
      · by_cases hsame : tierIdx = (decodeHandle handle).1
        · subst hsame
          simp only [Owns, List.getElem?_set_self hbelow, htier, Option.some.injEq, exists_eq_left',
            ne_eq, Place.tier.injEq, true_and, SlabTier.free]
          exact FreeList.owned_push
        · simp [Owns, getElem?_set_ne (Ne.symm hsame), hsame]
      · simp [Owns]
    · rintro (⟨tierIdx, slotIdx⟩ | id) len hne
      · by_cases hsame : tierIdx = (decodeHandle handle).1
        · subst hsame
          simp only [read, List.getElem?_set_self hbelow, htier, bind_some]
          rfl
        · simp only [read, getElem?_set_ne (Ne.symm hsame)]
      · rfl

end SlabAllocator

end NodeDB.Kv
