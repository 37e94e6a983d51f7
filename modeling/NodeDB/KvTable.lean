import NodeDB.RobinHood
import NodeDB.SlabAllocator

/-!
# The KV hash table

Keys are kept in a ring of slots in Robin Hood order.  When the table is loaded
above its threshold it gets twice the slots, and every put then moves a batch of
entries from the old slots to the new ones.  A key is looked up in both.
-/

namespace NodeDB.Kv

open Std RobinHood

/-! ## Entries -/

inductive KvValue where
  | inline (data : Bytes)
  | overflow (index len : Nat)
  deriving DecidableEq

def noExpiry : Nat := 0

structure KvEntry where
  hash : UInt64
  key : Bytes
  value : KvValue
  expireAtMs : Nat
  surrogate : Nat
  deriving DecidableEq

def KvEntry.hasTtl (self : KvEntry) : Bool := self.expireAtMs ≠ noExpiry

def KvEntry.isExpired (self : KvEntry) (nowMs : Nat) : Bool :=
  self.expireAtMs ≠ noExpiry ∧ nowMs ≥ self.expireAtMs

/-- The hash of keys, and whether a length over a capacity is above the load-factor threshold. -/
structure TableRuntime where
  hashKey : Bytes → UInt64
  overloaded : (len capacity : Nat) → Bool

def fxSeed : UInt64 := 0x517cc1b727220a95

def rotateLeft (word : UInt64) (n : UInt64) : UInt64 := word <<< n ||| word >>> (64 - n)

def fxHash (bytes : Bytes) : UInt64 :=
  bytes.foldl (fun hash byte => rotateLeft hash 5 ^^^ (byte.toUInt64 * fxSeed)) 0

def engineRuntime : TableRuntime where
  hashKey := fxHash
  overloaded len capacity := decide (4 * len > 3 * capacity)

def readValueFrom (entry : KvEntry) (overflow : SlabAllocator) : Option Bytes :=
  match entry.value with
  | .inline data => some data
  | .overflow index len => overflow.get index len

def storeValueIn (overflow : SlabAllocator) (value : Bytes) (inlineThreshold : Nat) :
    Option (SlabAllocator × KvValue) :=
  if value.length ≤ inlineThreshold then
    some (overflow, .inline value)
  else do
    let (overflow, index, len) ← overflow.alloc value
    some (overflow, .overflow index len)

def freeValueFrom (value : KvValue) (overflow : SlabAllocator) : Option SlabAllocator :=
  match value with
  | .inline _ => some overflow
  | .overflow index _ => overflow.free index

/-! ## Probing -/

abbrev Slots := List (Option KvEntry)

def idealSlot (capacity : Nat) (hash : UInt64) : Nat := hash.toNat &&& (capacity - 1)

def nextSlot (capacity idx : Nat) : Nat := (idx + 1) &&& (capacity - 1)

def probeDistance (capacity : Nat) (hash : UInt64) (currentIdx : Nat) : Nat :=
  (currentIdx + capacity - idealSlot capacity hash) &&& (capacity - 1)

/-- A search ends at an empty slot, and at an entry that is nearer to its own slot than the key
would be here.  After a whole round every entry is nearer. -/
def probeFrom (slots : Slots) (hash : UInt64) (key : Bytes) : (fuel idx dist : Nat) → Option Nat
  | 0, _, _ => none
  | fuel + 1, idx, dist =>
    match peek slots idx with
    | none => none
    | some entry =>
      if entry.hash = hash ∧ entry.key = key then
        some idx
      else if probeDistance slots.length entry.hash idx < dist then
        none
      else
        probeFrom slots hash key fuel (nextSlot slots.length idx) (dist + 1)

def probeFindIndex (slots : Slots) (hash : UInt64) (key : Bytes) : Option Nat :=
  probeFrom slots hash key (slots.length + 1) (idealSlot slots.length hash) 0

def probeFind (slots : Slots) (hash : UInt64) (key : Bytes) : Option KvEntry :=
  (probeFindIndex slots hash key).bind (peek slots)

/-- An entry takes the slot of one that is nearer to its own, which is then placed further on.
Without a result the loop does not end. -/
def robinHoodInsertFrom : (fuel : Nat) → Slots → KvEntry → (idx dist : Nat) → Option Slots
  | 0, _, _, _, _ => none
  | fuel + 1, slots, entry, idx, dist =>
    match peek slots idx with
    | none => some (slots.set idx (some entry))
    | some existing =>
      let existingDist := probeDistance slots.length existing.hash idx
      if existingDist < dist then
        robinHoodInsertFrom fuel (slots.set idx (some entry)) existing
          (nextSlot slots.length idx) (existingDist + 1)
      else
        robinHoodInsertFrom fuel slots entry (nextSlot slots.length idx) (dist + 1)

def robinHoodInsert (slots : Slots) (entry : KvEntry) : Option Slots :=
  robinHoodInsertFrom slots.length slots entry (idealSlot slots.length entry.hash) 0

/-- Moves the entries behind a deleted one back, up to an empty slot or an entry in its own. -/
def repairAfterDeleteFrom : (fuel : Nat) → Slots → (idx : Nat) → Option Slots
  | 0, _, _ => none
  | fuel + 1, slots, idx =>
    let next := nextSlot slots.length idx
    match peek slots next with
    | none => some slots
    | some entry =>
      if probeDistance slots.length entry.hash next = 0 then
        some slots
      else
        repairAfterDeleteFrom fuel ((slots.set idx (some entry)).set next (peek slots idx)) next

def repairAfterDelete (slots : Slots) (deletedIdx : Nat) : Option Slots :=
  repairAfterDeleteFrom slots.length slots deletedIdx

/-! ## The table -/

structure KvHashTable where
  slots : Slots
  len : Nat
  capacity : Nat
  rehashBatchSize : Nat
  rehashSource : Option Slots
  rehashCursor : Nat
  overflow : SlabAllocator
  inlineThreshold : Nat
  surrogateToKey : TreeMap Nat Bytes

namespace KvHashTable

def new (capacity rehashBatchSize inlineThreshold : Nat) : KvHashTable :=
  let capacity := max capacity.nextPowerOfTwo 4
  { slots := List.replicate capacity none
    len := 0
    capacity := capacity
    rehashBatchSize := rehashBatchSize
    rehashSource := none
    rehashCursor := 0
    overflow := .new
    inlineThreshold := inlineThreshold
    surrogateToKey := ∅ }

def keyForSurrogate (self : KvHashTable) (surrogate : Nat) : Option Bytes :=
  self.surrogateToKey[surrogate]?

def liveEntries (self : KvHashTable) : List KvEntry :=
  entries self.slots ++ (self.rehashSource.map entries).getD []

/-! ### Incremental rehash -/

def maybeStartRehash (runtime : TableRuntime) (self : KvHashTable) : KvHashTable :=
  match self.rehashSource with
  | some _ => self
  | none =>
    if runtime.overloaded self.len self.capacity then
      { self with
        slots := List.replicate (self.capacity * 2) none
        rehashSource := some self.slots
        rehashCursor := 0
        capacity := self.capacity * 2 }
    else
      self

/-- Moves entries until the batch is full or the old slots are at their end. -/
def migrate (batch : Nat) :
    (remaining : Nat) → (old : Slots) → (cursor migrated : Nat) → (slots : Slots) →
      Option (Slots × Nat × Slots)
  | 0, old, cursor, _, slots => some (old, cursor, slots)
  | remaining + 1, old, cursor, migrated, slots =>
    if migrated < batch then
      match peek old cursor with
      | some entry => do
        let slots ← robinHoodInsert slots entry
        migrate batch remaining (old.set cursor none) (cursor + 1) (migrated + 1) slots
      | none => migrate batch remaining old (cursor + 1) migrated slots
    else
      some (old, cursor, slots)

def rehashStep (self : KvHashTable) : Option KvHashTable :=
  match self.rehashSource with
  | none => some self
  | some old => do
    let (old, cursor, slots) ←
      migrate self.rehashBatchSize (old.length - self.rehashCursor) old self.rehashCursor 0
        self.slots
    if cursor ≥ old.length then
      some { self with slots := slots, rehashSource := none, rehashCursor := 0 }
    else
      some { self with slots := slots, rehashSource := some old, rehashCursor := cursor }

section Api

variable (runtime : TableRuntime)

/-! ### Reads -/

def find (self : KvHashTable) (key : Bytes) : Option KvEntry :=
  let hash := runtime.hashKey key
  match probeFind self.slots hash key with
  | some entry => some entry
  | none => self.rehashSource.bind fun old => probeFind old hash key

def getWithSurrogate (self : KvHashTable) (key : Bytes) (nowMs : Nat) : Option (Bytes × Nat) := do
  let entry ← self.find runtime key
  if entry.isExpired nowMs then
    none
  else
    let value ← readValueFrom entry self.overflow
    some (value, entry.surrogate)

def get (self : KvHashTable) (key : Bytes) (nowMs : Nat) : Option Bytes :=
  (self.getWithSurrogate runtime key nowMs).map (·.1)

structure EntryMeta where
  hasTtl : Bool
  expireAtMs : Nat
  deriving DecidableEq

def getEntryMeta (self : KvHashTable) (key : Bytes) : Option EntryMeta :=
  (self.find runtime key).map fun entry =>
    { hasTtl := entry.hasTtl, expireAtMs := entry.expireAtMs }

def getIgnoringExpiry (self : KvHashTable) (key : Bytes) : Option Bytes := do
  let entry ← self.find runtime key
  readValueFrom entry self.overflow

/-! ### Writes

No result stands for a call that panics or does not end. -/

/-- The new value in the place of an entry's, and the value it replaces. -/
def replaceValue (self : KvHashTable) (entry : KvEntry) (value : Bytes) :
    Option (SlabAllocator × KvValue × Bytes) := do
  let oldValue ← readValueFrom entry self.overflow
  let freed ← freeValueFrom entry.value self.overflow
  let (overflow, newValue) ← storeValueIn freed value self.inlineThreshold
  some (overflow, newValue, oldValue)

def put (self : KvHashTable) (key value : Bytes) (expireAtMs surrogate : Nat) :
    Option (KvHashTable × Option Bytes) := do
  let self ← self.rehashStep
  let hash := runtime.hashKey key
  match probeFindIndex self.slots hash key with
  | some idx =>
    let entry ← peek self.slots idx
    let (overflow, newValue, oldValue) ← self.replaceValue entry value
    let updated : KvEntry := { entry with value := newValue, expireAtMs := expireAtMs }
    some ({ self with slots := self.slots.set idx (some updated), overflow := overflow },
      some oldValue)
  | none =>
    match self.rehashSource.bind fun old => (probeFindIndex old hash key).map fun idx =>
        (old, idx) with
    | some (old, idx) =>
      -- the slot is emptied and the entries behind it stay where they are
      let oldEntry ← peek old idx
      let (overflow, newValue, oldValue) ← self.replaceValue oldEntry value
      let slots ← robinHoodInsert self.slots
        { hash := hash, key := key, value := newValue, expireAtMs := expireAtMs
          surrogate := oldEntry.surrogate }
      some ({ self with
              slots := slots
              rehashSource := some (old.set idx none)
              overflow := overflow }, some oldValue)
    | none =>
      let (overflow, newValue) ← storeValueIn self.overflow value self.inlineThreshold
      let slots ← robinHoodInsert self.slots
        { hash := hash, key := key, value := newValue, expireAtMs := expireAtMs
          surrogate := surrogate }
      let inserted : KvHashTable :=
        { self with
          slots := slots
          overflow := overflow
          surrogateToKey := self.surrogateToKey.insert surrogate key
          len := self.len + 1 }
      some (inserted.maybeStartRehash runtime, none)

def rewrite (self : KvHashTable) (key value : Bytes) (expireAtMs : Nat) :
    Option (KvHashTable × Option Bytes) :=
  match self.find runtime key with
  | none => some (self, none)
  | some entry => self.put runtime key value expireAtMs entry.surrogate

def removeIf (self : KvHashTable) (key : Bytes) (check : KvEntry → Bool) :
    Option (KvHashTable × Bool) := do
  let hash := runtime.hashKey key
  let found (slots : Slots) : Option (Nat × KvEntry) := do
    let idx ← probeFindIndex slots hash key
    let entry ← peek slots idx
    if check entry then some (idx, entry) else none
  match found self.slots with
  | some (idx, entry) =>
    let overflow ← freeValueFrom entry.value self.overflow
    let slots ← repairAfterDelete (self.slots.set idx none) idx
    some ({ self with
            slots := slots
            overflow := overflow
            surrogateToKey := self.surrogateToKey.erase entry.surrogate
            len := self.len - 1 }, true)
  | none =>
    match self.rehashSource.bind fun old => (found old).map fun place => (old, place) with
    | some (old, idx, entry) =>
      let overflow ← freeValueFrom entry.value self.overflow
      let old ← repairAfterDelete (old.set idx none) idx
      some ({ self with
              rehashSource := some old
              overflow := overflow
              surrogateToKey := self.surrogateToKey.erase entry.surrogate
              len := self.len - 1 }, true)
    | none => some (self, false)

def delete (self : KvHashTable) (key : Bytes) : Option (KvHashTable × Bool) :=
  self.removeIf runtime key fun _ => true

def reapExpired (self : KvHashTable) (key : Bytes) (expectedExpireMs : Nat) :
    Option (KvHashTable × Bool) :=
  self.removeIf runtime key fun entry => entry.expireAtMs = expectedExpireMs

def setExpire (self : KvHashTable) (key : Bytes) (expireAtMs : Nat) : KvHashTable × Bool :=
  let hash := runtime.hashKey key
  let expiring (slots : Slots) (idx : Nat) : Slots :=
    slots.set idx ((peek slots idx).map fun entry => { entry with expireAtMs := expireAtMs })
  match probeFindIndex self.slots hash key with
  | some idx => ({ self with slots := expiring self.slots idx }, true)
  | none =>
    match self.rehashSource.bind fun old => (probeFindIndex old hash key).map fun idx =>
        (old, idx) with
    | some (old, idx) => ({ self with rehashSource := some (expiring old idx) }, true)
    | none => (self, false)

def persist (self : KvHashTable) (key : Bytes) : KvHashTable × Bool :=
  self.setExpire runtime key noExpiry

end Api

end KvHashTable

end NodeDB.Kv
