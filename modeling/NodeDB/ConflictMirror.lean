import NodeDB.KeyedFold
import NodeDB.KeySets

/-!
# The validator's conflicts and the scheduler's locks

The validator orders a reader before a writer when two of their flattened
keys conflict.  The schedulers order them when, on some vshard, their lock
requests name one lock key in incompatible modes.  Both relations are compared
here over whole read and write sets.
-/

namespace NodeDB.Calvin

open Std List EngineKeySet LockMode

/-! ## The requests of one side on one vshard -/

/-- An array locks its collection key only on the vshards it names. -/
def EngineKeySet.contributes (vshard : UInt32) : EngineKeySet → Bool
  | array _ vshards => decide (vshard ∈ vshards)
  | _ => true

def lockRequest (set : ReadWriteSet) (access : Access) (vshard : UInt32) :
    LockRequest LockKey :=
  (set.filter (EngineKeySet.contributes vshard)).foldl
    (fun keys keySet => addKeySet keys keySet access) ∅

/-- On some vshard the requests name one lock key in incompatible modes. -/
def LocksConflict (reads writes : ReadWriteSet) : Prop :=
  ∃ (vshard : UInt32) (key : LockKey) (taken asked : LockMode),
    (lockRequest reads .read vshard)[key]? = some taken ∧
      (lockRequest writes .write vshard)[key]? = some asked ∧
        taken.compatible asked = false

def Access.Uses (access : Access) (mode : LockMode) : Prop :=
  mode = access.rowMode ∨ mode = access.announceMode

/-- Each key of a key set with the mode asked for it, in request order. -/
def EngineKeySet.asks (access : Access) (set : EngineKeySet) : List (LockKey × LockMode) :=
  if set.locksWhole then
    [(.collection set.name, access.rowMode)]
  else
    set.rowLocks.map (·, access.rowMode) ++ [(.collection set.name, access.announceMode)]

theorem addKeySet_eq_foldl (keys : LockRequest LockKey) (set : EngineKeySet) (access : Access) :
    addKeySet keys set access =
      (set.asks access).foldl (fun keys item => request keys item.1 item.2) keys := by
  unfold addKeySet asks
  split <;> simp [foldl_map]

theorem lockRequest_eq_foldl (set : ReadWriteSet) (access : Access) (vshard : UInt32) :
    lockRequest set access vshard =
      ((set.filter (EngineKeySet.contributes vshard)).flatMap
        (EngineKeySet.asks access)).foldl
          (fun keys item => request keys item.1 item.2) ∅ := by
  simp only [lockRequest, foldl_flatMap, addKeySet_eq_foldl]

variable {access : Access} {set : EngineKeySet} {key : LockKey} {mode held : LockMode}
  {keys : LockRequest LockKey} {vshard : UInt32} {read write : EngineKeySet} {r w : FlatKey}

theorem mem_asks_iff :
    (key, mode) ∈ set.asks access ↔
      (key ∈ set.rowLocks ∧ mode = access.rowMode) ∨
        (key = .collection set.name ∧
          mode = if set.locksWhole then access.rowMode else access.announceMode) := by
  unfold asks
  cases hwhole : set.locksWhole with
  | false => simp [and_comm, eq_comm]
  | true =>
    have hrows : set.rowLocks = [] := by
      cases set <;> first | rfl | cases hwhole
    simp [hrows]

theorem rowLocks_ne_collection
    (hmem : key ∈ set.rowLocks) {coll : String} : key ≠ .collection coll := by
  cases set <;> simp only [rowLocks, mem_map, not_mem_nil] at hmem <;>
    obtain ⟨row, -, rfl⟩ := hmem <;> simp

theorem uses_of_mem_asks (hmem : (key, mode) ∈ set.asks access) : access.Uses mode := by
  obtain ⟨-, rfl⟩ | ⟨-, rfl⟩ := mem_asks_iff.mp hmem
  · exact .inl rfl
  · split
    · exact .inl rfl
    · exact .inr rfl

theorem getElem?_request (keys : LockRequest LockKey) (key other : LockKey) (mode : LockMode) :
    (request keys key mode)[other]? =
      if key = other then
        some (keys[key]?.elim mode (·.merge mode))
      else
        keys[other]? := by
  unfold request
  rw [TreeMap.getElem?_alter]
  simp only [LawfulEqOrd.compare_eq_iff_eq]

theorem Access.Uses.merge (hheld : access.Uses held) (hmode : access.Uses mode) :
    held.merge mode = held ∨ held.merge mode = mode := by
  cases access <;> obtain rfl | rfl := hheld <;> obtain rfl | rfl := hmode <;> decide

variable {items : List (LockKey × LockMode)} {keySet : EngineKeySet}

theorem mem_of_getElem?_requests (access : Access) (huses : ∀ item ∈ items, access.Uses item.2)
    (hkeys : ∀ (key : LockKey) (mode : LockMode), keys[key]? = some mode → access.Uses mode)
    (hmode : (items.foldl (fun keys item => request keys item.1 item.2) keys)[key]? =
      some mode) : (key, mode) ∈ items ∨ keys[key]? = some mode := by
  induction items generalizing keys with
  | nil => exact .inr hmode
  | cons item rest ih =>
    obtain ⟨asked, askedMode⟩ := item
    have hasked : access.Uses askedMode := huses _ mem_cons_self
    have hstep : ∀ (key : LockKey) (mode : LockMode),
        (request keys asked askedMode)[key]? = some mode →
          (key, mode) = (asked, askedMode) ∨ keys[key]? = some mode := by
      intro key mode hmode
      rw [getElem?_request] at hmode
      split_ifs at hmode with heq
      · cases hheld : keys[asked]? with
        | none => simp_all
        | some held =>
          obtain hmerge | hmerge := (hkeys _ _ hheld).merge hasked <;> simp_all
      · exact .inr hmode
    have hrest := ih (fun item hitem => huses item (mem_cons_of_mem _ hitem))
      (fun key mode hmode => by
        obtain heq | hold := hstep key mode hmode
        · rw [Prod.mk.injEq] at heq
          exact heq.2 ▸ hasked
        · exact hkeys key mode hold)
      (by simpa using hmode)
    obtain hmem | hfirst := hrest
    · exact .inl (mem_cons_of_mem _ hmem)
    · obtain heq | hold := hstep key mode hfirst
      · exact .inl (heq ▸ mem_cons_self)
      · exact .inr hold

theorem request_covers (key : LockKey) (mode : LockMode)
    {other : LockKey} (hheld : keys[other]? = some held) :
    ∃ merged, (request keys key mode)[other]? = some merged ∧ merged.Covers held := by
  rw [getElem?_request]
  split_ifs with heq
  · subst heq
    rw [hheld]
    exact ⟨_, rfl, merge_covers_left held mode⟩
  · exact ⟨held, hheld, covers_refl held⟩

theorem request_covers_self (keys : LockRequest LockKey) (key : LockKey) (mode : LockMode) :
    ∃ merged, (request keys key mode)[key]? = some merged ∧ merged.Covers mode := by
  rw [getElem?_request, if_pos rfl]
  cases keys[key]? with
  | none => exact ⟨mode, rfl, covers_refl mode⟩
  | some held => exact ⟨_, rfl, merge_covers_right held mode⟩

theorem requests_cover_held (items : List (LockKey × LockMode)) (hheld : keys[key]? = some held) :
    ∃ merged, (items.foldl (fun keys item => request keys item.1 item.2) keys)[key]? =
      some merged ∧ merged.Covers held := by
  induction items generalizing keys held with
  | nil => exact ⟨held, hheld, covers_refl held⟩
  | cons item rest ih =>
    obtain ⟨first, hfirst, hcovers⟩ := request_covers item.1 item.2 hheld
    obtain ⟨merged, hmerged, hcovers'⟩ := ih hfirst
    exact ⟨merged, hmerged, hcovers'.trans hcovers⟩

theorem requests_cover_asked (keys : LockRequest LockKey) (hmem : (key, mode) ∈ items) :
    ∃ merged, (items.foldl (fun keys item => request keys item.1 item.2) keys)[key]? =
      some merged ∧ merged.Covers mode := by
  obtain ⟨before, after, rfl⟩ := append_of_mem hmem
  rw [foldl_append, foldl_cons]
  obtain ⟨first, hfirst, hcovers⟩ := request_covers_self
    (before.foldl (fun keys item => request keys item.1 item.2) keys) key mode
  obtain ⟨merged, hmerged, hcovers'⟩ := requests_cover_held after hfirst
  exact ⟨merged, hmerged, hcovers'.trans hcovers⟩

/-! ## Lock conflicts by single key sets -/

/-- Two key sets, one read and one written, ask for one key in incompatible
modes. -/
def EngineKeySet.Clash (read write : EngineKeySet) : Prop :=
  ∃ (key : LockKey) (taken asked : LockMode), (key, taken) ∈ read.asks .read ∧
    (key, asked) ∈ write.asks .write ∧ taken.compatible asked = false

theorem LockMode.incompatible_of_covers {a b a' b' : LockMode} (ha : a'.Covers a)
    (hb : b'.Covers b) (hab : a.compatible b = false) : a'.compatible b' = false := by
  revert ha hb hab
  cases a <;> cases b <;> cases a' <;> cases b' <;> decide

theorem mem_of_lockRequest {set : ReadWriteSet}
    (hmode : (lockRequest set access vshard)[key]? = some mode) :
    ∃ keySet ∈ set, keySet.contributes vshard = true ∧ (key, mode) ∈ keySet.asks access := by
  rw [lockRequest_eq_foldl] at hmode
  have hmem := mem_of_getElem?_requests access ?_ ?_ hmode
  · obtain hmem | hempty := hmem
    · obtain ⟨keySet, hset, hasks⟩ := mem_flatMap.mp hmem
      exact ⟨keySet, mem_of_mem_filter hset, (mem_filter.mp hset).2, hasks⟩
    · simp at hempty
  · intro item hitem
    obtain ⟨keySet, -, hasks⟩ := mem_flatMap.mp hitem
    exact uses_of_mem_asks hasks
  · intro key mode hempty
    simp at hempty

theorem lockRequest_covers {set : ReadWriteSet} (hset : keySet ∈ set)
    (hon : keySet.contributes vshard = true) (hasks : (key, mode) ∈ keySet.asks access) :
    ∃ merged, (lockRequest set access vshard)[key]? = some merged ∧ merged.Covers mode := by
  rw [lockRequest_eq_foldl]
  apply requests_cover_asked
  exact mem_flatMap.mpr ⟨keySet, mem_filter.mpr ⟨hset, hon⟩, hasks⟩

theorem locksConflict_iff (reads writes : ReadWriteSet) :
    LocksConflict reads writes ↔
      ∃ read ∈ reads, ∃ write ∈ writes, read.Clash write ∧
        ∃ vshard, read.contributes vshard = true ∧ write.contributes vshard = true := by
  constructor
  · rintro ⟨vshard, key, taken, asked, htaken, hasked, hclash⟩
    obtain ⟨read, hread, honRead, hreadAsks⟩ := mem_of_lockRequest htaken
    obtain ⟨write, hwrite, honWrite, hwriteAsks⟩ := mem_of_lockRequest hasked
    exact ⟨read, hread, write, hwrite, ⟨key, taken, asked, hreadAsks, hwriteAsks, hclash⟩,
      vshard, honRead, honWrite⟩
  · rintro ⟨read, hread, write, hwrite, ⟨key, taken, asked, hreadAsks, hwriteAsks, hclash⟩,
      vshard, honRead, honWrite⟩
    obtain ⟨taken', htaken, hcoversRead⟩ := lockRequest_covers hread honRead hreadAsks
    obtain ⟨asked', hasked, hcoversWrite⟩ := lockRequest_covers hwrite honWrite hwriteAsks
    exact ⟨vshard, key, taken', asked', htaken, hasked,
      incompatible_of_covers hcoversRead hcoversWrite hclash⟩

/-! ## How two key sets meet -/

/-- The lists have an element in common. -/
def overlap {α : Type} [DecidableEq α] (one other : List α) : Bool := one.any (· ∈ other)

@[simp]
theorem overlap_iff {α : Type} [DecidableEq α] {one other : List α} :
    overlap one other = true ↔ ∃ key ∈ one, key ∈ other := by
  simp [overlap]

namespace EngineKeySet

def isArray : EngineKeySet → Bool
  | array _ _ => true
  | _ => false

/-- The key set names a row, a key, a vshard or its whole collection. -/
def namesAny : EngineKeySet → Bool
  | document _ rows => rows ≠ []
  | vector _ rows => rows ≠ []
  | kv _ keys => keys ≠ []
  | edge _ edges _ => edges ≠ []
  | array _ vshards => vshards ≠ []
  | collection _ _ => true
  | unique _ _ values => values ≠ []

/-- The key sets are of one kind and name one row, key, vshard or collection. -/
def sharesKey : EngineKeySet → EngineKeySet → Bool
  | document coll rows, document coll' rows' => coll = coll' ∧ overlap rows rows'
  | vector coll rows, vector coll' rows' => coll = coll' ∧ overlap rows rows'
  | kv coll keys, kv coll' keys' => coll = coll' ∧ overlap keys keys'
  | edge coll edges _, edge coll' edges' _ => coll = coll' ∧ overlap edges edges'
  | array coll vshards, array coll' vshards' =>
    coll = coll' ∧ overlap vshards vshards'
  | collection coll _, collection coll' _ => coll = coll'
  | unique coll index values, unique coll' index' values' =>
    coll = coll' ∧ index = index' ∧ overlap values values'
  | _, _ => false

/-- One of the key sets covers the collection in which the other names
something.  Two arrays meet by their vshards only. -/
def coversKey (read write : EngineKeySet) : Bool :=
  read.name = write.name ∧ (read.locksWhole ∨ write.locksWhole) ∧
    ¬(read.isArray ∧ write.isArray) ∧ read.namesAny ∧ write.namesAny

/-- The key sets name one row of one collection, one as a document and the
other as a vector. -/
def crossesEngines : EngineKeySet → EngineKeySet → Bool
  | document coll rows, vector coll' rows' => coll = coll' ∧ overlap rows rows'
  | vector coll rows, document coll' rows' => coll = coll' ∧ overlap rows rows'
  | _, _ => false

/-- The first key set covers a collection of which the other names no row. -/
def coversNothing (whole rows : EngineKeySet) : Bool :=
  whole.name = rows.name ∧ whole.locksWhole ∧ whole.namesAny ∧ ¬rows.locksWhole ∧ ¬rows.namesAny

/-- The key sets name values of two indexes of one collection, and an index
name holds the byte that ends it, so that both give the same bytes. -/
def mixesIndexes : EngineKeySet → EngineKeySet → Bool
  | unique coll index values, unique coll' index' values' =>
    coll = coll' ∧ index ≠ index' ∧ ∃ value ∈ values, ∃ value' ∈ values',
      stringBytes index ++ 0 :: value = stringBytes index' ++ 0 :: value'
  | _, _ => false

/-- Both expansions of the key sets meet. -/
def Meets (read write : EngineKeySet) : Prop :=
  read.sharesKey write = true ∨ read.coversKey write = true

/-- Only the locks of the key sets meet. -/
def MeetsByLocks (read write : EngineKeySet) : Prop :=
  read.crossesEngines write = true ∨ read.coversNothing write = true ∨
    write.coversNothing read = true

end EngineKeySet

/-! ## Conflicts by single key sets -/

theorem mem_flatten {key : FlatKey} (hmem : key ∈ set.flatten) :
    key.collection = set.name ∧ (key.scope = .collection ↔ set.locksWhole = true) ∧
      (key.discriminant = FlatKey.arrayTag ↔ set.isArray = true) := by
  cases set <;> simp only [EngineKeySet.flatten, flatKeys, mem_map] at hmem <;>
    obtain ⟨bytes, -, rfl⟩ := hmem <;>
    simp [name, locksWhole, isArray, FlatKey.arrayTag]

theorem flatten_ne_nil_iff : set.flatten ≠ [] ↔ set.namesAny = true := by
  cases set <;> simp [EngineKeySet.flatten, flatKeys, namesAny]

theorem locksWhole_of_isArray (set : EngineKeySet) (h : set.isArray = true) :
    set.locksWhole = true := by
  cases set <;> first | rfl | cases h

theorem leBytes_injective : Function.Injective leBytes := by
  intro a b h
  simp only [leBytes, List.cons.injEq, ← UInt8.toNat_inj, UInt8.toNat_ofNat'] at h
  apply UInt32.toNat_inj.mp
  have ha := a.toNat_lt
  have hb := b.toNat_lt
  omega

theorem leBytes_append_injective :
    Function.Injective fun edge : UInt32 × UInt32 => leBytes edge.1 ++ leBytes edge.2 := by
  intro a b h
  obtain ⟨hfirst, hsecond⟩ := append_inj h rfl
  exact Prod.ext (leBytes_injective hfirst) (leBytes_injective hsecond)

theorem mem_map_both_iff {α : Type} {encode : α → List UInt8} (hencode : encode.Injective)
    (items others : List α) : (∃ bytes ∈ items.map encode, bytes ∈ others.map encode) ↔
      ∃ item ∈ items, item ∈ others := by
  constructor
  · rintro ⟨_, hbytes, hother⟩
    obtain ⟨item, hitem, rfl⟩ := mem_map.mp hbytes
    exact ⟨item, hitem, (mem_map_of_injective hencode).mp hother⟩
  · rintro ⟨item, hitem, hother⟩
    exact ⟨_, mem_map_of_mem hitem, mem_map_of_mem hother⟩

theorem keyId_flatKeys_iff {first second : Nat} {engineName engineName' coll coll' : String}
    {scope scope' : KeyScope} {keys keys' : List (List UInt8)} :
    (∃ r ∈ flatKeys first engineName coll scope keys,
      ∃ w ∈ flatKeys second engineName' coll' scope' keys', r.keyId = w.keyId) ↔
      first = second ∧ coll = coll' ∧ ∃ bytes ∈ keys, bytes ∈ keys' := by
  constructor
  · rintro ⟨r, hr, w, hw, hid⟩
    obtain ⟨bytes, hbytes, rfl⟩ := mem_map.mp hr
    obtain ⟨other, hother, rfl⟩ := mem_map.mp hw
    obtain ⟨rfl, rfl, rfl⟩ := KeyId.mk.inj hid
    exact ⟨rfl, rfl, bytes, hbytes, hother⟩
  · rintro ⟨rfl, rfl, bytes, hbytes, hother⟩
    exact ⟨_, mem_map_of_mem hbytes, _, mem_map_of_mem hother, rfl⟩

/-- Two values of one index give the same bytes exactly if they are equal. -/
theorem index_bytes_iff {index index' : String} {values values' : List (List UInt8)} :
    (∃ bytes ∈ values.map (stringBytes index ++ 0 :: ·),
      bytes ∈ values'.map (stringBytes index' ++ 0 :: ·)) ↔
      (index = index' ∧ ∃ value ∈ values, value ∈ values') ∨
        index ≠ index' ∧ ∃ value ∈ values, ∃ value' ∈ values',
          stringBytes index ++ 0 :: value = stringBytes index' ++ 0 :: value' := by
  by_cases hindex : index = index'
  · subst hindex
    have hinjective : Function.Injective (stringBytes index ++ 0 :: ·) := by
      intro a b h
      exact (List.cons.inj (append_cancel_left h)).2
    rw [mem_map_both_iff hinjective]
    simp
  · simp [hindex, eq_comm]

theorem keyId_iff : (∃ r ∈ read.flatten, ∃ w ∈ write.flatten, r.keyId = w.keyId) ↔
    read.sharesKey write = true ∨ read.mixesIndexes write = true := by
  -- the discriminants agree only on key sets of one kind
  cases read <;> cases write <;>
    simp only [EngineKeySet.flatten, keyId_flatKeys_iff, sharesKey, mixesIndexes, overlap_iff,
      FlatKey.arrayTag, Bool.false_eq_true, or_false, reduceCtorEq, false_and, true_and,
      decide_eq_true_eq, mem_map_both_iff leBytes_injective,
      mem_map_both_iff leBytes_append_injective, index_bytes_iff, and_or_left, Nat.reduceEqDiff]
  all_goals simp

theorem keyId_eq_iff : r.keyId = w.keyId ↔ r.collection = w.collection ∧
      (r.discriminant = w.discriminant ∧ r.keyBytes = w.keyBytes) := by
  simp only [FlatKey.keyId, KeyId.mk.injEq]
  exact and_left_comm

theorem conflicts_iff (hread : r ∈ read.flatten) (hwrite : w ∈ write.flatten) :
    r.conflicts w = true ↔ r.keyId = w.keyId ∨
      (read.name = write.name ∧ (read.locksWhole = true ∨ write.locksWhole = true) ∧
        ¬ (read.isArray = true ∧ write.isArray = true)) := by
  obtain ⟨hreadName, hreadScope, hreadArray⟩ := mem_flatten hread
  obtain ⟨hwriteName, hwriteScope, hwriteArray⟩ := mem_flatten hwrite
  rw [keyId_eq_iff, ← hreadName, ← hwriteName, ← hreadScope, ← hwriteScope, ← hreadArray,
    ← hwriteArray]
  unfold FlatKey.conflicts
  split_ifs with hname hid
  · simp [hname]
  · simp [not_not.mp hname, hid]
  · -- a row key is not an array's key
    have hreadWhole := mt (locksWhole_of_isArray read)
    have hwriteWhole := mt (locksWhole_of_isArray write)
    cases hr : r.scope <;> cases hw : w.scope <;>
      simp_all [imp_iff_not_or]

theorem keys_meet_iff : (∃ r ∈ read.flatten, ∃ w ∈ write.flatten, r.conflicts w = true) ↔
    read.Meets write ∨ read.mixesIndexes write = true := by
  constructor
  · rintro ⟨r, hr, w, hw, hconflict⟩
    obtain hid | ⟨hname, hwhole, harrays⟩ := (conflicts_iff hr hw).mp hconflict
    · exact (keyId_iff.mp ⟨r, hr, w, hw, hid⟩).imp_left .inl
    · have hread := flatten_ne_nil_iff.mp (ne_nil_of_mem hr)
      have hwrite := flatten_ne_nil_iff.mp (ne_nil_of_mem hw)
      exact .inl (.inr (decide_eq_true ⟨hname, hwhole, harrays, hread, hwrite⟩))
  · rintro ((hshares | hcovers) | hmixes)
    · obtain ⟨r, hr, w, hw, hid⟩ := keyId_iff.mpr (.inl hshares)
      exact ⟨r, hr, w, hw, (conflicts_iff hr hw).mpr (.inl hid)⟩
    · obtain ⟨hname, hwhole, harrays, hread, hwrite⟩ := of_decide_eq_true hcovers
      obtain ⟨r, hr⟩ := exists_mem_of_ne_nil _ (flatten_ne_nil_iff.mpr hread)
      obtain ⟨w, hw⟩ := exists_mem_of_ne_nil _ (flatten_ne_nil_iff.mpr hwrite)
      exact ⟨r, hr, w, hw, (conflicts_iff hr hw).mpr (.inr ⟨hname, hwhole, harrays⟩)⟩
    · obtain ⟨r, hr, w, hw, hid⟩ := keyId_iff.mpr (.inr hmixes)
      exact ⟨r, hr, w, hw, (conflicts_iff hr hw).mpr (.inl hid)⟩

/-! ## Lock clashes by single key sets -/

theorem clash_iff : read.Clash write ↔ (∃ key ∈ read.rowLocks, key ∈ write.rowLocks) ∨
      (read.name = write.name ∧ (read.locksWhole = true ∨ write.locksWhole = true)) := by
  constructor
  · rintro ⟨key, taken, asked, hread, hwrite, hclash⟩
    obtain ⟨hreadRow, rfl⟩ | ⟨rfl, hreadMode⟩ := mem_asks_iff.mp hread <;>
      obtain ⟨hwriteRow, rfl⟩ | ⟨hkey, hwriteMode⟩ := mem_asks_iff.mp hwrite
    · exact .inl ⟨key, hreadRow, hwriteRow⟩
    · subst hkey
      exact absurd rfl (rowLocks_ne_collection hreadRow)
    · exact absurd rfl (rowLocks_ne_collection hwriteRow)
    · refine .inr ⟨LockKey.collection.inj hkey, ?_⟩
      by_contra hrows
      simp only [not_or, Bool.not_eq_true] at hrows
      rw [hreadMode, hwriteMode, hrows.1, hrows.2] at hclash
      cases hclash
  · rintro (⟨key, hread, hwrite⟩ | ⟨hname, hwhole⟩)
    · exact ⟨key, .shared, .exclusive, mem_asks_iff.mpr (.inl ⟨hread, rfl⟩),
        mem_asks_iff.mpr (.inl ⟨hwrite, rfl⟩), rfl⟩
    · refine ⟨.collection read.name, _, _, mem_asks_iff.mpr (.inr ⟨rfl, rfl⟩),
        mem_asks_iff.mpr (.inr ⟨by rw [hname], rfl⟩), ?_⟩
      cases hread : read.locksWhole <;> cases hwrite : write.locksWhole <;> simp_all <;> rfl

theorem rowLocks_iff : (∃ key ∈ read.rowLocks, key ∈ write.rowLocks) ↔
    (read.sharesKey write = true ∧ read.locksWhole = false) ∨
      read.crossesEngines write = true := by
  cases read <;> cases write <;>
    simp [rowLocks, sharesKey, locksWhole, crossesEngines]
  all_goals grind

theorem contributes_of_not_array (h : set.isArray = false)
    (vshard : UInt32) : set.contributes vshard = true := by
  cases set <;> first | rfl | cases h

theorem namesAny_of_contributes (hwhole : set.locksWhole = true)
    (hon : set.contributes vshard = true) : set.namesAny = true := by
  cases set
  case array coll vshards => exact decide_eq_true (ne_nil_of_mem (of_decide_eq_true hon))
  case collection coll vshards => rfl
  all_goals cases hwhole

theorem exists_contributes (hwhole : set.locksWhole = true) (hnames : set.namesAny = true) :
    ∃ vshard, set.contributes vshard = true := by
  cases set
  case array coll vshards =>
    obtain ⟨vshard, hvshard⟩ := exists_mem_of_ne_nil _ (of_decide_eq_true hnames)
    exact ⟨vshard, decide_eq_true hvshard⟩
  case collection coll vshards => exact ⟨0, rfl⟩
  all_goals cases hwhole

/-- A key set that covers a collection meets every other kind on one of its
vshards. -/
theorem exists_common_vshard (hwhole : read.locksWhole = true) (hread : read.namesAny = true)
    (hwrite : write.locksWhole = true → write.namesAny = true)
    (harrays : ¬ (read.isArray = true ∧ write.isArray = true)) :
    ∃ vshard, read.contributes vshard = true ∧ write.contributes vshard = true := by
  cases harray : write.isArray with
  | false =>
    obtain ⟨vshard, hon⟩ := exists_contributes hwhole hread
    exact ⟨vshard, hon, contributes_of_not_array harray vshard⟩
  | true =>
    have hwriteWhole := locksWhole_of_isArray write harray
    obtain ⟨vshard, hon⟩ := exists_contributes hwriteWhole (hwrite hwriteWhole)
    have hplain : read.isArray = false := by
      rw [← Bool.not_eq_true]
      exact fun h => harrays ⟨h, harray⟩
    exact ⟨vshard, contributes_of_not_array hplain vshard, hon⟩

theorem whole_of_sharesKey (hshares : read.sharesKey write = true)
    (hwhole : read.locksWhole = true) : read.name = write.name ∧
      ∃ vshard, read.contributes vshard = true ∧ write.contributes vshard = true := by
  cases read <;> cases write <;> simp_all [sharesKey, locksWhole, name, contributes]

theorem contributes_of_rowLocks (hmem : key ∈ set.rowLocks) (vshard : UInt32) :
    set.contributes vshard = true := by
  refine contributes_of_not_array ?_ vshard
  cases set <;> first | rfl | cases hmem

theorem locks_meet_of_coversNothing (hcovers : read.coversNothing write = true) :
    read.name = write.name ∧ read.locksWhole = true ∧
      ∃ vshard, read.contributes vshard = true ∧ write.contributes vshard = true := by
  obtain ⟨hname, hwhole, hnames, hrows, -⟩ := of_decide_eq_true hcovers
  refine ⟨hname, hwhole, exists_common_vshard hwhole hnames (fun h => absurd h hrows) ?_⟩
  exact fun h => hrows (locksWhole_of_isArray write h.2)

theorem meets_of_whole (hname : read.name = write.name)
    (hwhole : read.locksWhole = true ∨ write.locksWhole = true)
    (honRead : read.contributes vshard = true) (honWrite : write.contributes vshard = true) :
    read.Meets write ∨ read.MeetsByLocks write := by
  have hreadNames := mt fun h => namesAny_of_contributes h honRead
  have hwriteNames := mt fun h => namesAny_of_contributes h honWrite
  by_cases harrays : read.isArray = true ∧ write.isArray = true
  · -- both arrays are locked on this vshard
    refine .inl (.inl ?_)
    cases read <;> cases write <;> simp_all [isArray, sharesKey, contributes, name]
    exact ⟨vshard, honRead, honWrite⟩
  by_cases hread : read.namesAny = true
  · by_cases hwrite : write.namesAny = true
    · exact .inl (.inr (decide_eq_true ⟨hname, hwhole, harrays, hread, hwrite⟩))
    · have hrows := hwriteNames hwrite
      exact .inr (.inr (.inl (decide_eq_true
        ⟨hname, hwhole.resolve_right hrows, hread, hrows, hwrite⟩)))
  · have hrows := hreadNames hread
    have hwriteWhole := hwhole.resolve_left hrows
    exact .inr (.inr (.inr (decide_eq_true ⟨hname.symm, hwriteWhole,
      namesAny_of_contributes hwriteWhole honWrite, hrows, hread⟩)))

theorem locks_meet_iff : (read.Clash write ∧
      ∃ vshard, read.contributes vshard = true ∧ write.contributes vshard = true) ↔
    read.Meets write ∨ read.MeetsByLocks write := by
  rw [clash_iff]
  constructor
  · rintro ⟨hrows | ⟨hname, hwhole⟩, vshard, honRead, honWrite⟩
    · obtain ⟨hshares, -⟩ | hcrosses := rowLocks_iff.mp hrows
      · exact .inl (.inl hshares)
      · exact .inr (.inl hcrosses)
    · exact meets_of_whole hname hwhole honRead honWrite
  · have hrowsMeet : ∀ {key : LockKey}, key ∈ read.rowLocks → key ∈ write.rowLocks →
        ∃ vshard, read.contributes vshard = true ∧ write.contributes vshard = true :=
      fun hread hwrite => ⟨0, contributes_of_rowLocks hread 0, contributes_of_rowLocks hwrite 0⟩
    rintro ((hshares | hcovers) | hcrosses | hnothing | hnothing)
    · cases hwhole : read.locksWhole with
      | true =>
        obtain ⟨hname, hon⟩ := whole_of_sharesKey hshares hwhole
        exact ⟨.inr ⟨hname, .inl rfl⟩, hon⟩
      | false =>
        obtain ⟨key, hread, hwrite⟩ := rowLocks_iff.mpr (.inl ⟨hshares, hwhole⟩)
        exact ⟨.inl ⟨key, hread, hwrite⟩, hrowsMeet hread hwrite⟩
    · obtain ⟨hname, hwhole, harrays, hread, hwrite⟩ := of_decide_eq_true hcovers
      refine ⟨.inr ⟨hname, hwhole⟩, ?_⟩
      obtain hwhole | hwhole := hwhole
      · exact exists_common_vshard hwhole hread (fun _ => hwrite) harrays
      · obtain ⟨vshard, hon⟩ := exists_common_vshard hwhole hwrite (fun _ => hread)
          fun h => harrays h.symm
        exact ⟨vshard, hon.symm⟩
    · obtain ⟨key, hread, hwrite⟩ := rowLocks_iff.mpr (.inr hcrosses)
      exact ⟨.inl ⟨key, hread, hwrite⟩, hrowsMeet hread hwrite⟩
    · obtain ⟨hname, hwhole, hon⟩ := locks_meet_of_coversNothing hnothing
      exact ⟨.inr ⟨hname, .inl hwhole⟩, hon⟩
    · obtain ⟨hname, hwhole, vshard, hon⟩ := locks_meet_of_coversNothing hnothing
      exact ⟨.inr ⟨hname.symm, .inr hwhole⟩, vshard, hon.symm⟩

/-! ## The two relations over whole sets -/

theorem or_iff_or_left {a b c : Prop} : ((a ∨ b) ↔ (a ∨ c)) ↔ a ∨ (c ↔ b) := by
  tauto

/-- The validator's conflicts mirror the locks exactly when some key sets meet
both ways, or meeting by locks only and meeting by bytes only come
together. -/
theorem keysConflict_mirrors_locks_iff (reads writes : ReadWriteSet) :
    (KeysConflict reads writes ↔ LocksConflict reads writes) ↔
      (∃ read ∈ reads, ∃ write ∈ writes, read.Meets write) ∨
        ((∃ read ∈ reads, ∃ write ∈ writes, read.MeetsByLocks write) ↔
          ∃ read ∈ reads, ∃ write ∈ writes, read.mixesIndexes write = true) := by
  have hkeys : KeysConflict reads writes ↔ ∃ read ∈ reads, ∃ write ∈ writes,
      read.Meets write ∨ read.mixesIndexes write = true := by
    constructor
    · rintro ⟨r, hr, w, hw, hconflict⟩
      obtain ⟨read, hread, hr⟩ := mem_flatMap.mp hr
      obtain ⟨write, hwrite, hw⟩ := mem_flatMap.mp hw
      exact ⟨read, hread, write, hwrite, keys_meet_iff.mp ⟨r, hr, w, hw, hconflict⟩⟩
    · rintro ⟨read, hread, write, hwrite, hmeets⟩
      obtain ⟨r, hr, w, hw, hconflict⟩ := keys_meet_iff.mpr hmeets
      exact ⟨r, mem_flatMap.mpr ⟨read, hread, hr⟩, w, mem_flatMap.mpr ⟨write, hwrite, hw⟩,
        hconflict⟩
  rw [hkeys, locksConflict_iff]
  simp only [locks_meet_iff, and_or_left, exists_or]
  exact or_iff_or_left

/-- A document read and a vector write of one row lock one key but do not
conflict for the validator.  Neither does an empty row set, although its
announcement excludes a collection writer.  An index name with a zero byte
conflicts with another index without sharing a lock. -/
theorem keysConflict_ne_locksConflict :
    (¬ KeysConflict [.document "orders" [1]] [.vector "orders" [1]] ∧
      LocksConflict [.document "orders" [1]] [.vector "orders" [1]]) ∧
    (¬ KeysConflict [.document "orders" []] [.collection "orders" []] ∧
      LocksConflict [.document "orders" []] [.collection "orders" []]) ∧
    (KeysConflict [.unique "orders" "a\x00b" [[7]]] [.unique "orders" "a" [[98, 0, 7]]] ∧
      ¬ LocksConflict [.unique "orders" "a\x00b" [[7]]] [.unique "orders" "a" [[98, 0, 7]]]) := by
  refine ⟨⟨?_, ?_⟩, ⟨?_, ?_⟩, ?_, ?_⟩
  · unfold KeysConflict
    decide
  · exact (locksConflict_iff _ _).mpr ⟨_, mem_cons_self, _, mem_cons_self,
      clash_iff.mpr (.inl ⟨_, mem_cons_self, mem_cons_self⟩), 0, rfl, rfl⟩
  · unfold KeysConflict
    decide
  · exact (locksConflict_iff _ _).mpr ⟨_, mem_cons_self, _, mem_cons_self,
      clash_iff.mpr (.inr ⟨rfl, .inr rfl⟩), 0, rfl, rfl⟩
  · unfold KeysConflict
    decide
  · rw [locksConflict_iff]
    rintro ⟨read, hread, write, hwrite, hclash, -⟩
    obtain rfl := mem_singleton.mp hread
    obtain rfl := mem_singleton.mp hwrite
    revert hclash
    rw [clash_iff]
    decide

end NodeDB.Calvin
