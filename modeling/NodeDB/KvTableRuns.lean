import NodeDB.KvTableMap

/-!
# Runs of the table

The calls of a run are made on a table and on a map of rows.  If no put of the
run empties old slots in front of an entry that is out of its own slot, both
give the same answers and hold the same rows after every call.
-/

namespace NodeDB.Kv

open Std KeyedFold StepRuns

inductive TableCall where
  | put (key value : Bytes) (expireAtMs surrogate : Nat)
  | rewrite (key value : Bytes) (expireAtMs : Nat)
  | delete (key : Bytes)
  | setExpire (key : Bytes) (expireAtMs : Nat)
  | persist (key : Bytes)
  | reapExpired (key : Bytes) (expectedExpireMs : Nat)
  deriving DecidableEq

inductive TableAnswer where
  | replaced (value : Option Bytes)
  | found (found : Bool)
  deriving DecidableEq

def KvHashTable.perform (runtime : TableRuntime) (table : KvHashTable) :
    TableCall → Option (KvHashTable × TableAnswer)
  | .put key value expireAtMs surrogate =>
    (table.put runtime key value expireAtMs surrogate).map (·.map id .replaced)
  | .rewrite key value expireAtMs =>
    (table.rewrite runtime key value expireAtMs).map (·.map id .replaced)
  | .delete key => (table.delete runtime key).map (·.map id .found)
  | .setExpire key expireAtMs => some ((table.setExpire runtime key expireAtMs).map id .found)
  | .persist key => some ((table.persist runtime key).map id .found)
  | .reapExpired key expectedExpireMs =>
    (table.reapExpired runtime key expectedExpireMs).map (·.map id .found)

def KvHashTable.run (runtime : TableRuntime) (table : KvHashTable) :
    List TableCall → Option (KvHashTable × List TableAnswer)
  | [] => some (table, [])
  | call :: calls => do
    let (table, answer) ← table.perform runtime call
    let (table, answers) ← table.run runtime calls
    some (table, answer :: answers)

/-! ## The map -/

def Rows.perform (rows : Rows) : TableCall → Rows × TableAnswer
  | .put key value expireAtMs surrogate =>
    (Rows.put rows key value expireAtMs surrogate, .replaced ((rows[key]?).map (·.value)))
  | .rewrite key value expireAtMs =>
    (Rows.rewrite rows key value expireAtMs, .replaced ((rows[key]?).map (·.value)))
  | .delete key => (rows.erase key, .found (rows[key]?).isSome)
  | .setExpire key expireAtMs => (Rows.setExpire rows key expireAtMs, .found (rows[key]?).isSome)
  | .persist key => (Rows.setExpire rows key noExpiry, .found (rows[key]?).isSome)
  | .reapExpired key expectedExpireMs =>
    let due := (rows[key]?).any fun row => row.expireAtMs = expectedExpireMs
    (if due then rows.erase key else rows, .found due)

def Rows.run (rows : Rows) : List TableCall → Rows × List TableAnswer
  | [] => (rows, [])
  | call :: calls =>
    let (rows, answer) := Rows.perform rows call
    let (rows, answers) := Rows.run rows calls
    (rows, answer :: answers)

/-! ## Calls and runs -/

def CallAllowed (runtime : TableRuntime) (table : KvHashTable) : TableCall → Prop
  | .put key value _ surrogate => PutAllowed runtime table key value surrogate
  | .rewrite key value _ => ∀ entry, table.find runtime key = some entry →
      PutAllowed runtime table key value entry.surrogate
  | _ => True

def RunAllowed (runtime : TableRuntime) (table : KvHashTable) : List TableCall → Prop
  | [] => True
  | call :: calls => CallAllowed runtime table call ∧
      ∀ next answer, table.perform runtime call = some (next, answer) →
        RunAllowed runtime next calls

instance (runtime : TableRuntime) (table : KvHashTable) (call : TableCall) :
    Decidable (CallAllowed runtime table call) := by
  cases call <;> dsimp only [CallAllowed] <;> infer_instance

instance RunAllowed.decidable (runtime : TableRuntime) :
    (table : KvHashTable) → (calls : List TableCall) → Decidable (RunAllowed runtime table calls)
  | _, [] => isTrue trivial
  | table, call :: calls =>
    have : ∀ next, Decidable (RunAllowed runtime next calls) :=
      fun next => RunAllowed.decidable runtime next calls
    decidable_of_iff (CallAllowed runtime table call ∧
        ∀ result, table.perform runtime call = some result → RunAllowed runtime result.1 calls)
      ⟨fun h => ⟨h.1, fun next answer hcall => h.2 (next, answer) hcall⟩,
        fun h => ⟨h.1, fun result hcall => h.2 result.1 result.2 hcall⟩⟩

/-- The table has the rows of the map, each key once. -/
structure Agrees (runtime : TableRuntime) (rows : Rows) (table : KvHashTable) : Prop where
  values : ∀ key, table.getIgnoringExpiry runtime key = (rows[key]?).map (·.value)
  once : ∀ key, (table.liveEntries.map (·.key)).count key = if key ∈ rows then 1 else 0
  len : table.len = rows.size
  surrogates : ∀ (key : Bytes) (row : Row), rows[key]? = some row →
    table.keyForSurrogate row.surrogate = some key

section Runs

variable {runtime : TableRuntime} {rows : Rows} {table : KvHashTable}

theorem Represents.agrees (h : Represents runtime 0 rows table) : Agrees runtime rows table where
  values _ := h.getIgnoringExpiry
  once key := by
    have hmem : key ∈ table.liveEntries.map (·.key) ↔ key ∈ rows := by
      refine ⟨fun hkey => ?_, h.contents.live key⟩
      obtain ⟨entry, hentry, rfl⟩ := List.mem_map.mp hkey
      obtain ⟨row, hrow, _⟩ := h.contents.shown entry hentry
      exact (mem_iff_exists _ _).mpr ⟨row, hrow⟩
    split_ifs with hkey
    · exact List.count_eq_one_of_mem h.contents.keys (hmem.mpr hkey)
    · exact List.count_eq_zero_of_not_mem fun hheld => hkey (hmem.mp hheld)
  len := h.len.trans h.contents.size.symm
  surrogates _ _ hrow := h.keyForSurrogate hrow

theorem Represents.perform (hbelow : runtime.BelowOne) (h : Represents runtime 0 rows table)
    {call : TableCall} (hallowed : CallAllowed runtime table call) :
    ∃ next, table.perform runtime call = some (next, (Rows.perform rows call).2) ∧
      Represents runtime 0 (Rows.perform rows call).1 next := by
  cases call with
  | put key value expireAtMs surrogate =>
    obtain ⟨next, hput, hnext⟩ := h.put expireAtMs hbelow hallowed
    exact ⟨next, congrArg (Option.map _) hput, hnext⟩
  | rewrite key value expireAtMs =>
    obtain ⟨next, hrewrite, hnext⟩ := h.rewrite expireAtMs hbelow hallowed
    exact ⟨next, congrArg (Option.map _) hrewrite, hnext⟩
  | delete key =>
    obtain ⟨next, hdelete, hnext⟩ := h.delete
    exact ⟨next, congrArg (Option.map _) hdelete, hnext⟩
  | setExpire key expireAtMs | persist key =>
    obtain ⟨hfound, hnext⟩ := h.setExpire
    exact ⟨_, congrArg (fun found => some (_, TableAnswer.found found)) hfound, hnext⟩
  | reapExpired key expectedExpireMs =>
    obtain ⟨next, hreap, hnext⟩ := h.reapExpired expectedExpireMs
    exact ⟨next, congrArg (Option.map _) hreap, hnext⟩

theorem Represents.run (hbelow : runtime.BelowOne) {calls : List TableCall}
    (h : Represents runtime 0 rows table) (hallowed : RunAllowed runtime table calls) :
    ∃ last, table.run runtime calls = some (last, (Rows.run rows calls).2) ∧
      Represents runtime 0 (Rows.run rows calls).1 last := by
  induction calls generalizing rows table with
  | nil => exact ⟨table, rfl, h⟩
  | cons call calls ih =>
    obtain ⟨next, hcall, hnext⟩ := h.perform hbelow hallowed.1
    obtain ⟨last, hrest, hlast⟩ := ih hnext (hallowed.2 next _ hcall)
    exact ⟨last, by simp [KvHashTable.run, hcall, hrest, Rows.run], hlast⟩

end Runs

def puts (keys : List UInt8) : List TableCall :=
  keys.mapIdx fun i key => .put [key] [key] noExpiry (i + 1)

/-- The run has a result, with the answers of the map, and the table it ends with agrees with the
map. -/
theorem table_is_map (runtime : TableRuntime) (hbelow : runtime.BelowOne)
    (capacity rehashBatchSize inlineThreshold : Nat) (hbatch : 0 < rehashBatchSize)
    (calls : List TableCall)
    (hallowed : RunAllowed runtime (.new capacity rehashBatchSize inlineThreshold) calls) :
    ∃ table, (KvHashTable.new capacity rehashBatchSize inlineThreshold).run runtime calls =
        some (table, (Rows.run ∅ calls).2) ∧
      Agrees runtime (Rows.run ∅ calls).1 table := by
  obtain ⟨table, hrun, htable⟩ := (represents_new inlineThreshold hbatch).run hbelow hallowed
  exact ⟨table, hrun, htable.agrees⟩

/-- Keys that are all in their own slots, through a rehash with a removal and an overwrite. -/
theorem table_is_map_spread : ∃ table, (KvHashTable.new 4 1 64).run engineRuntime
      (puts [0, 1, 2, 3, 4] ++ [.delete [1], .rewrite [3] [7] 9, .persist [3]]) =
        some (table, (Rows.run ∅ (puts [0, 1, 2, 3, 4] ++
          [.delete [1], .rewrite [3] [7] 9, .persist [3]])).2) ∧
      Agrees engineRuntime (Rows.run ∅ (puts [0, 1, 2, 3, 4] ++
        [.delete [1], .rewrite [3] [7] 9, .persist [3]])).1 table :=
  table_is_map engineRuntime
    (fun len capacity hpos hfull => decide_eq_true (by
      show 4 * len > 3 * capacity
      omega)) 4 1 64 Nat.one_pos _ (by decide +kernel)

/-- Four keys of one slot start a rehash.  The fifth put moves the first of them, and the search for
the second ends at the slot that is now empty. -/
theorem second_key_lost :
    ¬∃ table, (KvHashTable.new 4 1 64).run engineRuntime (puts [0, 4, 8, 12, 1]) =
        some (table, (Rows.run ∅ (puts [0, 4, 8, 12, 1])).2) ∧
      Agrees engineRuntime (Rows.run ∅ (puts [0, 4, 8, 12, 1])).1 table := by
  rintro ⟨table, hrun, hagrees⟩
  have hlost : (((KvHashTable.new 4 1 64).run engineRuntime (puts [0, 4, 8, 12, 1])).map
      fun result => result.1.getIgnoringExpiry engineRuntime [4]) = some none := by
    decide +kernel
  have hheld : ((Rows.run ∅ (puts [0, 4, 8, 12, 1])).1[([4] : Bytes)]?).map (·.value) =
      some [4] := by
    decide +kernel
  rw [hrun, Option.map_some, hagrees.values, hheld] at hlost
  exact nomatch hlost

/-- Through every rehash a read finds a row until it expires, and the slabs hold the values that
live entries name and no others, each for one entry. -/
theorem table_reads_and_slabs (runtime : TableRuntime) (hbelow : runtime.BelowOne)
    (capacity rehashBatchSize inlineThreshold : Nat) (hbatch : 0 < rehashBatchSize)
    (calls : List TableCall)
    (hallowed : RunAllowed runtime (.new capacity rehashBatchSize inlineThreshold) calls) :
    ∃ table, (KvHashTable.new capacity rehashBatchSize inlineThreshold).run runtime calls =
        some (table, (Rows.run ∅ calls).2) ∧
      (∀ (key : Bytes) nowMs, table.get runtime key nowMs = (((Rows.run ∅ calls).1[key]?).filter
        fun row => !row.isExpired nowMs).map (·.value)) ∧
      (∀ key : Bytes, table.getEntryMeta runtime key = ((Rows.run ∅ calls).1[key]?).map
        fun row => ⟨decide (row.expireAtMs ≠ noExpiry), row.expireAtMs⟩) ∧
      (table.liveEntries.filterMap (·.place)).Nodup ∧
      ∀ place, table.overflow.Owns place ↔ place ∈ table.liveEntries.filterMap (·.place) := by
  obtain ⟨table, hrun, htable⟩ := (represents_new inlineThreshold hbatch).run hbelow hallowed
  exact ⟨table, hrun, fun _ _ => htable.get, fun _ => htable.getEntryMeta,
    htable.contents.places, htable.contents.owns⟩

/-- One value expires at 9 and one is deleted in a rehash. -/
theorem table_reads_and_slabs_expired :
    let calls := puts [0, 1, 2, 3, 4] ++ [.delete [1], .rewrite [3] [7] 9]
    ∃ table, (KvHashTable.new 4 1 0).run engineRuntime calls =
        some (table, (Rows.run ∅ calls).2) ∧ table.get engineRuntime [3] 9 = none := by
  obtain ⟨table, hrun, hget, -⟩ := table_reads_and_slabs engineRuntime
    (fun len capacity hpos hfull => decide_eq_true (by
      show 4 * len > 3 * capacity
      omega)) 4 1 0 Nat.one_pos (puts [0, 1, 2, 3, 4] ++ [.delete [1], .rewrite [3] [7] 9])
    (by decide +kernel)
  exact ⟨table, hrun, (hget [3] 9).trans (by decide +kernel)⟩

end NodeDB.Kv
