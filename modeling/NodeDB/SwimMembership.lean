import Std.Data.TreeMap
import NodeDB.KeyedFold
import NodeDB.StepRuns

/-!
# The membership table of the failure detector

Each node keeps a record for every node it has heard of and merges rumours
into it: the larger pair of incarnation and state wins, and a node that has
left stays as it is.  A rumour that calls the local node anything but alive is
answered with a higher incarnation.

Two nodes that hear the same rumours in different orders agree exactly when no
rumour is newer than a rumour that the node has left.
-/

namespace NodeDB.Swim

open Std List UInt64

/-! ## Members and rumours -/

inductive MemberState where
  | alive
  | suspect
  | dead
  | left
  deriving DecidableEq, Repr

def MemberState.precedence : MemberState → Nat
  | .alive => 0
  | .suspect => 1
  | .dead => 2
  | .left => 3

abbrev NodeId := String

abbrev Incarnation := UInt64

/-- An incarnation above both, until the counter is at its maximum. -/
def Incarnation.refute (own rumour : Incarnation) : Incarnation :=
  let high := max own rumour
  if high = UInt64.ofNat (2 ^ 64 - 1) then high else high + 1

/-- A stored record.  The instant of the last change is left out. -/
structure Member (α : Type) where
  nodeId : NodeId
  addr : α
  state : MemberState
  incarnation : Incarnation

structure MemberUpdate where
  nodeId : NodeId
  addr : String
  state : MemberState
  incarnation : Incarnation
  deriving DecidableEq, Repr

variable {α : Type}

def Member.rumourKey (member : Member α) : Incarnation × Nat :=
  (member.incarnation, member.state.precedence)

def MemberUpdate.rumourKey (update : MemberUpdate) : Incarnation × Nat :=
  (update.incarnation, update.state.precedence)

def compareKeys (one other : Incarnation × Nat) : Ordering :=
  if one.1 < other.1 then .lt
  else if other.1 < one.1 then .gt
  else compare one.2 other.2

/-! ## Merging a rumour -/

inductive MergeOutcome where
  | insert
  | apply
  | ignore
  | refute
  | selfRefute (newIncarnation : Incarnation)
  | terminalLeft
  deriving DecidableEq, Repr

def mergeUpdate (localNodeId : NodeId) (stored : Option (Member α)) (update : MemberUpdate) :
    MergeOutcome :=
  if update.nodeId = localNodeId ∧ update.state ≠ .alive then
    .selfRefute (Incarnation.refute ((stored.map Member.incarnation).getD 0) update.incarnation)
  else
    match stored with
    | none => .insert
    | some current =>
      if current.state = .left then .terminalLeft
      else
        match compareKeys update.rumourKey current.rumourKey with
        | .gt => .apply
        | .eq => .ignore
        | .lt => .refute

structure MembershipList (α : Type) where
  localNodeId : NodeId
  table : TreeMap NodeId (Member α)

namespace MembershipList

def newLocal (localNodeId : NodeId) (localAddr : α) (initial : Incarnation) : MembershipList α where
  localNodeId := localNodeId
  table := (∅ : TreeMap NodeId (Member α)).insert localNodeId
    { nodeId := localNodeId
      addr := localAddr
      state := .alive
      incarnation := initial }

variable (parseAddr : String → Option α)

/-- Applies a rumour.  A node without a record and without a readable address
is not added. -/
def apply (list : MembershipList α) (update : MemberUpdate) : MembershipList α × MergeOutcome :=
  let parsed := parseAddr update.addr
  let stored := list.table[update.nodeId]?
  let outcome := mergeUpdate list.localNodeId stored update
  match outcome with
  | .insert =>
    match parsed with
    | none => (list, .ignore)
    | some addr =>
      let member : Member α :=
        { nodeId := update.nodeId
          addr := addr
          state := update.state
          incarnation := update.incarnation }
      ({ list with table := list.table.insert update.nodeId member }, outcome)
  | .apply =>
    match stored with
    | none => (list, outcome)
    | some current =>
      let member : Member α :=
        { current with
          state := update.state
          incarnation := update.incarnation
          addr := parsed.getD current.addr }
      ({ list with table := list.table.insert update.nodeId member }, outcome)
  | .selfRefute newIncarnation =>
    match (list.table[list.localNodeId]?.map Member.addr).or parsed with
    | none => (list, outcome)
    | some addr =>
      let member : Member α :=
        { nodeId := list.localNodeId
          addr := addr
          state := .alive
          incarnation := newIncarnation }
      ({ list with table := list.table.insert list.localNodeId member }, outcome)
  | .ignore | .refute | .terminalLeft => (list, outcome)

def applyAll (list : MembershipList α) (updates : List MemberUpdate) : MembershipList α :=
  updates.foldl (fun list update => (list.apply parseAddr update).1) list

/-- What a node believes about another: its state and incarnation. -/
def view (list : MembershipList α) (node : NodeId) : Option (MemberState × Incarnation) :=
  list.table[node]?.map fun member => (member.state, member.incarnation)

end MembershipList

open MembershipList

/-! ## One rumour -/

def hear : Option (MemberState × Incarnation) → MemberUpdate →
    Option (MemberState × Incarnation)
  | none, update => some (update.state, update.incarnation)
  | some (state, incarnation), update =>
    if state = .left then some (state, incarnation)
    else if incarnation < update.incarnation ∨
        incarnation = update.incarnation ∧ state.precedence < update.state.precedence then
      some (update.state, update.incarnation)
    else some (state, incarnation)

theorem compareKeys_eq_gt {one other : Incarnation × Nat} :
    compareKeys one other = .gt ↔ other.1 < one.1 ∨ other.1 = one.1 ∧ other.2 < one.2 := by
  unfold compareKeys
  split_ifs with hlt hgt
  · simp only [false_iff, UInt64.lt_iff_toNat_lt, ← UInt64.toNat_inj] at hlt ⊢
    omega
  · simp [hgt]
  · rw [UInt64.lt_iff_toNat_lt] at hlt hgt
    have heq : other.1 = one.1 := by
      rw [← UInt64.toNat_inj]
      omega
    simp only [heq, UInt64.lt_irrefl, true_and, false_or, Nat.compare_eq_gt]

section Merging

variable (parseAddr : String → Option α)

theorem view_apply (list : MembershipList α) (update : MemberUpdate)
    (hremote : update.nodeId ≠ list.localNodeId) (hparse : (parseAddr update.addr).isSome) :
    (list.apply parseAddr update).1.view update.nodeId = hear (list.view update.nodeId) update := by
  obtain ⟨addr, haddr⟩ := Option.isSome_iff_exists.mp hparse
  rcases hstored : list.table[update.nodeId]? with _ | current
  · simp [apply, mergeUpdate, view, hear, hremote, haddr, hstored]
  · by_cases hleft : current.state = .left
    · simp [apply, mergeUpdate, view, hear, hremote, hstored, hleft]
    · by_cases hgt : compareKeys update.rumourKey current.rumourKey = .gt
      · have hnewer := compareKeys_eq_gt.mp hgt
        simp only [Member.rumourKey, MemberUpdate.rumourKey] at hnewer
        simp [apply, mergeUpdate, view, hear, hremote, hstored, hleft, hgt, hnewer]
      · have hnewer := mt compareKeys_eq_gt.mpr hgt
        simp only [Member.rumourKey, MemberUpdate.rumourKey] at hnewer
        rcases hcmp : compareKeys update.rumourKey current.rumourKey with _ | _ | _
        · simp [apply, mergeUpdate, view, hear, hremote, hstored, hleft, hcmp, hnewer]
        · simp [apply, mergeUpdate, view, hear, hremote, hstored, hleft, hcmp, hnewer]
        · exact absurd hcmp hgt

theorem localNodeId_apply (list : MembershipList α) (update : MemberUpdate) :
    (list.apply parseAddr update).1.localNodeId = list.localNodeId := by
  unfold apply
  dsimp only
  repeat' split
  all_goals rfl

theorem view_applyAll {node : NodeId} {rumours : List MemberUpdate} :
    ∀ list : MembershipList α, node ≠ list.localNodeId →
      (∀ update ∈ rumours, update.nodeId = node) →
      (∀ update ∈ rumours, (parseAddr update.addr).isSome) →
      (list.applyAll parseAddr rumours).view node = rumours.foldl hear (list.view node) := by
  induction rumours with
  | nil => intro list _ _ _; rfl
  | cons update rumours ih =>
    intro list hremote hnode hparse
    have hupdate : update.nodeId = node := hnode update mem_cons_self
    have hhead : (list.apply parseAddr update).1.view node = hear (list.view node) update := by
      rw [← hupdate] at hremote ⊢
      exact view_apply parseAddr list update hremote (hparse update mem_cons_self)
    have htail := ih (list.apply parseAddr update).1
      (by rw [localNodeId_apply]; exact hremote)
      (fun later hlater => hnode later (mem_cons_of_mem _ hlater))
      (fun later hlater => hparse later (mem_cons_of_mem _ hlater))
    rw [foldl_cons, ← hhead]
    exact htail

end Merging

/-! ## Orders of the same rumours -/

def LeavesLast (rumours : List MemberUpdate) : Prop :=
  ∀ leave ∈ rumours, leave.state = .left → ∀ update ∈ rumours,
    update.incarnation ≤ leave.incarnation
  deriving Decidable

theorem hear_left (incarnation : Incarnation) (update : MemberUpdate) :
    hear (some (.left, incarnation)) update = some (.left, incarnation) := by
  simp [hear]

theorem foldl_hear_left (incarnation : Incarnation) (rumours : List MemberUpdate) :
    rumours.foldl hear (some (.left, incarnation)) = some (.left, incarnation) := by
  induction rumours with
  | nil => rfl
  | cons update rumours ih => rw [foldl_cons, hear_left, ih]

theorem MemberState.precedence_lt_left {state : MemberState} (h : state ≠ .left) :
    state.precedence < MemberState.left.precedence := by
  cases state with
  | alive | suspect | dead => decide
  | left => exact absurd rfl h

theorem MemberState.precedence_inj {one other : MemberState}
    (h : one.precedence = other.precedence) : one = other := by
  cases one <;> cases other <;> first | rfl | exact absurd h (by decide)

theorem hear_swap {one other : MemberUpdate}
    (hone : one.state = .left → other.incarnation ≤ one.incarnation)
    (hother : other.state = .left → one.incarnation ≤ other.incarnation)
    (belief : Option (MemberState × Incarnation)) :
    hear (hear belief one) other = hear (hear belief other) one := by
  have hstate := @MemberState.precedence_inj one.state other.state
  have hnumber := @UInt64.toNat_inj one.incarnation other.incarnation
  have hlow := @MemberState.precedence_lt_left one.state
  have hlow' := @MemberState.precedence_lt_left other.state
  rcases belief with _ | ⟨current, number⟩
  · simp only [hear, UInt64.lt_iff_toNat_lt, le_iff_toNat_le] at *
    split_ifs <;> grind
  · by_cases hleft : current = .left
    · subst hleft
      simp only [hear_left]
    · simp only [hear, UInt64.lt_iff_toNat_lt, le_iff_toNat_le, if_neg hleft] at *
      split_ifs <;> grind

theorem foldl_hear_perm {first second : List MemberUpdate} (hperm : first.Perm second)
    (hlast : LeavesLast first) (belief : Option (MemberState × Incarnation)) :
    first.foldl hear belief = second.foldl hear belief :=
  hperm.foldl_eq'
    (fun one hone other hother => hear_swap
      (fun hleft => hlast one hone hleft other hother)
      (fun hleft => hlast other hother hleft one hone)) belief

theorem foldl_hear_ge (rumours : List MemberUpdate) :
    ∀ state incarnation, ∃ state' incarnation',
      rumours.foldl hear (some (state, incarnation)) = some (state', incarnation') ∧
        incarnation ≤ incarnation' := by
  induction rumours with
  | nil => intro state incarnation; exact ⟨state, incarnation, rfl, le_refl _⟩
  | cons update rumours ih =>
    intro state incarnation
    rw [foldl_cons, hear]
    split_ifs with hleft hnewer
    · exact ih state incarnation
    · obtain ⟨state', incarnation', hfold, hle⟩ := ih update.state update.incarnation
      refine ⟨state', incarnation', hfold, ?_⟩
      rw [UInt64.lt_iff_toNat_lt, ← UInt64.toNat_inj] at hnewer
      rw [le_iff_toNat_le] at hle ⊢
      omega
    · exact ih state incarnation

theorem foldl_hear_ne {leave update : MemberUpdate} (hleft : leave.state = .left)
    (hnewer : leave.incarnation < update.incarnation) (rest rest' : List MemberUpdate) :
    (leave :: rest).foldl hear none ≠ (update :: rest').foldl hear none := by
  obtain ⟨state, incarnation, hfold, hle⟩ :=
    foldl_hear_ge rest' update.state update.incarnation
  rw [foldl_cons, foldl_cons, hear, hear, hleft, foldl_hear_left, hfold]
  intro heq
  have hsame : leave.incarnation = incarnation := (Prod.mk.inj (Option.some.inj heq)).2
  rw [← hsame] at hle
  exact absurd hnewer (not_lt.mpr hle)

/-- Two nodes without a record of a third believe the same after the same rumours, in
whatever orders, exactly when no rumour is newer than one that the third has left. -/
theorem views_converge_iff (parseAddr : String → Option α) (one other : MembershipList α)
    (node : NodeId) (rumours : List MemberUpdate)
    (hone : node ≠ one.localNodeId) (hother : node ≠ other.localNodeId)
    (hnew : one.table[node]? = none) (hnew' : other.table[node]? = none)
    (hnode : ∀ update ∈ rumours, update.nodeId = node)
    (hparse : ∀ update ∈ rumours, (parseAddr update.addr).isSome) :
    (∀ first second, first.Perm rumours → second.Perm rumours →
      (one.applyAll parseAddr first).view node = (other.applyAll parseAddr second).view node) ↔
    LeavesLast rumours := by
  have hfirst : ∀ first : List MemberUpdate, first.Perm rumours →
      (one.applyAll parseAddr first).view node = first.foldl hear none := by
    intro first hperm
    rw [view_applyAll parseAddr one hone (fun u hu => hnode u (hperm.mem_iff.mp hu))
      (fun u hu => hparse u (hperm.mem_iff.mp hu)), view, hnew, Option.map_none]
  have hsecond : ∀ second : List MemberUpdate, second.Perm rumours →
      (other.applyAll parseAddr second).view node = second.foldl hear none := by
    intro second hperm
    rw [view_applyAll parseAddr other hother (fun u hu => hnode u (hperm.mem_iff.mp hu))
      (fun u hu => hparse u (hperm.mem_iff.mp hu)), view, hnew', Option.map_none]
  constructor
  · intro hsame leave hleave hleft update hupdate
    by_contra hnewer
    have hleaveFirst := (perm_cons_erase hleave).symm
    have hupdateFirst := (perm_cons_erase hupdate).symm
    have heq := hsame _ _ hleaveFirst hupdateFirst
    rw [hfirst _ hleaveFirst, hsecond _ hupdateFirst] at heq
    exact foldl_hear_ne hleft (not_le.mp hnewer) _ _ heq
  · intro hlast first second hperm hperm'
    rw [hfirst first hperm, hsecond second hperm', foldl_hear_perm hperm.symm hlast none |>.symm,
      foldl_hear_perm hperm'.symm hlast none]

section Run

def readAddr (text : String) : Option String :=
  if text = "" then none else some text

def rumourAbout (state : MemberState) (incarnation : Incarnation) : MemberUpdate where
  nodeId := "n1"
  addr := "10.0.0.7:7000"
  state := state
  incarnation := incarnation

def listOf (localNodeId : NodeId) : MembershipList String :=
  MembershipList.newLocal localNodeId "10.0.0.1:7000" 0

/-- The departure is heard first by one node and last by the other. -/
theorem views_converge_after_departure :
    ((listOf "a").applyAll readAddr
        [rumourAbout .left 3, rumourAbout .suspect 2, rumourAbout .alive 3]).view "n1" =
      ((listOf "b").applyAll readAddr
        [rumourAbout .suspect 2, rumourAbout .alive 3, rumourAbout .left 3]).view "n1" :=
  (views_converge_iff readAddr (listOf "a") (listOf "b") "n1"
    [rumourAbout .alive 3, rumourAbout .left 3, rumourAbout .suspect 2] (by decide) (by decide)
    (by decide) (by decide) (by decide) (by decide)).mpr (by decide) _ _ (by decide) (by decide)

/-- A departure at incarnation 1 and a sign of life at incarnation 5. -/
theorem departure_before_sign_of_life :
    ((listOf "a").applyAll readAddr [rumourAbout .left 1, rumourAbout .alive 5]).view "n1" =
        some (.left, 1) ∧
      ((listOf "b").applyAll readAddr [rumourAbout .alive 5, rumourAbout .left 1]).view "n1" =
        some (.alive, 5) := by
  decide

end Run

/-! ## The local record -/

section LocalRecord

variable (parseAddr : String → Option α)

/-- What a rumour makes of the local record. -/
def hearOwn (own : Member α) (update : MemberUpdate) : Member α :=
  if update.nodeId = own.nodeId then
    if update.state = .alive then
      if own.incarnation < update.incarnation then
        { own with
          incarnation := update.incarnation
          addr := (parseAddr update.addr).getD own.addr }
      else own
    else { own with incarnation := Incarnation.refute own.incarnation update.incarnation }
  else own

/-- The node has a record of itself, and is alive in it. -/
structure Registered (localNodeId : NodeId) (list : MembershipList α) (own : Member α) : Prop where
  self : list.localNodeId = localNodeId
  record : list.table[localNodeId]? = some own
  named : own.nodeId = localNodeId
  alive : own.state = .alive

theorem registered_newLocal (localNodeId : NodeId) (localAddr : α) (initial : Incarnation) :
    Registered localNodeId (.newLocal localNodeId localAddr initial)
      ⟨localNodeId, localAddr, .alive, initial⟩ :=
  ⟨rfl, TreeMap.getElem?_insert_self, rfl, rfl⟩

variable {localNodeId : NodeId} {localAddr : α} {list : MembershipList α} {own : Member α}
  {update : MemberUpdate} {node : NodeId}

theorem nodeId_of_selfRefute {stored : Option (Member α)} {incarnation : Incarnation}
    (h : mergeUpdate localNodeId stored update = .selfRefute incarnation) :
    update.nodeId = localNodeId := by
  unfold mergeUpdate at h
  by_contra hother
  rw [if_neg fun hself => hother hself.1] at h
  split at h
  · cases h
  · split_ifs at h
    split at h <;> cases h

theorem table_apply_ne (list : MembershipList α) (hne : node ≠ update.nodeId) :
    (list.apply parseAddr update).1.table[node]? = list.table[node]? := by
  unfold apply
  dsimp only
  cases houtcome : mergeUpdate list.localNodeId list.table[update.nodeId]? update with
  | insert | apply =>
    dsimp only
    split
    · rfl
    · exact KeyedFold.getElem?_insert_ne _ hne _
  | selfRefute =>
    dsimp only
    split
    · rfl
    · exact KeyedFold.getElem?_insert_ne _ (nodeId_of_selfRefute houtcome ▸ hne) _
  | ignore | refute | terminalLeft => rfl

theorem compareKeys_alive (hupdate : update.state = .alive) (hown : own.state = .alive) :
    compareKeys update.rumourKey own.rumourKey = .gt ↔ own.incarnation < update.incarnation := by
  simp [compareKeys_eq_gt, Member.rumourKey, MemberUpdate.rumourKey, hupdate, hown]

theorem Registered.apply (h : Registered localNodeId list own) (update : MemberUpdate) :
    Registered localNodeId (list.apply parseAddr update).1 (hearOwn parseAddr own update) := by
  obtain ⟨rfl, hrecord, hnamed, halive⟩ := h
  refine ⟨localNodeId_apply parseAddr list update, ?_, ?_, ?_⟩
  · rw [hearOwn, hnamed]
    by_cases hself : update.nodeId = list.localNodeId
    · by_cases hstate : update.state = .alive
      · have hgt := compareKeys_alive hstate halive
        by_cases hnewer : own.incarnation < update.incarnation
        · simp [apply, mergeUpdate, hself, hstate, hrecord, halive, hnamed, hgt.mpr hnewer, hnewer]
        · rcases hcmp : compareKeys update.rumourKey own.rumourKey with _ | _ | _
          · simp [apply, mergeUpdate, hself, hstate, hrecord, halive, hcmp, hnewer]
          · simp [apply, mergeUpdate, hself, hstate, hrecord, halive, hcmp, hnewer]
          · exact absurd (hgt.mp hcmp) hnewer
      · simp [apply, mergeUpdate, hself, hstate, hrecord, halive]
    · rw [table_apply_ne parseAddr list (Ne.symm hself), hrecord, if_neg hself]
  · unfold hearOwn
    split_ifs <;> exact hnamed
  · unfold hearOwn
    split_ifs <;> exact halive

theorem Registered.applyAll (h : Registered localNodeId list own) (rumours : List MemberUpdate) :
    ∃ own, Registered localNodeId (list.applyAll parseAddr rumours) own := by
  induction rumours generalizing list own with
  | nil => exact ⟨own, h⟩
  | cons update rumours ih => exact ih (h.apply parseAddr update)

theorem le_refute (own rumour : Incarnation) : own ≤ own.refute rumour := by
  have hmax : max own rumour = if own ≤ rumour then rumour else own := rfl
  unfold Incarnation.refute
  grind

theorem lt_refute (own : Incarnation) {rumour : Incarnation}
    (hbelow : rumour < UInt64.ofNat (2 ^ 64 - 1)) : rumour < own.refute rumour := by
  have hmax : max own rumour = if own ≤ rumour then rumour else own := rfl
  unfold Incarnation.refute
  grind

theorem incarnation_hearOwn (own : Member α)
    (hbelow : update.incarnation < UInt64.ofNat (2 ^ 64 - 1)) :
    own.incarnation ≤ (hearOwn parseAddr own update).incarnation ∧
      (update.nodeId = own.nodeId → update.state ≠ .alive →
        update.incarnation < (hearOwn parseAddr own update).incarnation) := by
  unfold hearOwn
  split_ifs with hself hstate hnewer
  · exact ⟨le_of_lt hnewer, fun _ hne => absurd hstate hne⟩
  · exact ⟨le_refl _, fun _ hne => absurd hstate hne⟩
  · exact ⟨le_refute _ _, fun _ _ => lt_refute _ hbelow⟩
  · exact ⟨le_refl _, fun heq => absurd heq hself⟩

/-- A newer sign of life of the local node names no address but its own. -/
def KeepsAddr (localNodeId : NodeId) (localAddr : α) (list : MembershipList α)
    (update : MemberUpdate) : Prop :=
  update.nodeId = localNodeId → update.state = .alive →
    ∀ own ∈ list.table[localNodeId]?, own.incarnation < update.incarnation →
      ∀ addr ∈ parseAddr update.addr, addr = localAddr

theorem addr_hearOwn_iff (h : Registered localNodeId list own) (haddr : own.addr = localAddr)
    (update : MemberUpdate) :
    (hearOwn parseAddr own update).addr = localAddr ↔
      KeepsAddr parseAddr localNodeId localAddr list update := by
  simp only [KeepsAddr, h.record, hearOwn, h.named]
  rcases hparse : parseAddr update.addr with _ | addr
  · split_ifs <;> simp [haddr]
  · split_ifs with hself hstate hnewer <;> simp_all

/-- The local record stays alive, its incarnation never decreases and passes every
rumour that calls the local node anything else.  It keeps its address exactly when no
newer sign of life names another. -/
theorem own_record_of_rumours (localNodeId : NodeId) (localAddr : α) (initial : Incarnation)
    (rumours : List MemberUpdate)
    (hbelow : ∀ update ∈ rumours, update.incarnation < UInt64.ofNat (2 ^ 64 - 1)) :
    let list := MembershipList.newLocal localNodeId localAddr initial
    (∀ past, past <+: rumours → ∃ own,
      (list.applyAll parseAddr past).table[localNodeId]? = some own ∧ own.state = .alive ∧
        ∀ update, past ++ [update] <+: rumours → ∃ next,
          (list.applyAll parseAddr (past ++ [update])).table[localNodeId]? = some next ∧
            own.incarnation ≤ next.incarnation ∧
            (update.nodeId = localNodeId → update.state ≠ .alive →
              update.incarnation < next.incarnation)) ∧
    ((∀ past, past <+: rumours →
        (list.applyAll parseAddr past).table[localNodeId]?.map Member.addr = some localAddr) ↔
      StepRuns.Along (fun list update => (list.apply parseAddr update).1)
        (KeepsAddr parseAddr localNodeId localAddr) list rumours) := by
  intro list
  have hlist := registered_newLocal localNodeId localAddr initial
  constructor
  · intro past _
    obtain ⟨own, hpast⟩ := hlist.applyAll parseAddr past
    refine ⟨own, hpast.record, hpast.alive, fun update hpre =>
      ⟨hearOwn parseAddr own update, ?_, ?_⟩⟩
    · rw [applyAll, foldl_append]
      exact (hpast.apply parseAddr update).record
    · rw [← hpast.named]
      exact incarnation_hearOwn parseAddr own (hbelow update (hpre.subset (by simp)))
  · refine StepRuns.forall_prefix_iff_along (fun list => ∃ own, Registered localNodeId list own)
      (fun list => list.table[localNodeId]?.map Member.addr = some localAddr) ?_ ?_ ⟨_, hlist⟩
      (by rw [hlist.record]; rfl)
    · rintro list update ⟨own, h⟩
      exact ⟨_, h.apply parseAddr update⟩
    · rintro list update ⟨own, h⟩ haddr
      rw [h.record] at haddr
      rw [(h.apply parseAddr update).record, ← addr_hearOwn_iff parseAddr h (Option.some.inj haddr)]
      exact Option.some_inj

end LocalRecord

section Run

/-- A suspicion of node `a`, and a sign of life from another address. -/
def ownRumour (state : MemberState) (incarnation : Incarnation) : MemberUpdate where
  nodeId := "a"
  addr := "10.0.0.9:7000"
  state := state
  incarnation := incarnation

/-- The node is suspected, and then heard of at its own address. -/
theorem own_record_after_suspicion :
    let rumours := [ownRumour .suspect 3,
      { ownRumour .alive 9 with addr := "10.0.0.1:7000" }]
    ((listOf "a").applyAll readAddr rumours).view "a" = some (.alive, 9) ∧
      ((listOf "a").applyAll readAddr rumours).table["a"]?.map Member.addr =
        some "10.0.0.1:7000" := by
  intro rumours
  refine ⟨by decide, ?_⟩
  exact (own_record_of_rumours readAddr "a" "10.0.0.1:7000" 0 rumours (by decide)).2.mpr
    (by simp [rumours, StepRuns.Along, KeepsAddr, ownRumour, readAddr]) _ (prefix_refl _)

/-- A rumour that calls the node alive carries another address for it. -/
theorem sign_of_life_moves_address :
    ((listOf "a").applyAll readAddr [ownRumour .alive 1]).table["a"]?.map Member.addr =
      some "10.0.0.9:7000" := by
  decide

end Run

/-! ## Newer beliefs -/

theorem compareKeys_gt_trans {first second third : Incarnation × Nat}
    (hlater : compareKeys third second = .gt) (hearlier : compareKeys second first = .gt) :
    compareKeys third first = .gt := by
  rw [compareKeys_eq_gt] at *
  obtain hlt | ⟨heq, hlt⟩ := hlater <;> obtain hlt' | ⟨heq', hlt'⟩ := hearlier
  · exact .inl (UInt64.lt_trans hlt' hlt)
  · exact .inl (heq' ▸ hlt)
  · exact .inl (heq ▸ hlt')
  · exact .inr ⟨heq'.trans heq, hlt'.trans hlt⟩

/-- The same record, or a newer one of a node that has not left. -/
def Member.Renews (later member : Member α) : Prop :=
  later = member ∨ member.state ≠ .left ∧ compareKeys later.rumourKey member.rumourKey = .gt

theorem Member.Renews.trans {first second third : Member α} (hlater : third.Renews second)
    (hearlier : second.Renews first) : third.Renews first := by
  obtain rfl | ⟨hleft, hnewer⟩ := hlater
  · exact hearlier
  obtain rfl | ⟨hleft', hnewer'⟩ := hearlier
  · exact .inr ⟨hleft, hnewer⟩
  · exact .inr ⟨hleft', compareKeys_gt_trans hnewer hnewer'⟩

/-- The rumour is no news to the record. -/
def Member.Knows (member : Member α) (update : MemberUpdate) : Prop :=
  member.state = .left ∨ compareKeys update.rumourKey member.rumourKey ≠ .gt

theorem Member.Renews.knows {later member : Member α} (hrenews : later.Renews member)
    {update : MemberUpdate} (hknows : member.Knows update) : later.Knows update := by
  obtain rfl | ⟨hleft, hnewer⟩ := hrenews
  · exact hknows
  · exact .inr fun hgt => hknows.resolve_left hleft (compareKeys_gt_trans hgt hnewer)

theorem renews_apply (parseAddr : String → Option α) (list : MembershipList α)
    (update : MemberUpdate) {node : NodeId} (hremote : node ≠ list.localNodeId)
    {member : Member α} (hmember : list.table[node]? = some member) :
    ∃ next, (list.apply parseAddr update).1.table[node]? = some next ∧ next.Renews member ∧
      (update.nodeId = node → next.Knows update) := by
  by_cases hnode : node = update.nodeId
  · subst hnode
    by_cases hleft : member.state = .left
    · refine ⟨member, ?_, .inl rfl, fun _ => .inl hleft⟩
      simp [apply, mergeUpdate, hremote, hmember, hleft]
    by_cases hgt : compareKeys update.rumourKey member.rumourKey = .gt
    · refine ⟨{ member with
        state := update.state
        incarnation := update.incarnation
        addr := (parseAddr update.addr).getD member.addr }, ?_, .inr ⟨hleft, hgt⟩, ?_⟩
      · simp [apply, mergeUpdate, hremote, hmember, hleft, hgt]
      · refine fun _ => .inr fun hagain => ?_
        simp [compareKeys_eq_gt, Member.rumourKey, MemberUpdate.rumourKey] at hagain
    · refine ⟨member, ?_, .inl rfl, fun _ => .inr hgt⟩
      rcases hcmp : compareKeys update.rumourKey member.rumourKey with _ | _ | _
      · simp [apply, mergeUpdate, hremote, hmember, hleft, hcmp]
      · simp [apply, mergeUpdate, hremote, hmember, hleft, hcmp]
      · exact absurd hcmp hgt
  · exact ⟨member, (table_apply_ne parseAddr list hnode).trans hmember, .inl rfl,
      fun heq => absurd heq.symm hnode⟩

/-- What a node believes about another stays as it is or becomes newer.  It is
at least as new as every rumour heard, unless the other has left, and a
departure is final. -/
theorem belief_only_newer (parseAddr : String → Option α) (list : MembershipList α)
    (updates : List MemberUpdate) {node : NodeId} (hremote : node ≠ list.localNodeId)
    {member : Member α} (hmember : list.table[node]? = some member) :
    ∃ later, (list.applyAll parseAddr updates).table[node]? = some later ∧
      (later = member ∨ compareKeys later.rumourKey member.rumourKey = .gt) ∧
      (∀ update ∈ updates, update.nodeId = node → later.state = .left ∨
        compareKeys update.rumourKey later.rumourKey ≠ .gt) ∧
      (member.state = .left → later = member) := by
  suffices ∃ later, (list.applyAll parseAddr updates).table[node]? = some later ∧
      later.Renews member ∧ ∀ update ∈ updates, update.nodeId = node → later.Knows update by
    obtain ⟨later, hlater, hrenews, hknows⟩ := this
    exact ⟨later, hlater, hrenews.imp_right And.right, hknows,
      fun hleft => hrenews.resolve_right fun h => h.1 hleft⟩
  induction updates generalizing list member with
  | nil => exact ⟨member, hmember, .inl rfl, fun _ h => absurd h not_mem_nil⟩
  | cons update updates ih =>
    obtain ⟨next, hnext, hrenews, hknows⟩ := renews_apply parseAddr list update hremote hmember
    obtain ⟨later, hlater, hlast, hrest⟩ := ih (list.apply parseAddr update).1
      (by rwa [localNodeId_apply]) hnext
    refine ⟨later, hlater, hlast.trans hrenews, forall_mem_cons.mpr ⟨?_, hrest⟩⟩
    exact fun hnode => hlast.knows (hknows hnode)

/-- A departed node is rumoured to be alive at another address. -/
theorem belief_only_newer_departed :
    ∃ later, (((listOf "a").applyAll readAddr
        [rumourAbout .suspect 2, rumourAbout .left 3]).applyAll readAddr
        [rumourAbout .dead 3, { rumourAbout .alive 9 with addr := "10.0.0.9:7000" }]).table["n1"]? =
          some later ∧
      later = ⟨"n1", "10.0.0.7:7000", .left, 3⟩ := by
  obtain ⟨later, hlater, -, -, hleft⟩ := belief_only_newer readAddr
    ((listOf "a").applyAll readAddr [rumourAbout .suspect 2, rumourAbout .left 3])
    [rumourAbout .dead 3, { rumourAbout .alive 9 with addr := "10.0.0.9:7000" }]
    (show "n1" ≠ "a" by decide) rfl
  exact ⟨later, hlater, hleft rfl⟩

end NodeDB.Swim
