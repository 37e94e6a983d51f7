import Mathlib.Tactic

/-!
# Topological emission that breaks cycles

Kahn's algorithm over the nodes below `n` of a finite graph.  A node is ready
once no edge from a node that is left enters it, and the least ready node is
emitted at the next position.  When no node is ready, the largest node left is
rejected and its edges are dropped.  Every step settles one node, so `n` steps
settle all of them.
-/

namespace CycleBreaking

open Std List

/-- A graph on the nodes below `n`, by the successors of each node. -/
structure Graph (n : Nat) where
  out : Nat → List Nat
  nodup : ∀ node, (out node).Nodup
  bounded : ∀ {node succ : Nat}, succ ∈ out node → node < n ∧ succ < n

structure State where
  inDegree : Nat → Nat
  ready : TreeSet Nat
  rejected : Nat → Bool
  emittedPosition : Nat → Option Nat
  nextPosition : Nat

namespace State

def isLeft (state : State) (node : Nat) : Bool :=
  !state.rejected node && (state.emittedPosition node).isNone

def dropEdge (state : State) (succ : Nat) : State :=
  { state with
    inDegree := Function.update state.inDegree succ (state.inDegree succ - 1),
    ready :=
      if state.inDegree succ - 1 = 0 ∧ state.isLeft succ = true then
        state.ready.insert succ
      else
        state.ready }

def dropEdges (state : State) (succs : List Nat) : State :=
  succs.foldl dropEdge state

def place (state : State) (node : Nat) : State :=
  { state with
    ready := state.ready.erase node,
    emittedPosition := Function.update state.emittedPosition node (some state.nextPosition),
    nextPosition := state.nextPosition + 1 }

def refuse (state : State) (node : Nat) : State :=
  { state with rejected := Function.update state.rejected node true }

def victim (n : Nat) (state : State) : Option Nat :=
  (List.range n).reverse.find? state.isLeft

end State

variable {n : Nat}

def step (graph : Graph n) (state : State) : Option State :=
  match state.ready.min? with
  | some node => some ((state.place node).dropEdges (graph.out node))
  | none =>
    match state.victim n with
    | some node => some ((state.refuse node).dropEdges (graph.out node))
    | none => none

def run (graph : Graph n) : Nat → State → State
  | 0, state => state
  | fuel + 1, state =>
    match step graph state with
    | some next => run graph fuel next
    | none => state

/-- Nothing is settled, and the nodes without an edge into them are ready. -/
def start (n : Nat) (inDegree : Nat → Nat) : State :=
  { inDegree := inDegree,
    ready := TreeSet.ofList ((List.range n).filter fun node => inDegree node = 0),
    rejected := fun _ => false,
    emittedPosition := fun _ => none,
    nextPosition := 0 }

/-! ## Dropping the edges out of a node -/

namespace State

theorem isLeft_iff {state : State} {node : Nat} :
    state.isLeft node = true ↔
      state.rejected node = false ∧ state.emittedPosition node = none := by
  simp [isLeft]

section

variable (state : State)

theorem isLeft_place (node other : Nat) :
    (state.place node).isLeft other = true ↔ state.isLeft other = true ∧ other ≠ node := by
  by_cases heq : other = node <;> simp [isLeft, place, heq]

theorem isLeft_refuse (node other : Nat) :
    (state.refuse node).isLeft other = true ↔ state.isLeft other = true ∧ other ≠ node := by
  by_cases heq : other = node <;> simp [isLeft, refuse, heq]

theorem inDegree_dropEdge (succ node : Nat) :
    (state.dropEdge succ).inDegree node =
      if node = succ then state.inDegree node - 1 else state.inDegree node := by
  by_cases heq : node = succ
  · rw [if_pos heq, heq]
    exact Function.update_self _ _ _
  · rw [if_neg heq]
    exact Function.update_of_ne heq _ _

theorem mem_ready_dropEdge (succ node : Nat) :
    node ∈ (state.dropEdge succ).ready ↔
      node ∈ state.ready ∨
        (node = succ ∧ state.inDegree node - 1 = 0 ∧ state.isLeft node = true) := by
  simp only [dropEdge]
  split_ifs with hready
  · simp only [TreeSet.mem_insert, LawfulEqOrd.compare_eq_iff_eq]
    constructor
    · rintro (rfl | hmem)
      · exact .inr ⟨rfl, hready⟩
      · exact .inl hmem
    · rintro (hmem | ⟨rfl, -⟩)
      · exact .inr hmem
      · exact .inl rfl
  · constructor
    · exact .inl
    · rintro (hmem | ⟨rfl, hnew⟩)
      · exact hmem
      · exact absurd hnew hready

theorem dropEdges_cons (succ : Nat) (rest : List Nat) :
    state.dropEdges (succ :: rest) = (state.dropEdge succ).dropEdges rest := rfl

theorem dropEdges_frame (succs : List Nat) :
    (state.dropEdges succs).rejected = state.rejected ∧
      (state.dropEdges succs).emittedPosition = state.emittedPosition ∧
      (state.dropEdges succs).nextPosition = state.nextPosition := by
  induction succs generalizing state with
  | nil => exact ⟨rfl, rfl, rfl⟩
  | cons succ rest ih => exact ih (state.dropEdge succ)

theorem isLeft_dropEdges (succs : List Nat) (node : Nat) :
    (state.dropEdges succs).isLeft node = state.isLeft node := by
  unfold isLeft
  rw [(dropEdges_frame state succs).1, (dropEdges_frame state succs).2.1]

theorem dropEdges_spec {succs : List Nat} (hnodup : succs.Nodup) (node : Nat) :
    (state.dropEdges succs).inDegree node =
        (if node ∈ succs then state.inDegree node - 1 else state.inDegree node) ∧
      (node ∈ (state.dropEdges succs).ready ↔
        node ∈ state.ready ∨
          (node ∈ succs ∧ state.inDegree node - 1 = 0 ∧ state.isLeft node = true)) := by
  induction succs generalizing state with
  | nil => simp [dropEdges]
  | cons succ rest ih =>
    obtain ⟨hfresh, hrest⟩ := nodup_cons.mp hnodup
    rw [dropEdges_cons, (ih _ hrest).1, (ih _ hrest).2, mem_ready_dropEdge, inDegree_dropEdge]
    by_cases heq : node = succ
    · subst heq
      simp [hfresh]
    · simp [heq, isLeft, dropEdge]

end

end State

/-! ## The in-degrees count the nodes left -/

def predecessors (graph : Graph n) (state : State) (node : Nat) : Finset Nat :=
  (Finset.range n).filter fun other => state.isLeft other = true ∧ node ∈ graph.out other

/-- The in-degrees count the predecessors left; nodes without any are ready. -/
structure Counted (graph : Graph n) (state : State) : Prop where
  degree : ∀ node, state.inDegree node = (predecessors graph state node).card
  ready : ∀ node, node ∈ state.ready ↔
    node < n ∧ state.isLeft node = true ∧ state.inDegree node = 0

variable {graph : Graph n} {state : State} {node : Nat}

theorem Counted.settle {marked : State}
    (hcounted : Counted graph state) (hleft : state.isLeft node = true)
    (hdegree : marked.inDegree = state.inDegree)
    (hmarked : ∀ other, marked.isLeft other = true ↔
      state.isLeft other = true ∧ other ≠ node)
    (hready : ∀ other, other ∈ marked.ready ↔ other ∈ state.ready ∧ other ≠ node) :
    Counted graph (marked.dropEdges (graph.out node)) := by
  have hpredecessors : ∀ other, predecessors graph (marked.dropEdges (graph.out node)) other =
      (predecessors graph state other).erase node := by
    intro other
    ext before
    simp only [predecessors, State.isLeft_dropEdges, hmarked, Finset.mem_erase, Finset.mem_filter]
    tauto
  have hdegrees : ∀ other, (marked.dropEdges (graph.out node)).inDegree other =
      if other ∈ graph.out node then state.inDegree other - 1 else state.inDegree other := by
    intro other
    rw [(State.dropEdges_spec marked (graph.nodup node) _).1, hdegree]
  refine ⟨?_, ?_⟩
  · intro other
    rw [hdegrees, hpredecessors, hcounted.degree]
    split_ifs with hout
    · have hnode : node ∈ predecessors graph state other :=
        Finset.mem_filter.mpr ⟨Finset.mem_range.mpr (graph.bounded hout).1, hleft, hout⟩
      exact (Finset.card_erase_of_mem hnode).symm
    · have hnode : node ∉ predecessors graph state other := by
        simp [predecessors, hout]
      rw [Finset.erase_eq_of_notMem hnode]
  · intro other
    rw [(State.dropEdges_spec marked (graph.nodup node) _).2, State.isLeft_dropEdges, hdegrees,
      hready, hcounted.ready, hmarked, hdegree]
    constructor
    · rintro (⟨⟨hbound, hother, hzero⟩, hne⟩ | ⟨hout, hzero, hother⟩)
      · exact ⟨hbound, ⟨hother, hne⟩, by split_ifs <;> omega⟩
      · exact ⟨(graph.bounded hout).2, hother, by rw [if_pos hout]; exact hzero⟩
    · rintro ⟨hbound, ⟨hother, hne⟩, hzero⟩
      split_ifs at hzero with hout
      · exact .inr ⟨hout, hzero, hother, hne⟩
      · exact .inl ⟨⟨hbound, hother, hzero⟩, hne⟩

/-! ## The emitted positions -/

/-- The emitted nodes take the positions below the next one, each once, and an
edge into an emitted node comes from a node settled before it. -/
structure Placed (graph : Graph n) (state : State) : Prop where
  once : ∀ {node : Nat}, state.rejected node = true → state.emittedPosition node = none
  below : ∀ {node position : Nat}, state.emittedPosition node = some position →
    node < n ∧ position < state.nextPosition
  injective : ∀ {node other position : Nat}, state.emittedPosition node = some position →
    state.emittedPosition other = some position → node = other
  filled : ∀ {position : Nat}, position < state.nextPosition →
    ∃ node, state.emittedPosition node = some position
  ordered : ∀ {before node position : Nat}, node ∈ graph.out before →
    state.emittedPosition node = some position →
      state.rejected before = true ∨
        ∃ earlier < position, state.emittedPosition before = some earlier

theorem Placed.dropEdges (hplaced : Placed graph state)
    (succs : List Nat) : Placed graph (state.dropEdges succs) := by
  obtain ⟨hrejected, hposition, hnext⟩ := state.dropEdges_frame succs
  refine ⟨?_, ?_, ?_, ?_, ?_⟩
  · rw [hrejected, hposition]
    exact hplaced.once
  · rw [hposition, hnext]
    exact hplaced.below
  · rw [hposition]
    exact hplaced.injective
  · rw [hposition, hnext]
    exact hplaced.filled
  · rw [hrejected, hposition]
    exact hplaced.ordered

theorem Placed.refuse (hplaced : Placed graph state)
    (hleft : state.isLeft node = true) : Placed graph (state.refuse node) := by
  refine ⟨?_, hplaced.below, hplaced.injective, hplaced.filled, ?_⟩
  · intro other hrejected
    by_cases heq : other = node
    · exact heq ▸ (State.isLeft_iff.mp hleft).2
    · apply hplaced.once
      simpa [State.refuse, heq] using hrejected
  · intro before other position hout hposition
    obtain hrejected | hearlier := hplaced.ordered hout hposition
    · refine .inl ?_
      by_cases heq : before = node <;> simp [State.refuse, heq, hrejected]
    · exact .inr hearlier

theorem Placed.place (hplaced : Placed graph state)
    (hbound : node < n) (hleft : state.isLeft node = true)
    (hsettled : ∀ before, node ∈ graph.out before → state.isLeft before = false) :
    Placed graph (state.place node) := by
  obtain ⟨hkept, hfresh⟩ := State.isLeft_iff.mp hleft
  have hposition : ∀ other, (state.place node).emittedPosition other =
      if other = node then some state.nextPosition else state.emittedPosition other := by
    intro other
    split_ifs with heq
    · rw [heq]
      exact Function.update_self _ _ _
    · exact Function.update_of_ne heq _ _
  refine ⟨?_, ?_, ?_, ?_, ?_⟩
  · intro other hrejected
    rw [hposition]
    split_ifs with heq
    · subst heq
      exact absurd (hkept.symm.trans hrejected) Bool.false_ne_true
    · exact hplaced.once hrejected
  · intro other position hother
    rw [hposition] at hother
    split_ifs at hother with heq
    · obtain rfl := Option.some.inj hother
      exact ⟨heq ▸ hbound, Nat.lt_succ_self _⟩
    · exact ⟨(hplaced.below hother).1, Nat.lt_succ_of_lt (hplaced.below hother).2⟩
  · intro first second position hfirst hsecond
    rw [hposition] at hfirst hsecond
    split_ifs at hfirst hsecond with heqFirst heqSecond heqSecond
    · exact heqFirst.trans heqSecond.symm
    · obtain rfl := Option.some.inj hfirst
      exact absurd (hplaced.below hsecond).2 (lt_irrefl _)
    · obtain rfl := Option.some.inj hsecond
      exact absurd (hplaced.below hfirst).2 (lt_irrefl _)
    · exact hplaced.injective hfirst hsecond
  · intro position hlt
    obtain hlt | rfl := Nat.lt_succ_iff_lt_or_eq.mp hlt
    · obtain ⟨other, hother⟩ := hplaced.filled hlt
      refine ⟨other, ?_⟩
      rw [hposition, if_neg]
      · exact hother
      · rintro rfl
        rw [hfresh] at hother
        cases hother
    · exact ⟨node, by rw [hposition, if_pos rfl]⟩
  · intro before other position hout hother
    have hbefore : ∀ earlier, state.emittedPosition before = some earlier →
        (state.place node).emittedPosition before = some earlier := by
      intro earlier hearlier
      rw [hposition, if_neg]
      · exact hearlier
      · rintro rfl
        rw [hfresh] at hearlier
        cases hearlier
    rw [hposition] at hother
    split_ifs at hother with heq
    · subst heq
      obtain rfl := Option.some.inj hother
      -- every predecessor is settled, so it is rejected or has an earlier position
      cases hrejected : state.rejected before with
      | true => exact .inl hrejected
      | false =>
        cases hearlier : state.emittedPosition before with
        | none =>
          have hnone := hsettled before hout
          rw [State.isLeft, hrejected, hearlier] at hnone
          cases hnone
        | some earlier =>
          exact .inr ⟨earlier, (hplaced.below hearlier).2, hbefore earlier hearlier⟩
    · obtain hrejected | ⟨earlier, hlt, hearlier⟩ := hplaced.ordered hout hother
      · exact .inl hrejected
      · exact .inr ⟨earlier, hlt, hbefore earlier hearlier⟩

/-! ## Whole runs -/

def left (n : Nat) (state : State) : Finset Nat :=
  (Finset.range n).filter fun node => state.isLeft node = true

theorem mem_left : node ∈ left n state ↔ node < n ∧ state.isLeft node = true := by
  simp [left]

theorem step_cases (hcounted : Counted graph state) (hplaced : Placed graph state) :
    (step graph state = none ∧ left n state = ∅) ∨
      ∃ node ∈ left n state, ∃ next, step graph state = some next ∧ Counted graph next ∧
        Placed graph next ∧ left n next = (left n state).erase node := by
  unfold step
  cases hmin : state.ready.min? with
  | some node =>
    have hready : node ∈ state.ready := (TreeSet.min?_eq_some_iff_mem_and_forall.mp hmin).1
    obtain ⟨hbound, hleft, hzero⟩ := (hcounted.ready node).mp hready
    refine .inr ⟨node, mem_left.mpr ⟨hbound, hleft⟩, _, rfl, ?_, ?_, ?_⟩
    · refine hcounted.settle hleft rfl (state.isLeft_place node) ?_
      intro other
      simp only [State.place, TreeSet.mem_erase, ne_eq, LawfulEqOrd.compare_eq_iff_eq]
      tauto
    · refine (hplaced.place hbound hleft ?_).dropEdges _
      intro before hout
      rw [hcounted.degree, Finset.card_eq_zero] at hzero
      by_contra hbefore
      have hmem : before ∈ predecessors graph state node :=
        Finset.mem_filter.mpr ⟨Finset.mem_range.mpr (graph.bounded hout).1,
          Bool.eq_true_of_not_eq_false hbefore, hout⟩
      rw [hzero] at hmem
      exact absurd hmem (Finset.notMem_empty before)
    · ext other
      rw [mem_left, State.isLeft_dropEdges, State.isLeft_place, Finset.mem_erase, mem_left]
      tauto
  | none =>
    have hready : ∀ node, node ∉ state.ready := fun _ =>
      TreeSet.not_mem_of_isEmpty (TreeSet.min?_eq_none_iff.mp hmin)
    cases hvictim : state.victim n with
    | some node =>
      have hmem := mem_of_find?_eq_some hvictim
      have hleft : state.isLeft node = true := find?_some hvictim
      have hbound : node < n := mem_range.mp (mem_reverse.mp hmem)
      refine .inr ⟨node, mem_left.mpr ⟨hbound, hleft⟩, _, rfl, ?_, ?_, ?_⟩
      · refine hcounted.settle hleft rfl (state.isLeft_refuse node) ?_
        intro other
        exact ⟨fun h => absurd h (hready other), fun h => h.1⟩
      · exact (hplaced.refuse hleft).dropEdges _
      · ext other
        rw [mem_left, State.isLeft_dropEdges, State.isLeft_refuse, Finset.mem_erase, mem_left]
        tauto
    | none =>
      refine .inl ⟨rfl, ?_⟩
      ext node
      simp only [mem_left, Finset.notMem_empty, iff_false]
      rintro ⟨hbound, hleft⟩
      have hnone := find?_eq_none.mp hvictim node
        (mem_reverse.mpr (mem_range.mpr hbound))
      exact hnone hleft

theorem run_settles (hcounted : Counted graph state)
    (hplaced : Placed graph state) {fuel : Nat} (hfuel : (left n state).card ≤ fuel) :
    Placed graph (run graph fuel state) ∧ step graph (run graph fuel state) = none := by
  induction fuel generalizing state with
  | zero =>
    obtain ⟨hnone, -⟩ | ⟨node, hnode, -⟩ := step_cases hcounted hplaced
    · exact ⟨hplaced, hnone⟩
    · have hempty := Finset.card_eq_zero.mp (Nat.le_zero.mp hfuel)
      rw [hempty] at hnode
      exact absurd hnode (Finset.notMem_empty node)
  | succ fuel ih =>
    obtain ⟨hnone, -⟩ | ⟨node, hnode, next, hnext, hcounted', hplaced', hleft⟩ :=
      step_cases hcounted hplaced
    · simp only [run, hnone]
      exact ⟨hplaced, trivial⟩
    · simp only [run, hnext]
      apply ih hcounted' hplaced'
      rw [hleft, Finset.card_erase_of_mem hnode]
      omega

theorem counted_start {inDegree : Nat → Nat} (hdegree : ∀ node, inDegree node =
      ((Finset.range n).filter fun other => node ∈ graph.out other).card) :
    Counted graph (start n inDegree) := by
  refine ⟨?_, ?_⟩
  · intro node
    simp [start, predecessors, State.isLeft, hdegree]
  · intro node
    simp [start, State.isLeft]

theorem placed_start (graph : Graph n) (inDegree : Nat → Nat) :
    Placed graph (start n inDegree) := by
  refine ⟨?_, ?_, ?_, ?_, ?_⟩ <;> simp [start]

theorem run_start {inDegree : Nat → Nat} (hdegree : ∀ node, inDegree node =
      ((Finset.range n).filter fun other => node ∈ graph.out other).card) :
    Placed graph (run graph n (start n inDegree)) ∧
      step graph (run graph n (start n inDegree)) = none :=
  run_settles (counted_start hdegree) (placed_start graph inDegree)
    ((Finset.card_filter_le _ _).trans (Finset.card_range n).le)

end CycleBreaking
