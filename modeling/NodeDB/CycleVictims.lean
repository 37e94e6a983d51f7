import NodeDB.CycleBreaking

/-!
# The nodes that breaking cycles rejects

Without the nodes rejected so far, the emission stalls exactly on the nodes
that some cycle reaches.  It rejects the largest of them, which is on a cycle
or only behind one.  Rejections go down, so which of the two it is can be told
from the nodes up to it.
-/

namespace CycleBreaking

open Relation Std List

/-! ## Cycles among some nodes -/

section Cycles

variable {α : Type*} (r : α → α → Prop) (kept : Set α)

/-- A step of `r` between two nodes of `kept`. -/
structure Within (node succ : α) : Prop where
  source : node ∈ kept
  target : succ ∈ kept
  out : r node succ

def OnCycle (node : α) : Prop :=
  TransGen (Within r kept) node node

def BehindCycle (node : α) : Prop :=
  ∃ member, OnCycle r kept member ∧ ReflTransGen (Within r kept) member node

variable {r kept} {node : α} {other : Set α}

theorem Within.mono (hsubset : kept ⊆ other) : Within r kept ≤ Within r other :=
  fun _ _ hstep => ⟨hsubset hstep.source, hsubset hstep.target, hstep.out⟩

theorem OnCycle.mono (hsubset : kept ⊆ other) (hcycle : OnCycle r kept node) :
    OnCycle r other node :=
  TransGen.mono (Within.mono hsubset) _ _ hcycle

theorem BehindCycle.mono (hsubset : kept ⊆ other) (hbehind : BehindCycle r kept node) :
    BehindCycle r other node := by
  obtain ⟨member, hcycle, hpath⟩ := hbehind
  exact ⟨member, hcycle.mono hsubset, ReflTransGen.mono (Within.mono hsubset) _ _ hpath⟩

theorem BehindCycle.mem (hbehind : BehindCycle r kept node) : node ∈ kept := by
  obtain ⟨member, hcycle, hpath⟩ := hbehind
  obtain ⟨before, -, hlast⟩ := TransGen.tail'_iff.mp (TransGen.trans_left hcycle hpath)
  exact hlast.target

section

variable (hbehind : ∀ node, BehindCycle r kept node → node ∈ other)
include hbehind

/-- A path from a cycle stays among the nodes behind cycles. -/
theorem path_of_onCycle {member : α} (hcycle : OnCycle r kept member)
    (hpath : ReflTransGen (Within r kept) member node) :
    ReflTransGen (Within r other) member node := by
  induction hpath with
  | refl => exact .refl
  | tail hpath hstep ih =>
    exact ih.tail ⟨hbehind _ ⟨member, hcycle, hpath⟩,
      hbehind _ ⟨member, hcycle, hpath.tail hstep⟩, hstep.out⟩

theorem OnCycle.restrict (hcycle : OnCycle r kept node) : OnCycle r other node := by
  obtain ⟨last, hpath, hstep⟩ := TransGen.tail'_iff.mp hcycle
  refine TransGen.tail'_iff.mpr ⟨last, path_of_onCycle hbehind hcycle hpath, ?_, ?_, hstep.out⟩
  · exact hbehind last ⟨node, hcycle, hpath⟩
  · exact hbehind node ⟨node, hcycle, .refl⟩

theorem BehindCycle.restrict (hnode : BehindCycle r kept node) : BehindCycle r other node := by
  obtain ⟨member, hcycle, hpath⟩ := hnode
  exact ⟨member, hcycle.restrict hbehind, path_of_onCycle hbehind hcycle hpath⟩

end

end Cycles

/-! ## The nodes a run rejects -/

variable {n : Nat}

def Graph.Adj (graph : Graph n) (node succ : Nat) : Prop :=
  succ ∈ graph.out node

def without (gone : List Nat) : Set Nat :=
  {node | node ∉ gone}

/-- Nodes taken out one after the other, each the largest that a cycle still
reaches. -/
inductive Breaks (graph : Graph n) : List Nat → Prop where
  | start : Breaks graph []
  | reject {gone : List Nat} {node : Nat} : Breaks graph gone →
      IsGreatest {node | BehindCycle graph.Adj (without gone) node} node → Breaks graph (gone ++ [node])

/-- The nodes a run rejects, in order. -/
def victims (graph : Graph n) : Nat → State → List Nat
  | 0, _ => []
  | fuel + 1, state =>
    match state.ready.min? with
    | some node => victims graph fuel ((state.place node).dropEdges (graph.out node))
    | none =>
      match state.victim n with
      | some node =>
        node :: victims graph fuel ((state.refuse node).dropEdges (graph.out node))
      | none => []

variable {graph : Graph n} {state : State} {gone : List Nat} {node : Nat}

/-! ## The nodes of a stall -/

theorem exists_cycle {α : Type*} {r : α → α → Prop} {s : Set α} (hfinite : s.Finite)
    (hback : ∀ x ∈ s, ∃ y ∈ s, r y x) {x : α} (hx : x ∈ s) :
    ∃ y, TransGen r y y ∧ ReflTransGen r y x := by
  by_contra hnone
  -- without a cycle the finitely many points in front of `x` have a first one
  have hbelow : Finite {y // y ∈ s ∧ ReflTransGen r y x} :=
    (hfinite.subset (Set.sep_subset s fun y => ReflTransGen r y x)).to_subtype
  have htrans : IsTrans {y // y ∈ s ∧ ReflTransGen r y x} fun a b => TransGen r a.1 b.1 :=
    ⟨fun _ _ _ => TransGen.trans⟩
  have hirrefl : Std.Irrefl fun a b : {y // y ∈ s ∧ ReflTransGen r y x} =>
      TransGen r a.1 b.1 := ⟨fun y hcycle => hnone ⟨y, hcycle, y.2.2⟩⟩
  obtain ⟨first, -, hfirst⟩ :=
    (Finite.wellFounded_of_trans_of_irrefl fun a b : {y // y ∈ s ∧ ReflTransGen r y x} =>
      TransGen r a.1 b.1).has_min Set.univ ⟨⟨x, hx, .refl⟩, trivial⟩
  obtain ⟨y, hy, hedge⟩ := hback first.1 first.2.1
  exact hfirst ⟨y, hy, .head hedge first.2.2⟩ trivial (.single hedge)

theorem Counted.exists_left_predecessor (hcounted : Counted graph state)
    (hstalled : state.ready.min? = none) (hbound : node < n) (hleft : state.isLeft node = true) :
    ∃ before, state.isLeft before = true ∧ node ∈ graph.out before := by
  have hready : node ∉ state.ready :=
    TreeSet.not_mem_of_isEmpty (TreeSet.min?_eq_none_iff.mp hstalled)
  rw [hcounted.ready, hcounted.degree] at hready
  have hsome : (predecessors graph state node).Nonempty := by
    rw [← Finset.card_pos]
    exact Nat.pos_of_ne_zero fun hzero => hready ⟨hbound, hleft, hzero⟩
  obtain ⟨before, hbefore⟩ := hsome
  exact ⟨before, (Finset.mem_filter.mp hbefore).2⟩

theorem BehindCycle.lt {kept : Set Nat} (hbehind : BehindCycle graph.Adj kept node) :
    node < n := by
  obtain ⟨member, hcycle, hpath⟩ := hbehind
  obtain ⟨before, -, hlast⟩ := TransGen.tail'_iff.mp (TransGen.trans_left hcycle hpath)
  exact (graph.bounded hlast.out).2

section

variable (hplaced : Placed graph state)
  (hgone : ∀ other, state.rejected other = true ↔ other ∈ gone)
include hplaced hgone

theorem Placed.emitted_of_edge {succ position : Nat}
    (hedge : Within graph.Adj (without gone) node succ) (hposition : state.emittedPosition succ = some position) :
    ∃ earlier < position, state.emittedPosition node = some earlier :=
  (hplaced.ordered hedge.out hposition).resolve_left fun hrejected =>
    hedge.source ((hgone node).mp hrejected)

theorem Placed.emitted_of_path {last position : Nat}
    (hpath : TransGen (Within graph.Adj (without gone)) node last)
    (hposition : state.emittedPosition last = some position) :
    ∃ earlier < position, state.emittedPosition node = some earlier := by
  induction hpath generalizing position with
  | single hedge => exact hplaced.emitted_of_edge hgone hedge hposition
  | tail _ hedge ih =>
    obtain ⟨middle, hmiddle, hbefore⟩ := hplaced.emitted_of_edge hgone hedge hposition
    obtain ⟨earlier, hearlier, hnode⟩ := ih hbefore
    exact ⟨earlier, hearlier.trans hmiddle, hnode⟩

theorem Placed.left_of_behindCycle (hbehind : BehindCycle graph.Adj (without gone) node) :
    node < n ∧ state.isLeft node = true := by
  refine ⟨hbehind.lt, State.isLeft_iff.mpr ⟨?_, ?_⟩⟩
  · exact Bool.eq_false_iff.mpr fun hrejected => hbehind.mem ((hgone node).mp hrejected)
  · obtain ⟨member, hcycle, hpath⟩ := hbehind
    have hreached : TransGen (Within graph.Adj (without gone)) member node :=
      hcycle.trans_left hpath
    -- an emitted node would put its cycle at ever earlier positions
    cases hposition : state.emittedPosition node with
    | none => rfl
    | some position =>
      obtain ⟨first, -, hfirst⟩ := hplaced.emitted_of_path hgone hreached hposition
      obtain ⟨earlier, hlt, hearlier⟩ := hplaced.emitted_of_path hgone hcycle hfirst
      exact absurd (Option.some.inj (hearlier.symm.trans hfirst)) hlt.ne

theorem behindCycle_iff_of_stalled (hcounted : Counted graph state)
    (hstalled : state.ready.min? = none) :
    BehindCycle graph.Adj (without gone) node ↔ node < n ∧ state.isLeft node = true := by
  refine ⟨hplaced.left_of_behindCycle hgone, ?_⟩
  have hkept {other : Nat} (hleft : state.isLeft other = true) : other ∉ gone := by
    rw [← hgone, (State.isLeft_iff.mp hleft).1]
    exact Bool.false_ne_true
  refine exists_cycle (s := {other | other < n ∧ state.isLeft other = true})
    ((Set.finite_lt_nat n).subset fun _ hother => hother.1) ?_
  rintro other ⟨hbound, hleft⟩
  obtain ⟨before, hbefore, hout⟩ := hcounted.exists_left_predecessor hstalled hbound hleft
  exact ⟨before, ⟨(graph.bounded hout).1, hbefore⟩, hkept hbefore, hkept hleft, hout⟩

theorem Placed.not_behindCycle (hempty : left n state = ∅) (other : Nat) :
    ¬ BehindCycle graph.Adj (without gone) other := by
  intro hbehind
  have hmem := mem_left.mpr (hplaced.left_of_behindCycle hgone hbehind)
  rw [hempty] at hmem
  exact Finset.notMem_empty other hmem

end

theorem isGreatest_victim (hvictim : state.victim n = some node) :
    IsGreatest {other | other < n ∧ state.isLeft other = true} node := by
  obtain ⟨hleft, before, after, hsplit, hbefore⟩ := find?_eq_some_iff_append.mp hvictim
  have hmem {other : Nat} : other < n ↔ other ∈ before ++ node :: after := by
    rw [← hsplit, mem_reverse, mem_range]
  refine ⟨⟨hmem.mpr (mem_append_right _ mem_cons_self), hleft⟩, ?_⟩
  rintro other ⟨hbound, hother⟩
  obtain hskipped | hlater := mem_append.mp (hmem.mp hbound)
  · exact absurd hother (by simpa using hbefore other hskipped)
  · obtain rfl | hlater := mem_cons.mp hlater
    · exact le_rfl
    · have hdown : (List.range n).reverse.Pairwise (· > ·) :=
        pairwise_reverse.mpr pairwise_lt_range
      rw [hsplit, pairwise_append] at hdown
      exact (rel_of_pairwise_cons hdown.2.1 hlater).le

/-! ## Whole runs -/

theorem breaks_victims {fuel : Nat} (hcounted : Counted graph state)
    (hplaced : Placed graph state)
    (hgone : ∀ other, state.rejected other = true ↔ other ∈ gone)
    (hbreaks : Breaks graph gone) (hfuel : (left n state).card ≤ fuel) :
    Breaks graph (gone ++ victims graph fuel state) ∧
      ∀ other, ¬ BehindCycle graph.Adj (without (gone ++ victims graph fuel state)) other := by
  induction fuel generalizing state gone with
  | zero =>
    have hempty := Finset.card_eq_zero.mp (Nat.le_zero.mp hfuel)
    simp only [victims, append_nil]
    exact ⟨hbreaks, hplaced.not_behindCycle hgone hempty⟩
  | succ fuel ih =>
    have hstep := step_cases hcounted hplaced
    unfold step at hstep
    unfold victims
    cases hmin : state.ready.min? with
    | some first =>
      simp only [hmin, reduceCtorEq, false_and, false_or] at hstep
      obtain ⟨settled, hsettled, next, hnext, hcounted', hplaced', hleft⟩ := hstep
      obtain rfl := Option.some.inj hnext
      refine ih hcounted' hplaced' ?_ hbreaks ?_
      · intro other
        rw [(State.dropEdges_frame _ _).1]
        exact hgone other
      · rw [hleft, Finset.card_erase_of_mem hsettled]
        omega
    | none =>
      cases hvictim : state.victim n with
      | some last =>
        simp only [hmin, hvictim, reduceCtorEq, false_and, false_or] at hstep
        obtain ⟨settled, hsettled, next, hnext, hcounted', hplaced', hleft⟩ := hstep
        obtain rfl := Option.some.inj hnext
        have hgreatest : IsGreatest {node | BehindCycle graph.Adj (without gone) node} last := by
          simp only [behindCycle_iff_of_stalled hplaced hgone hcounted hmin]
          exact isGreatest_victim hvictim
        dsimp only
        rw [append_cons]
        refine ih hcounted' hplaced' ?_ (hbreaks.reject hgreatest) ?_
        · intro other
          rw [(State.dropEdges_frame _ _).1, mem_append, mem_singleton, ← hgone]
          by_cases heq : other = last <;> simp [State.refuse, heq]
        · rw [hleft, Finset.card_erase_of_mem hsettled]
          omega
      | none =>
        simp only [hmin, hvictim, true_and, reduceCtorEq, false_and, and_false,
          exists_false, or_false] at hstep
        simp only [append_nil]
        exact ⟨hbreaks, hplaced.not_behindCycle hgone hstep⟩

theorem rejected_run_iff (fuel : Nat) (state : State) (node : Nat) :
    (run graph fuel state).rejected node = true ↔
      state.rejected node = true ∨ node ∈ victims graph fuel state := by
  induction fuel generalizing state with
  | zero => simp [run, victims]
  | succ fuel ih =>
    unfold run victims step
    cases hmin : state.ready.min? with
    | some first =>
      dsimp only
      rw [ih, (State.dropEdges_frame _ _).1]
      rfl
    | none =>
      cases hvictim : state.victim n with
      | some last =>
        dsimp only
        rw [ih, (State.dropEdges_frame _ _).1, mem_cons]
        by_cases heq : node = last <;> simp [State.refuse, heq]
      | none => simp

theorem Breaks.split {all : List Nat} (hbreaks : Breaks graph all) :
    ∀ {rest : List Nat}, all = gone ++ node :: rest →
      Breaks graph gone ∧ IsGreatest {node | BehindCycle graph.Adj (without gone) node} node := by
  induction hbreaks with
  | start =>
    intro rest hsplit
    simp at hsplit
  | reject hbefore hgreatest ih =>
    intro rest hsplit
    obtain rfl | ⟨rest, last, rfl⟩ := rest.eq_nil_or_concat'
    · obtain ⟨rfl, hlast⟩ := append_inj' hsplit rfl
      obtain rfl := singleton_inj.mp hlast
      exact ⟨hbefore, hgreatest⟩
    · rw [← cons_append, ← append_assoc] at hsplit
      exact ih (append_inj' hsplit rfl).1

theorem Breaks.behindCycle_lt (hbreaks : Breaks graph gone) :
    ∀ earlier ∈ gone, BehindCycle graph.Adj (without gone) node → node < earlier := by
  induction hbreaks with
  | start => exact fun _ hearlier => absurd hearlier not_mem_nil
  | @reject gone last _ hgreatest ih =>
    intro earlier hearlier hbehind
    have hbefore : BehindCycle graph.Adj (without gone) node := by
      refine hbehind.mono ?_
      intro other hkept hgone
      exact hkept (mem_append_left _ hgone)
    obtain hearlier | hearlier := mem_append.mp hearlier
    · exact ih earlier hearlier hbefore
    · rw [mem_singleton.mp hearlier]
      refine (hgreatest.2 hbefore).lt_of_ne ?_
      rintro rfl
      exact hbehind.mem (mem_append_right _ mem_cons_self)

/-- A node that a cycle of the nodes up to it reaches is rejected when all
larger ones that are rejected are gone. -/
theorem Breaks.exists_split {all : List Nat} (hall : Breaks graph all)
    (hend : ∀ other, ¬ BehindCycle graph.Adj (without all) other)
    (hbehind : BehindCycle graph.Adj (Set.Iic node) node) (gone rest : List Nat)
    (hsplit : all = gone ++ rest) (hgone : ∀ earlier ∈ gone, node < earlier) :
    ∃ before after, all = before ++ node :: after ∧ ∀ earlier ∈ before, node < earlier := by
  induction rest generalizing gone with
  | nil =>
    rw [append_nil] at hsplit
    subst hsplit
    exact absurd (hbehind.mono fun _ hle hmem => (hgone _ hmem).not_ge hle) (hend node)
  | cons next rest ih =>
    have hkept : BehindCycle graph.Adj (without gone) node :=
      hbehind.mono fun _ hle hmem => (hgone _ hmem).not_ge hle
    obtain rfl | hlt := ((hall.split hsplit).2.2 hkept).eq_or_lt
    · exact ⟨gone, rest, hsplit, hgone⟩
    · refine ih (gone ++ [next]) (by rw [hsplit, append_cons]) ?_
      exact forall_mem_append.mpr ⟨hgone, by simpa using hlt⟩

section Start

variable {inDegree : Nat → Nat} (hdegree : ∀ node, inDegree node =
  ((Finset.range n).filter fun other => node ∈ graph.out other).card)
include hdegree

theorem breaks_start : Breaks graph (victims graph n (start n inDegree)) ∧
    ∀ other, ¬ BehindCycle graph.Adj (without (victims graph n (start n inDegree))) other :=
  breaks_victims (counted_start hdegree) (placed_start graph inDegree) (by simp [start])
    (show Breaks graph [] from .start) ((Finset.card_filter_le _ _).trans (Finset.card_range n).le)

/-- Every node a run rejects is on a cycle exactly if every node that a cycle
of the nodes up to it reaches is on such a cycle. -/
theorem onCycle_victims_iff :
    (∀ gone node rest, victims graph n (start n inDegree) = gone ++ node :: rest →
      OnCycle graph.Adj (without gone) node) ↔
    ∀ node, BehindCycle graph.Adj (Set.Iic node) node → OnCycle graph.Adj (Set.Iic node) node := by
  obtain ⟨hall, hend⟩ := breaks_start hdegree
  constructor
  · intro hcycles node hbehind
    obtain ⟨gone, rest, hsplit, -⟩ := hall.exists_split hend hbehind [] _ rfl
      fun _ h => absurd h not_mem_nil
    exact (hcycles gone node rest hsplit).restrict fun _ hother =>
      (hall.split hsplit).2.2 hother
  · intro hcycles gone node rest hsplit
    obtain ⟨hbreaks, hgreatest⟩ := hall.split hsplit
    have hupTo := hcycles node (hgreatest.1.restrict fun _ hother => hgreatest.2 hother)
    exact hupTo.mono fun _ hle hmem =>
      (hbreaks.behindCycle_lt _ hmem hgreatest.1).not_ge hle

end Start

end CycleBreaking
