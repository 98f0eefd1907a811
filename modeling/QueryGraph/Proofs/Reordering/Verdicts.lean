import QueryGraph.Proofs.Conflict.Rules
import QueryGraph.Proofs.Meaning.Dialect
import QueryGraph.Proofs.Rows.Exchange

/-!
# The verdicts on two joins

What the program's verdict on two joins says of their results.

## The model

A join `n` above a join `a` may change places with it if each lets the rows pass that the other one
keeps without a partner (`Exchangeable`). That is the condition of `Branch.apply_comm` on two joins of
a tree, each seen from one of its sides. Rows pass a join that keeps them although it finds no partner
for them, which it does not if it refuses rows without one of its sides (`Refuses`).

Whether a join refuses such rows is judged by the tables on which its conditions are said to reject
NULL (`rejects`). With that for `Refuses`, the verdict of the program (`exchanges`) is positive just
when the joins are exchangeable, with one exception (`Mistaken`): for a left join above the left side
of a full join it asks whether the left join rejects NULL on its right side, where the left side is
what matters.

## What is proved

* `exchanges_iff` — what a positive verdict says, except for that one.
* `Exchangeable.trans` — with a join between them that is exchangeable with both, so are the two.
* `refuses_of_rejects` — a join refuses rows without a side if its conditions reject NULL as said.
-/

namespace QueryGraph

open BitSet

variable {R : Type}

/-- The tables on which an expression rejects NULL are among those that it reads. -/
theorem Expr.rejected_subset (e : Expr) : e.rejected ⊆ e.tables := by
  have hlist {es : List Expr} (ih : ∀ e ∈ es, e.rejected ⊆ e.tables) :
      BitSet.unions (rejected.list es) ⊆ .unions (tables.list es) := by
    rw [rejected.list_eq_map, tables.list_eq_map]
    refine subset_iff.2 fun i hi => ?_
    obtain ⟨s, hs, hi⟩ := mem_unions.1 hi
    obtain ⟨e, he, rfl⟩ := List.mem_map.1 hs
    exact mem_unions.2 ⟨e.tables, List.mem_map_of_mem he, subset_iff.1 (ih e he) i hi⟩
  have hempty (ts : TableSet) : (∅ : TableSet) ⊆ ts :=
    subset_iff.2 fun i hi => absurd hi (not_mem_empty i)
  induction e with
  | column c => exact Subset.refl _
  | compare op l r ihl ihr =>
    have hunion : l.rejected ∪ r.rejected ⊆ l.tables ∪ r.tables :=
      union_subset (Subset.trans ihl (subset_union_left _ _))
        (Subset.trans ihr (subset_union_right _ _))
    cases op <;> first | exact hempty _ | exact hunion
  | rowEq l r ihl ihr =>
    exact union_subset (Subset.trans (hlist ihl) (subset_union_left _ _))
      (Subset.trans (hlist ihr) (subset_union_right _ _))
  | allEqual ms ih => exact hlist ih
  | and args ih => exact hlist ih
  | or args ih =>
    refine subset_iff.2 fun i hi => ?_
    rw [rejected, rejected.list_eq_map, mem_intersections] at hi
    obtain ⟨e, he⟩ := List.exists_mem_of_ne_nil args fun h => hi.1 (by rw [h]; rfl)
    rw [tables, tables.list_eq_map]
    exact mem_unions.2 ⟨e.tables, List.mem_map_of_mem he,
      subset_iff.1 (ih e he) i (hi.2 _ (List.mem_map_of_mem he))⟩
  | cast e t ih => exact ih
  | cached e ih => exact ih
  | _ => exact hempty _

/-- The condition is not true of rows that take nothing from a table which it is said to reject. -/
def Meaning.RejectsRightly (m : Meaning R) (c : Expr) : Prop :=
  ∀ i ∈ c.rejected, ∀ x : Row R, x i = none → m.holds c x = false

namespace JoinNode

variable {m : Meaning R}

/-- The join rejects NULL on a side, as far as the program can tell. -/
def rejects (n : JoinNode) (s : Side) : Bool := n.operator.rejectsNull (n.side s).tables

/-- Rows that take nothing from the tables that the join reads on a side do not go through its
conditions. -/
def Refuses (m : Meaning R) (n : JoinNode) (s : Side) : Prop :=
  ∀ x : Row R, (∀ i ∈ (n.side s).tables, i ∈ Expr.tablesOf n.info.allConds → x i = none) →
    m.holdsAll n.info.allConds x = false

/-- A join that rejects NULL on a side refuses rows without that side. -/
theorem refuses_of_rejects {n : JoinNode} {s : Side}
    (hm : ∀ c ∈ n.info.allConds, m.RejectsRightly c) (h : n.rejects s = true) : n.Refuses m s := by
  obtain ⟨c, hc, hoverlap⟩ := List.any_eq_true.1 h
  obtain ⟨i, hside, hi⟩ := overlaps_iff.1 hoverlap
  have htables : i ∈ Expr.tablesOf n.info.allConds :=
    mem_unions.2 ⟨c.tables, List.mem_map_of_mem hc, subset_iff.1 c.rejected_subset i hi⟩
  refine fun x hx => Bool.eq_false_iff.2 fun hall => ?_
  have hholds := m.holdsAll_iff.1 hall c hc
  rw [hm c hc i hi x (hx i hside htables)] at hholds
  cases hholds

/-! ### Exchangeable joins -/

/-- The join `n`, seen from its side `s`, and the join `a`, seen from its side `sa`, let each other's
rows pass. -/
structure Exchangeable (m : Meaning R) (n : JoinNode) (s : Side) (a : JoinNode) (sa : Side) :
    Prop where
  /-- The upper join shows the side. -/
  shown : n.info.kind.shows s = true
  /-- The lower join shows the side. -/
  shown' : a.info.kind.shows sa = true
  /-- What the upper join keeps without a partner passes through the lower one. -/
  passes : n.info.kind.keeps s.other = true → a.info.kind.keeps sa = true ∧ a.Refuses m sa
  /-- What the lower join keeps without a partner passes through the upper one. -/
  passes' : a.info.kind.keeps sa.other = true → n.info.kind.keeps s = true ∧ n.Refuses m s

/-- A join between two others, seen from either side, that is exchangeable with both makes them
exchangeable. -/
theorem Exchangeable.trans {c g a : JoinNode} {s u sa : Side} (h : Exchangeable m c s g u.other)
    (h' : Exchangeable m g u a sa) : Exchangeable m c s a sa where
  shown := h.shown
  shown' := h'.shown'
  passes hk := h'.passes (h.passes hk).1
  passes' hk := h.passes' ((Side.other_other u).symm ▸ (h'.passes' hk).1)

/-- The verdict that looks at the wrong side: on a left join above the left side of a full join, where
what is between them is on the left of the full join. -/
def Mistaken (n : JoinNode) (s : Side) (a : JoinNode) (sa : Side) : Prop :=
  n.info.kind = .left ∧ s = .left ∧ a.info.kind = .full ∧ sa = .left

/-- What a positive verdict says, unless it is the mistaken one. -/
theorem exchanges_iff {n a : JoinNode} {s sa : Side} (h : ¬ Mistaken n s a sa) :
    n.exchanges s a sa = true ↔
      n.info.kind.shows s = true ∧ a.info.kind.shows sa = true ∧
        (n.info.kind.keeps s.other = true → a.info.kind.keeps sa = true ∧ a.rejects sa = true) ∧
        (a.info.kind.keeps sa.other = true → n.info.kind.keeps s = true ∧ n.rejects s = true) := by
  rw [Mistaken] at h
  cases s <;> cases sa <;> cases hn : n.info.kind <;> cases ha : a.info.kind <;>
    simp_all [exchanges, Operator.associative, Operator.leftAsscom, Operator.rightAsscom, operator,
      JoinKind.shows, JoinKind.keeps, Side.other, rejects, side]
  -- the program names the two joins in another order
  · exact and_comm
  · exact and_comm

/-- Joins with a positive verdict are exchangeable, if both refuse what they are said to reject and
the verdict was not given by mistake. -/
theorem exchangeable_of_exchanges {n a : JoinNode} {s sa : Side} (h : n.exchanges s a sa = true)
    (hn : ∀ u, n.rejects u = true → n.Refuses m u) (ha : ∀ u, a.rejects u = true → a.Refuses m u)
    (hstands : Mistaken n s a sa → n.rejects .right = true → n.Refuses m .left) :
    Exchangeable m n s a sa := by
  by_cases hmistaken : Mistaken n s a sa
  · have hleft := hstands hmistaken
    obtain ⟨hkind, rfl, hkind', rfl⟩ := hmistaken
    have hright : n.rejects .right = true := by
      simpa [exchanges, Operator.leftAsscom, operator, hkind, hkind', rejects, side] using h
    constructor <;> simp [hkind, hkind', JoinKind.shows, JoinKind.keeps, Side.other, hleft hright]
  · obtain ⟨hshown, hshown', hpasses, hpasses'⟩ := (exchanges_iff hmistaken).1 h
    exact ⟨hshown, hshown', fun hk => (hpasses hk).imp_right (ha sa),
      fun hk => (hpasses' hk).imp_right (hn s)⟩

end JoinNode

end QueryGraph
