import QueryGraph.Conflict.Detection
import QueryGraph.Proofs.Conflict.Saturation
import QueryGraph.Tree.Pushdown

/-!
# The rules of a join

A join `n` above a join `a` blocks at most two exchanges, one for each side of `a` on which the rest
of the tree may be attached, and has one rule for each that it blocks: `mem_conflictRules`. Told by
sides, the four verdicts on two joins are one, `exchanges`, and so are the four kinds of rules.

The nodes of a tree that has been numbered are those of its leaves (`Numbered`), so the rules of a join
speak of nodes below it only.
-/

namespace QueryGraph

open BitSet

/-! ### Numbered trees -/

namespace Tree

/-- The nodes of every join are those of its two sides, which have none in common, and every table
has a node. -/
def Numbered : Tree → Prop
  | leaf _ l => l.nodes ≠ ∅
  | join _ info l r =>
    info.nodes = l.nodes ∪ r.nodes ∧ l.nodes.overlaps r.nodes = false ∧ l.Numbered ∧ r.Numbered

instance decidableNumbered : (t : Tree) → Decidable t.Numbered
  | leaf _ l => inferInstanceAs (Decidable (l.nodes ≠ ∅))
  | join _ info l r =>
    have := decidableNumbered l
    have := decidableNumbered r
    inferInstanceAs (Decidable (info.nodes = l.nodes ∪ r.nodes ∧
      l.nodes.overlaps r.nodes = false ∧ l.Numbered ∧ r.Numbered))

theorem Numbered.nodes_join {i : Nat} {info : JoinInfo} {l r : Tree}
    (h : (join i info l r).Numbered) : (join i info l r).nodes = l.nodes ∪ r.nodes := h.1

theorem Numbered.nodes_ne_empty {t : Tree} (h : t.Numbered) : t.nodes ≠ ∅ := by
  induction t with
  | leaf i l => exact h
  | join i info l r ihl ihr =>
    obtain ⟨v, hv⟩ := ne_empty_iff.1 (ihl h.2.2.1)
    exact ne_empty_iff.2 ⟨v, h.nodes_join ▸ mem_union.2 (.inl hv)⟩

end Tree

namespace JoinNode

/-- The join with everything below it. -/
def tree (n : JoinNode) : Tree := .join n.id n.info n.left n.right

/-- A side of the join. -/
def side (n : JoinNode) : Side → Tree
  | .left => n.left
  | .right => n.right

/-- The joins below a join in a tree are joins of the tree. -/
theorem joins_side_subset {t : Tree} {n a : JoinNode} {s : Side} (hn : n ∈ t.joins)
    (ha : a ∈ (n.side s).joins) : a ∈ t.joins := by
  induction t with
  | leaf i l => exact nomatch hn
  | join i info l r ihl ihr =>
    simp only [Tree.joins, List.mem_append, List.mem_singleton] at hn ⊢
    rcases hn with (hn | hn) | rfl
    · exact .inl (.inl (ihl hn))
    · exact .inl (.inr (ihr hn))
    · cases s
      · exact .inl (.inl ha)
      · exact .inl (.inr ha)

/-- The join is numbered and so are its sides. -/
theorem numbered_of_mem {t : Tree} (ht : t.Numbered) {n : JoinNode} (hn : n ∈ t.joins) :
    n.tree.Numbered ∧ n.tree.nodes ⊆ t.nodes := by
  induction t with
  | leaf i l => exact nomatch hn
  | join i info l r ihl ihr =>
    have hnodes := ht.nodes_join
    have hl := ht.2.2.1
    have hr := ht.2.2.2
    simp only [Tree.joins, List.mem_append, List.mem_singleton] at hn
    rcases hn with (hn | hn) | rfl
    · refine ⟨(ihl hl hn).1, Subset.trans (ihl hl hn).2 ?_⟩
      exact hnodes ▸ subset_union_left l.nodes r.nodes
    · refine ⟨(ihr hr hn).1, Subset.trans (ihr hr hn).2 ?_⟩
      exact hnodes ▸ subset_union_right l.nodes r.nodes
    · exact ⟨ht, Subset.refl _⟩

theorem numbered_side {n : JoinNode} (hn : n.tree.Numbered) (s : Side) : (n.side s).Numbered := by
  cases s
  · exact hn.2.2.1
  · exact hn.2.2.2

theorem nodes_side_subset {n : JoinNode} (hn : n.tree.Numbered) (s : Side) :
    (n.side s).nodes ⊆ n.tree.nodes := by
  rw [tree, hn.nodes_join]
  cases s
  · exact subset_union_left _ _
  · exact subset_union_right _ _

/-- The two sides have no node in common. -/
theorem not_mem_other_side {n : JoinNode} (hn : n.tree.Numbered) {s : Side} {v : Nat}
    (hv : v ∈ (n.side s).nodes) : v ∉ (n.side s.other).nodes := by
  have hlr := overlaps_eq_false_iff.1 hn.2.1
  cases s
  · exact hlr v hv
  · exact fun hl => hlr v hl hv

/-! ### Exchanges by sides -/

/-- Whether `a`, below `n` on the side `s`, may change places with `n` when what is between them is on
the side `sa` of `a`. -/
def exchanges (n : JoinNode) (s : Side) (a : JoinNode) : Side → Bool
  | .left => match s with
    | .left => a.operator.leftAsscom n.operator
    | .right => n.operator.associative a.operator
  | .right => match s with
    | .left => a.operator.associative n.operator
    | .right => n.operator.rightAsscom a.operator

/-- The rule that keeps `n` from changing places with `a`: nodes of the side `sa` of `a` wait for
those of its other side that the conditions of `a` read. -/
def blocking (a : JoinNode) (sa : Side) : ConflictRule :=
  ⟨(a.side sa).nodes, wantedOrAll a.info.usedNodes (a.side sa.other).nodes⟩

theorem mem_rulesFromLeft {n a : JoinNode} {r : ConflictRule} :
    r ∈ n.rulesFromLeft a ↔ ∃ sa, n.exchanges .left a sa = false ∧ r = a.blocking sa := by
  simp only [rulesFromLeft, List.mem_append]
  constructor
  · rintro (h | h)
    · split at h
      · exact nomatch h
      next hx => exact ⟨.right, by simpa [exchanges] using hx, List.mem_singleton.1 h⟩
    · split at h
      · exact nomatch h
      next hx => exact ⟨.left, by simpa [exchanges] using hx, List.mem_singleton.1 h⟩
  · rintro ⟨sa, hx, rfl⟩
    cases sa
    · exact .inr (by simp [show a.operator.leftAsscom n.operator = false from hx, blocking, side,
        Side.other])
    · exact .inl (by simp [show a.operator.associative n.operator = false from hx, blocking, side,
        Side.other])

theorem mem_rulesFromRight {n a : JoinNode} {r : ConflictRule} :
    r ∈ n.rulesFromRight a ↔ ∃ sa, n.exchanges .right a sa = false ∧ r = a.blocking sa := by
  simp only [rulesFromRight, List.mem_append]
  constructor
  · rintro (h | h)
    · split at h
      · exact nomatch h
      next hx => exact ⟨.left, by simpa [exchanges] using hx, List.mem_singleton.1 h⟩
    · split at h
      · exact nomatch h
      next hx => exact ⟨.right, by simpa [exchanges] using hx, List.mem_singleton.1 h⟩
  · rintro ⟨sa, hx, rfl⟩
    cases sa
    · exact .inl (by simp [show n.operator.associative a.operator = false from hx, blocking, side,
        Side.other])
    · exact .inr (by simp [show n.operator.rightAsscom a.operator = false from hx, blocking, side,
        Side.other])

/-- A join has one rule for every exchange with a join below it that it blocks. -/
theorem mem_conflictRules {n : JoinNode} {r : ConflictRule} :
    r ∈ n.conflictRules ↔
      ∃ s, ∃ a ∈ (n.side s).joins, ∃ sa, n.exchanges s a sa = false ∧ r = a.blocking sa := by
  simp only [conflictRules, List.mem_append, List.mem_flatMap, mem_rulesFromLeft,
    mem_rulesFromRight]
  constructor
  · rintro (h | h)
    · exact ⟨.left, h⟩
    · exact ⟨.right, h⟩
  · rintro ⟨s, h⟩
    cases s
    · exact .inl h
    · exact .inr h

/-- The rules of a join speak of nodes below it. -/
theorem among_of_mem_conflictRules {n : JoinNode} (hn : n.tree.Numbered) {r : ConflictRule}
    (hr : r ∈ n.conflictRules) : r.Among n.tree.nodes := by
  obtain ⟨s, a, ha, sa, -, rfl⟩ := mem_conflictRules.1 hr
  obtain ⟨hna, hsub⟩ := numbered_of_mem (numbered_side hn s) ha
  have hside (sa : Side) : (a.side sa).nodes ⊆ n.tree.nodes :=
    Subset.trans (nodes_side_subset hna sa) (Subset.trans hsub (nodes_side_subset hn s))
  exact ⟨hside sa, Subset.trans (wantedOrAll_subset _ _) (hside sa.other)⟩

/-- The rules of a join require nodes below it. -/
theorem requires_subset {n : JoinNode} (hn : n.tree.Numbered) {r : ConflictRule}
    (hr : r ∈ n.conflictRules) : r.requires ⊆ n.tree.nodes :=
  (among_of_mem_conflictRules hn hr).requires_subset

end JoinNode

end QueryGraph
