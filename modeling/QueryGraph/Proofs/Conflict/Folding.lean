import QueryGraph.Proofs.Conflict.Rules

/-!
# What folding keeps of the rules

The rules of a join are folded into its hyperedge, and those that do not fit into it are kept. Nothing
is lost by this: a set of nodes with both ends of the edge obeys the rules that were kept just when
it obeys all of them. Nothing is added either, unless the set that the join waits for had to be
widened by a whole side: a set that contains the nodes of the join's own conditions obeys all rules
just when it contains both ends of the edge and obeys the rules that were kept.
-/

namespace QueryGraph.JoinNode

open BitSet ConflictRule

/-- The nodes that a join waits for, where its conditions read the nodes `used`. -/
def waiting (n : JoinNode) (used : NodeSet) : NodeSet :=
  (fold n.conflictRules used n.left.nodes n.right.nodes).1

/-- The hyperedge of a join, whose conditions read the nodes `used`, and the rules kept on it stand for
the rules of the join. -/
structure FoldsExactly (n : JoinNode) (used : NodeSet) : Prop where
  /-- On sets with both ends of the edge, the rules that were kept say what all rules say. -/
  kept_iff : ∀ s, (n.hyperedge used).1.left ⊆ s → (n.hyperedge used).1.right ⊆ s →
    ((∀ r ∈ n.conflictRules, r.Obeyed s) ↔ ∀ r ∈ (n.hyperedge used).2, r.Obeyed s)
  /-- If the fold reaches both sides by itself, edge and kept rules together ask for no more than
  the rules do. -/
  edge_iff : (saturate n.conflictRules used).1.overlaps n.left.nodes = true →
    (saturate n.conflictRules used).1.overlaps n.right.nodes = true → ∀ s, used ⊆ s →
    ((∀ r ∈ n.conflictRules, r.Obeyed s) ↔ (n.hyperedge used).1.left ⊆ s ∧
      (n.hyperedge used).1.right ⊆ s ∧ ∀ r ∈ (n.hyperedge used).2, r.Obeyed s)
  /-- The ends of the edge are what the join waits for on either side. -/
  ends : (n.hyperedge used).1 = ⟨n.waiting used ∩ n.left.nodes, n.waiting used ∩ n.right.nodes⟩
  /-- The rules that were kept, in their order, are those that require more than the join waits
  for. -/
  kept : (n.hyperedge used).2 = n.conflictRules.filter fun r => ¬ r.requires ⊆ n.waiting used
  /-- No rule that was kept is active at an end of the edge. -/
  inactive : ∀ r ∈ (n.hyperedge used).2,
    r.activates.overlaps (n.hyperedge used).1.left = false ∧
      r.activates.overlaps (n.hyperedge used).1.right = false

variable {n : JoinNode} {used : NodeSet}

theorem settled_hyperedge (n : JoinNode) (used : NodeSet) :
    Settled n.conflictRules (n.waiting used, (n.hyperedge used).2) :=
  settled_fold n.conflictRules used n.left.nodes n.right.nodes

/-- A set with both ends of the edge contains every node below the join that the join waits for. -/
theorem mem_of_waiting (hn : n.tree.Numbered) {s : NodeSet} (hl : (n.hyperedge used).1.left ⊆ s)
    (hr : (n.hyperedge used).1.right ⊆ s) {v : Nat} (hv : v ∈ n.waiting used)
    (hvn : v ∈ n.tree.nodes) : v ∈ s := by
  rw [tree, hn.nodes_join, mem_union] at hvn
  rcases hvn with hvn | hvn
  · exact subset_iff.1 hl v (mem_inter.2 ⟨hv, hvn⟩)
  · exact subset_iff.1 hr v (mem_inter.2 ⟨hv, hvn⟩)

/-- A rule that was not kept is met by every set with both ends of the edge. -/
theorem requires_subset_of_ends (hn : n.tree.Numbered) {s : NodeSet}
    (hl : (n.hyperedge used).1.left ⊆ s) (hr : (n.hyperedge used).1.right ⊆ s) {r : ConflictRule}
    (hmem : r ∈ n.conflictRules) (hmet : r.requires ⊆ n.waiting used) : r.requires ⊆ s :=
  subset_iff.2 fun v hv =>
    mem_of_waiting hn hl hr (subset_iff.1 hmet v hv) (subset_iff.1 (requires_subset hn hmem) v hv)

theorem obeyed_iff_kept (hn : n.tree.Numbered) {s : NodeSet} (hl : (n.hyperedge used).1.left ⊆ s)
    (hr : (n.hyperedge used).1.right ⊆ s) :
    (∀ r ∈ n.conflictRules, r.Obeyed s) ↔ ∀ r ∈ (n.hyperedge used).2, r.Obeyed s := by
  have hkept := (settled_hyperedge n used).rest
  constructor
  · intro h r hmem
    exact h r (mem_unmet.1 (hkept ▸ hmem)).1
  · intro h r hmem
    by_cases hmet : r.requires ⊆ n.waiting used
    · exact fun _ => requires_subset_of_ends hn hl hr hmem hmet
    · exact h r (hkept ▸ mem_unmet.2 ⟨hmem, hmet⟩)

/-- Folding the rules of a join into its hyperedge is exact. -/
theorem hyperedge_exact (hn : n.tree.Numbered) (used : NodeSet) : n.FoldsExactly used where
  kept_iff _ hl hr := obeyed_iff_kept hn hl hr
  edge_iff hl hr s hs := by
    have hwaiting : n.waiting used = (saturate n.conflictRules used).1 := by
      rw [waiting, fold_eq_saturate hl hr]
    constructor
    · intro h
      have hsub : n.waiting used ⊆ s := hwaiting ▸ saturate_subset hs h
      have hleft : (n.hyperedge used).1.left ⊆ s := Subset.trans (inter_subset_left _ _) hsub
      have hright : (n.hyperedge used).1.right ⊆ s := Subset.trans (inter_subset_left _ _) hsub
      exact ⟨hleft, hright, (obeyed_iff_kept hn hleft hright).1 h⟩
    · rintro ⟨hleft, hright, h⟩
      exact (obeyed_iff_kept hn hleft hright).2 h
  ends := rfl
  kept := (settled_hyperedge n used).rest
  inactive r hr := by
    have hoff := overlaps_eq_false_iff.1 ((settled_hyperedge n used).inactive hr)
    constructor
    · exact overlaps_eq_false_iff.2 fun v hv hw => hoff v hv (mem_inter.1 hw).1
    · exact overlaps_eq_false_iff.2 fun v hv hw => hoff v hv (mem_inter.1 hw).1

/-- Nodes that are not below the join do not matter to its edge. -/
theorem hyperedge_inter (hn : n.tree.Numbered) (used : NodeSet) :
    n.hyperedge (used ∩ n.tree.nodes) = n.hyperedge used := by
  have hleft : n.left.nodes ⊆ n.tree.nodes := nodes_side_subset hn .left
  have hright : n.right.nodes ⊆ n.tree.nodes := nodes_side_subset hn .right
  have hend {side : NodeSet} (h : side ⊆ n.tree.nodes) (s : NodeSet) :
      s ∩ n.tree.nodes ∩ side = s ∩ side := by
    rw [inter_assoc, inter_comm n.tree.nodes, inter_eq_left h]
  simp only [hyperedge, fold_inter (fun r hr => among_of_mem_conflictRules hn hr) hleft hright,
    hend hleft, hend hright]

/-- The join of `t0 × (t1 ⟕ t2)` with `t3` on a condition that reads `t0` and `t3`. The left join below
it asks for a rule that the edge cannot express. -/
def guarded : JoinNode :=
  let table (i : Nat) : Tree := .leaf i { table := ⟨i, "t"⟩, nodes := {i} }
  let x (i : Nat) : Expr := .column ⟨i, "t", "x", .int⟩
  let outer : JoinInfo :=
    { kind := .left, conds := [(x 1).equals (x 2)], usedNodes := {1, 2}, nodes := {1, 2} }
  let product : JoinInfo := { kind := .inner, conds := [], nodes := {0, 1, 2} }
  { id := 6
    info := { kind := .inner, conds := [(x 0).equals (x 3)], nodes := {0, 1, 2, 3} }
    left := .join 5 product (table 0) (.join 4 outer (table 1) (table 2))
    right := table 3 }

theorem hyperedge_exact_guarded : guarded.tree.Numbered ∧ guarded.FoldsExactly {0, 3} :=
  ⟨by decide, hyperedge_exact (by decide) {0, 3}⟩

/-- `t2` waits for `t1`. -/
example : guarded.hyperedge {0, 3} = (⟨{0}, {3}⟩, [⟨{2}, {1}⟩]) := by decide +kernel

end QueryGraph.JoinNode
