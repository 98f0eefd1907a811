import QueryGraph.Proofs.Meaning.Trees
import QueryGraph.Proofs.Reordering.Verdicts

/-!
# Parts of a tree

What a tree returns on some of its nodes.

## The model

The part of a tree on a set of nodes has the tables with these nodes, and of the joins those that have
some of them on either side. Other joins have lost a side and are left out (`rowsOn`).

## What is proved

* `rowsOn_side`, `rowsOn_both` — a part lies on one side of a join or is a join of two parts.
* `rowsOn_of_subset` — the part on all nodes is the tree.
* `not_mem_tablesOn` — parts on different nodes have no table in common.
-/

namespace QueryGraph

open BitSet

variable {R : Type} {m : Meaning R} {db : Contents R}

namespace Tree

/-- Induction on trees, both sides of a join at once. -/
theorem inductSides {motive : Tree → Prop} (leaf : ∀ i l, motive (leaf i l))
    (join : ∀ n : JoinNode, (∀ s, motive (n.side s)) → motive n.tree) (t : Tree) : motive t := by
  induction t with
  | leaf i l => exact leaf i l
  | join i info l r ihl ihr => exact join ⟨i, info, l, r⟩ fun s => by cases s <;> assumption

/-- The joins of a tree are the one at its root and those of its sides. -/
theorem mem_joins_tree {n a : JoinNode} :
    a ∈ n.tree.joins ↔ a = n ∨ ∃ s, a ∈ (n.side s).joins := by
  rw [JoinNode.tree, joins, List.mem_append, List.mem_append, List.mem_singleton, or_comm,
    Side.exists_side]
  rfl

/-- The rows of the part of a tree on some of its nodes, if there is such a part. -/
def rowsOn (m : Meaning R) (db : Contents R) (q : NodeSet) : Tree → Option (Bag R)
  | leaf i l => if l.nodes.overlaps q then some ((leaf i l).rows m db) else none
  | join _ info l r => match l.rowsOn m db q, r.rowsOn m db q with
    | some a, some b => some (info.kind.rows (m.holdsAll info.allConds) a b)
    | some a, none => some a
    | none, b => b

/-- The tables of the part of a tree on some of its nodes. -/
def tablesOn (q : NodeSet) : Tree → TableSet
  | leaf _ l => if l.nodes.overlaps q then {l.table.number} else ∅
  | join _ _ l r => l.tablesOn q ∪ r.tablesOn q

/-- The nodes of the tables among these. -/
def nodesAmong (ts : TableSet) : Tree → NodeSet
  | leaf _ l => if ts.overlaps {l.table.number} then l.nodes else ∅
  | join _ _ l r => l.nodesAmong ts ∪ r.nodesAmong ts

/-- No table has two nodes. -/
def OneEach : Tree → Prop
  | leaf _ l => ∀ v ∈ l.nodes, ∀ w ∈ l.nodes, v = w
  | join _ _ l r => l.OneEach ∧ r.OneEach

theorem mem_nodes_tree {n : JoinNode} (hn : n.tree.Numbered) {v : Nat} :
    v ∈ n.tree.nodes ↔ ∃ s, v ∈ (n.side s).nodes := by
  rw [JoinNode.tree, hn.nodes_join, mem_union, Side.exists_side]
  rfl

theorem mem_tables_tree {n : JoinNode} {i : Nat} :
    i ∈ n.tree.tables ↔ ∃ s, i ∈ (n.side s).tables := by
  rw [JoinNode.tree, tables, mem_union, Side.exists_side]
  rfl

theorem mem_tablesOn_tree {n : JoinNode} {q : NodeSet} {i : Nat} :
    i ∈ n.tree.tablesOn q ↔ ∃ s, i ∈ (n.side s).tablesOn q := by
  rw [JoinNode.tree, tablesOn, mem_union, Side.exists_side]
  rfl

theorem mem_nodesAmong_tree {n : JoinNode} {ts : TableSet} {v : Nat} :
    v ∈ n.tree.nodesAmong ts ↔ ∃ s, v ∈ (n.side s).nodesAmong ts := by
  rw [JoinNode.tree, nodesAmong, mem_union, Side.exists_side]
  rfl

/-! ### What a part consists of -/

theorem overlaps_tree {n : JoinNode} (hn : n.tree.Numbered) {q : NodeSet} :
    n.tree.nodes.overlaps q = true ↔ ∃ s, (n.side s).nodes.overlaps q = true := by
  simp only [overlaps_iff, mem_nodes_tree hn]
  exact ⟨fun ⟨v, ⟨s, hv⟩, hq⟩ => ⟨s, v, hv, hq⟩, fun ⟨s, v, hv, hq⟩ => ⟨v, ⟨s, hv⟩, hq⟩⟩

theorem rowsOn_tree (n : JoinNode) (q : NodeSet) :
    n.tree.rowsOn m db q = match n.left.rowsOn m db q, n.right.rowsOn m db q with
      | some a, some b => some (n.info.kind.rows (m.holdsAll n.info.allConds) a b)
      | some a, none => some a
      | none, b => b := rfl

/-- A tree has a part on some nodes just when they are among its own. -/
theorem rowsOn_isSome {t : Tree} (ht : t.Numbered) {q : NodeSet} :
    (t.rowsOn m db q).isSome = t.nodes.overlaps q := by
  induction t using inductSides with
  | leaf i l =>
    rw [rowsOn, nodes]
    split <;> simp_all
  | join n ih =>
    have hl := ih .left (JoinNode.numbered_side ht .left)
    have hr := ih .right (JoinNode.numbered_side ht .right)
    rw [Bool.eq_iff_iff, overlaps_tree ht, Side.exists_side, ← hl, ← hr, rowsOn_tree]
    show _ ↔ (n.left.rowsOn m db q).isSome = true ∨ (n.right.rowsOn m db q).isSome = true
    cases n.left.rowsOn m db q <;> cases n.right.rowsOn m db q <;> simp

theorem rowsOn_eq_none {t : Tree} (ht : t.Numbered) {q : NodeSet} (h : t.nodes.overlaps q = false) :
    t.rowsOn m db q = none := by
  rw [← Option.isNone_iff_eq_none, ← Option.not_isSome, rowsOn_isSome ht, h]
  rfl

theorem exists_rowsOn {t : Tree} (ht : t.Numbered) {q : NodeSet} (h : t.nodes.overlaps q = true) :
    ∃ b, t.rowsOn m db q = some b := by
  rw [← Option.isSome_iff_exists, rowsOn_isSome ht, h]

/-- A part on one side of a join is a part of that side. -/
theorem rowsOn_side {n : JoinNode} (hn : n.tree.Numbered) {s : Side} {q : NodeSet}
    (h : (n.side s.other).nodes.overlaps q = false) :
    n.tree.rowsOn m db q = (n.side s).rowsOn m db q := by
  have hnone : (n.side s.other).rowsOn m db q = none :=
    rowsOn_eq_none (JoinNode.numbered_side hn s.other) h
  cases s with
  | left =>
    change n.right.rowsOn m db q = none at hnone
    rw [rowsOn_tree, hnone]
    change _ = n.left.rowsOn m db q
    cases n.left.rowsOn m db q <;> rfl
  | right =>
    change n.left.rowsOn m db q = none at hnone
    rw [rowsOn_tree, hnone]
    rfl

/-- A part on both sides of a join is the join of the two parts. -/
theorem rowsOn_both {n : JoinNode} {s : Side} {q : NodeSet} {b z : Bag R}
    (hb : (n.side s).rowsOn m db q = some b) (hz : (n.side s.other).rowsOn m db q = some z) :
    n.tree.rowsOn m db q = some (n.info.kind.onto s (m.holdsAll n.info.allConds) b z) := by
  cases s with
  | left =>
    change n.left.rowsOn m db q = some b at hb
    change n.right.rowsOn m db q = some z at hz
    rw [rowsOn_tree, hb, hz]
    rfl
  | right =>
    change n.right.rowsOn m db q = some b at hb
    change n.left.rowsOn m db q = some z at hz
    rw [rowsOn_tree, hb, hz]
    rfl

/-- A part depends on the nodes that are in the tree. -/
theorem rowsOn_congr {t : Tree} (ht : t.Numbered) {q q' : NodeSet}
    (h : ∀ v ∈ t.nodes, v ∈ q ↔ v ∈ q') : t.rowsOn m db q = t.rowsOn m db q' := by
  induction t using inductSides with
  | leaf i l =>
    have hoverlaps : l.nodes.overlaps q = l.nodes.overlaps q' := by
      rw [Bool.eq_iff_iff, overlaps_iff, overlaps_iff]
      exact exists_congr fun v => and_congr_right (h v)
    rw [rowsOn, rowsOn, hoverlaps]
  | join n ih =>
    have hside (s : Side) := ih s (JoinNode.numbered_side ht s) fun v hv =>
      h v ((mem_nodes_tree ht).2 ⟨s, hv⟩)
    have hl : n.left.rowsOn m db q = n.left.rowsOn m db q' := hside .left
    have hr : n.right.rowsOn m db q = n.right.rowsOn m db q' := hside .right
    rw [rowsOn_tree, rowsOn_tree, hl, hr]

/-- The part on all nodes is the tree. -/
theorem rowsOn_of_subset {t : Tree} (ht : t.Numbered) {q : NodeSet} (h : t.nodes ⊆ q) :
    t.rowsOn m db q = some (t.rows m db) := by
  induction t using inductSides with
  | leaf i l =>
    obtain ⟨v, hv⟩ := ne_empty_iff.1 ht
    rw [rowsOn, if_pos (overlaps_iff.2 ⟨v, hv, subset_iff.1 h v hv⟩)]
  | join n ih =>
    have hside (s : Side) := ih s (JoinNode.numbered_side ht s)
      (Subset.trans (JoinNode.nodes_side_subset ht s) h)
    exact rowsOn_both (hside .left) (hside .right)

/-! ### Leaves -/

/-- The nodes of a tree are those of its leaves. -/
theorem mem_nodes_leaves {t : Tree} (ht : t.Numbered) {v : Nat} :
    v ∈ t.nodes ↔ ∃ x ∈ t.leaves, v ∈ x.2.nodes := by
  induction t with
  | leaf i l => simp [nodes, leaves]
  | join i info l r ihl ihr =>
    rw [ht.nodes_join, mem_union, ihl ht.2.2.1, ihr ht.2.2.2, leaves]
    simp only [List.mem_append, or_and_right, exists_or]

/-- No node is at two leaves. -/
theorem pairwise_leaves {t : Tree} (ht : t.Numbered) :
    t.leaves.Pairwise fun x y => x.2.nodes.overlaps y.2.nodes = false := by
  induction t with
  | leaf i l => exact List.pairwise_singleton _ _
  | join i info l r ihl ihr =>
    obtain ⟨-, hlr, hl, hr⟩ := ht
    refine List.pairwise_append.2 ⟨ihl hl, ihr hr, fun x hx y hy => ?_⟩
    refine overlaps_eq_false_iff.2 fun v hv hv' => ?_
    exact overlaps_eq_false_iff.1 hlr v ((mem_nodes_leaves hl).2 ⟨x, hx, hv⟩)
      ((mem_nodes_leaves hr).2 ⟨y, hy, hv'⟩)

theorem oneEach_leaf {t : Tree} (h : t.OneEach) {i : Nat} {l : Leaf} (hl : (i, l) ∈ t.leaves) :
    (leaf i l).OneEach := by
  induction t with
  | leaf j k =>
    obtain ⟨rfl, rfl⟩ := Prod.mk.inj (List.mem_singleton.1 hl)
    exact h
  | join j info a b iha ihb =>
    rcases List.mem_append.1 hl with hl | hl
    · exact iha h.1 hl
    · exact ihb h.2 hl

/-- The part on the node of a leaf is the leaf. -/
theorem rowsOn_leaf {t : Tree} (ht : t.Numbered) {i : Nat} {l : Leaf} (hl : (i, l) ∈ t.leaves) :
    t.rowsOn m db l.nodes = some ((leaf i l).rows m db) := by
  induction t using inductSides with
  | leaf j k =>
    obtain ⟨rfl, rfl⟩ := Prod.mk.inj (List.mem_singleton.1 hl)
    exact rowsOn_of_subset ht (Subset.refl l.nodes)
  | join n ih =>
    obtain ⟨s, hs⟩ : ∃ s, (i, l) ∈ (n.side s).leaves := Side.exists_side.2 (List.mem_append.1 hl)
    have hnum (u : Side) := JoinNode.numbered_side ht u
    rw [← ih s (hnum s) hs]
    refine rowsOn_side ht (overlaps_eq_false_iff.2 fun v hv hvl => ?_)
    exact JoinNode.not_mem_other_side ht ((mem_nodes_leaves (hnum s)).2 ⟨_, hs, hvl⟩) hv

/-! ### The tables of a part -/

/-- The rows of a part take nothing from tables outside of it. -/
theorem within_tablesOn {t : Tree} {q : NodeSet} {b : Bag R} (h : t.rowsOn m db q = some b) :
    ∀ x ∈ b, x.Within (t.tablesOn q) := by
  induction t generalizing b with
  | leaf i l =>
    rw [rowsOn] at h
    split at h
    next hq =>
      cases h
      rw [tablesOn, if_pos hq]
      exact within_tables m db (leaf i l)
    next => cases h
  | join i info l r ihl ihr =>
    rw [rowsOn] at h
    rw [tablesOn]
    split at h
    next a c ha hc =>
      cases h
      intro x hx
      exact (JoinKind.within_rows info.kind (ihl ha) (ihr hc) x hx).mono
        (JoinKind.scope_subset _ _ info.kind)
    next a ha hc =>
      cases h
      exact fun x hx => (ihl ha x hx).mono (subset_union_left _ _)
    next ha => exact fun x hx => (ihr h x hx).mono (subset_union_right _ _)

theorem tablesOn_subset (t : Tree) (q : NodeSet) : t.tablesOn q ⊆ t.tables := by
  induction t with
  | leaf i l =>
    rw [tablesOn]
    split
    · exact Subset.refl _
    · exact subset_iff.2 fun i hi => absurd hi (not_mem_empty i)
  | join i info l r ihl ihr =>
    exact union_subset (Subset.trans ihl (subset_union_left _ _))
      (Subset.trans ihr (subset_union_right _ _))

/-- A part with tables has nodes. -/
theorem overlaps_of_mem_tablesOn {t : Tree} (ht : t.Numbered) {q : NodeSet} {i : Nat}
    (h : i ∈ t.tablesOn q) : t.nodes.overlaps q = true := by
  induction t using inductSides with
  | leaf j l =>
    rw [tablesOn] at h
    split at h
    next hq => exact hq
    next => exact absurd h (not_mem_empty i)
  | join n ih =>
    obtain ⟨s, hs⟩ := mem_tablesOn_tree.1 h
    exact (overlaps_tree ht).2 ⟨s, ih s (JoinNode.numbered_side ht s) hs⟩

/-- Parts on different nodes have no table in common. -/
theorem not_mem_tablesOn {t : Tree} (hsep : t.Separate) (hone : t.OneEach) {q q' : NodeSet}
    (h : ∀ v ∈ q, v ∉ q') {i : Nat} (hi : i ∈ t.tablesOn q) : i ∉ t.tablesOn q' := by
  induction t with
  | leaf j l =>
    rw [tablesOn] at hi ⊢
    split at hi
    next hq =>
      obtain ⟨v, hv, hvq⟩ := overlaps_iff.1 hq
      have hq' : l.nodes.overlaps q' = false := overlaps_eq_false_iff.2 fun w hw => by
        rw [hone w hw v hv]
        exact h v hvq
      rw [if_neg (by simp [hq'])]
      exact not_mem_empty i
    next => exact absurd hi (not_mem_empty i)
  | join j info l r ihl ihr =>
    have hlr := not_mem_of_separate hsep
    rw [tablesOn, mem_union] at hi ⊢
    have hl := subset_iff.1 (tablesOn_subset l q) i
    have hr := subset_iff.1 (tablesOn_subset r q) i
    have hl' := subset_iff.1 (tablesOn_subset l q') i
    have hr' := subset_iff.1 (tablesOn_subset r q') i
    rcases hi with hi | hi
    · exact not_or.2 ⟨ihl hsep.2.1 hone.1 hi, fun hi' => hlr i (hl hi) (hr' hi')⟩
    · exact not_or.2 ⟨fun hi' => hlr i (hl' hi') (hr hi), ihr hsep.2.2 hone.2 hi⟩

/-- If the nodes of some tables are elsewhere, none of the tables is in the part. -/
theorem not_mem_tablesOn_of_nodesAmong {t : Tree} {ts : TableSet} {q q' : NodeSet}
    (h : t.nodesAmong ts ⊆ q) (hq : ∀ v ∈ q, v ∉ q') {i : Nat} (hi : i ∈ ts) :
    i ∉ t.tablesOn q' := by
  induction t with
  | leaf j l =>
    rw [tablesOn]
    split
    next hq' =>
      intro hil
      obtain ⟨v, hv, hvq'⟩ := overlaps_iff.1 hq'
      rw [nodesAmong, if_pos (overlaps_iff.2 ⟨i, hi, hil⟩)] at h
      exact hq v (subset_iff.1 h v hv) hvq'
    next => exact not_mem_empty i
  | join j info l r ihl ihr =>
    rw [tablesOn, mem_union, not_or]
    rw [nodesAmong] at h
    exact ⟨ihl (Subset.trans (subset_union_left _ _) h), ihr (Subset.trans (subset_union_right _ _) h)⟩

/-! ### Joins inside a tree -/

theorem separate_side {n : JoinNode} (h : n.tree.Separate) (s : Side) : (n.side s).Separate := by
  cases s
  · exact h.2.1
  · exact h.2.2

theorem oneEach_side {n : JoinNode} (h : n.tree.OneEach) (s : Side) : (n.side s).OneEach := by
  cases s
  · exact h.1
  · exact h.2

/-- No table is on both sides of a join. -/
theorem not_mem_tables_other {n : JoinNode} (h : n.tree.Separate) {s : Side} {i : Nat}
    (hi : i ∈ (n.side s).tables) : i ∉ (n.side s.other).tables := by
  have hlr := not_mem_of_separate h
  cases s
  · exact hlr i hi
  · exact fun hl => hlr i hl hi

theorem tables_side_subset {t : Tree} {a : JoinNode} (ha : a ∈ t.joins) (s : Side) :
    (a.side s).tables ⊆ t.tables := by
  induction t using inductSides with
  | leaf i l => exact nomatch ha
  | join n ih =>
    refine subset_iff.2 fun i hi => mem_tables_tree.2 ?_
    rcases mem_joins_tree.1 ha with rfl | ⟨u, hu⟩
    · exact ⟨s, hi⟩
    · exact ⟨u, subset_iff.1 (ih u hu) i hi⟩

/-- A table of one side of a join that is in a part of the tree is in that part of the side. -/
theorem mem_tablesOn_side {t : Tree} (hsep : t.Separate) {a : JoinNode} (ha : a ∈ t.joins)
    {s : Side} {q : NodeSet} {i : Nat} (hi : i ∈ (a.side s).tables) (hq : i ∈ t.tablesOn q) :
    i ∈ (a.side s).tablesOn q := by
  induction t using inductSides with
  | leaf i l => exact nomatch ha
  | join n ih =>
    obtain ⟨u, hu⟩ := mem_tablesOn_tree.1 hq
    have hiu := subset_iff.1 (tablesOn_subset _ q) i hu
    have hside {u' : Side} (hi : i ∈ (n.side u').tables) : u = u' := by
      rcases Side.eq_or_eq_other u' u with rfl | rfl
      · rfl
      · exact absurd hi (not_mem_tables_other hsep hiu)
    rcases mem_joins_tree.1 ha with rfl | ⟨u', hu'⟩
    · exact hside hi ▸ hu
    · obtain rfl := hside (subset_iff.1 (tables_side_subset hu' s) i hi)
      exact ih u (separate_side hsep u) hu' hu

end Tree

end QueryGraph
