import QueryGraph.Proofs.Planning.Graph

/-!
# The original order of the joins

The two ends of the edge of a join lie below the join, one on either side, and none of them is empty. So
the joins can always be applied in the order in which the query has them, and the graph is connected.

This is so whatever the conditions of the join read, as long as that is below it: a join without
conditions, or with conditions on one side only, has its edge widened by whole sides. And conditions are
below their join after pushing down if they were before.

## What is proved

* `edgeFits` — the edge of a join and its rules fit the join.
* `legal_plan`, `connected_nodes` — hence the plan that follows the tree is legal, and the nodes of the
  tree can be put together.
* `original_order_admitted` — all of it for the graph of a query block.
-/

namespace QueryGraph

open BitSet

/-- The nodes can be put together by edges of the graph, starting from single nodes: an edge puts two sets
of nodes together if each contains one end of it. -/
inductive Hypergraph.Connected (g : Hypergraph) : NodeSet → Prop
  /-- A node by itself. -/
  | node {v : Nat} (hv : v < g.nodes.length) : g.Connected {v}
  /-- Two sets that are put together by an edge. -/
  | edge {e : Hyperedge} {x y : NodeSet} (he : e ∈ g.edges) (hx : g.Connected x) (hy : g.Connected y)
      (hapart : x.overlaps y = false) (hleft : e.left ⊆ x) (hright : e.right ⊆ y) : g.Connected (x ∪ y)

/-- An edge fits a join of the graph: its ends are well formed, and the join may be applied where the tree
has it. -/
structure JoinGraph.EdgeFits (g : JoinGraph) (n : JoinNode) (e : Hyperedge) : Prop where
  /-- The left end has a node. -/
  left_ne_empty : e.left ≠ ∅
  /-- It is on the left side. -/
  left_subset : e.left ⊆ n.left.nodes
  /-- The right end has a node. -/
  right_ne_empty : e.right ≠ ∅
  /-- It is on the right side. -/
  right_subset : e.right ⊆ n.right.nodes
  /-- The ends have no node in common. -/
  apart : e.left.overlaps e.right = false
  /-- The ends contain all nodes that the conditions of the join read. -/
  reads_subset : g.nodeSet (Expr.tablesOf n.info.allConds) ⊆ e.left ∪ e.right
  /-- All nodes below the join together obey its rules. -/
  obeyed : ∀ r ∈ n.info.rules, r.Obeyed n.tree.nodes

/-! ### Edges -/

namespace JoinNode

variable {n : JoinNode}

theorem edge_left_subset (n : JoinNode) : n.edge.left ⊆ n.left.nodes := inter_subset_right _ _

theorem edge_right_subset (n : JoinNode) : n.edge.right ⊆ n.right.nodes := inter_subset_right _ _

theorem edge_left_ne_empty (hn : n.tree.Numbered) : n.edge.left ≠ ∅ := by
  have hside : n.left.nodes ≠ ∅ := (numbered_side hn .left).nodes_ne_empty
  have hreaches := ConflictRule.fold_overlaps_left hside n.conflictRules n.reads n.right.nodes
  exact of_decide_eq_true hreaches

theorem edge_right_ne_empty (hn : n.tree.Numbered) : n.edge.right ≠ ∅ := by
  have hside : n.right.nodes ≠ ∅ := (numbered_side hn .right).nodes_ne_empty
  have hreaches := ConflictRule.fold_overlaps_right hside n.conflictRules n.reads n.left.nodes
  exact of_decide_eq_true hreaches

/-- No node is at both ends of the edge. -/
theorem edge_apart (hn : n.tree.Numbered) : n.edge.left.overlaps n.edge.right = false := by
  refine overlaps_eq_false_iff.2 fun v hv hv' => ?_
  have hvl := subset_iff.1 n.edge_left_subset v hv
  exact overlaps_eq_false_iff.1 hn.2.1 v hvl (subset_iff.1 n.edge_right_subset v hv')

/-- The ends of the edge contain what the join reads below it. -/
theorem reads_subset_edge (hn : n.tree.Numbered) : n.reads ⊆ n.edge.left ∪ n.edge.right := by
  refine subset_iff.2 fun v hv => ?_
  have hwaiting : v ∈ n.waiting n.reads := subset_iff.1 (ConflictRule.subset_fold _ _ _ _) v hv
  exact mem_of_waiting hn (subset_union_left _ _) (subset_union_right _ _) hwaiting
    (subset_iff.1 (Tree.nodesAmong_subset hn _) v hv)

/-- All nodes below a join together obey every rule, since rules require nodes below the join. -/
theorem obeyed_tree_nodes (hn : n.tree.Numbered) (hrules : n.info.rules = (n.hyperedge n.reads).2) :
    ∀ r ∈ n.info.rules, r.Obeyed n.tree.nodes := by
  intro r hr _
  rw [hrules, (hyperedge_exact hn n.reads).kept] at hr
  exact requires_subset hn (List.mem_of_mem_filter hr)

end JoinNode

/-! ### The plan that follows the tree -/

namespace Tree

/-- The plan that applies the joins in the order of the tree. -/
def plan : Tree → Plan
  | leaf i l => .table i l
  | join i info l r => .join (⟨i, info, l, r⟩, JoinNode.edge ⟨i, info, l, r⟩) l.plan r.plan

theorem leaves_plan (t : Tree) : t.plan.leaves = t.leaves := by
  induction t with
  | leaf i l => rfl
  | join i info l r ihl ihr => rw [plan, Plan.leaves, leaves, ihl, ihr]

theorem nodes_plan {t : Tree} (ht : t.Numbered) : t.plan.nodes = t.nodes := by
  induction t with
  | leaf i l => rfl
  | join i info l r ihl ihr => rw [plan, Plan.nodes, ht.nodes_join, ihl ht.2.2.1, ihr ht.2.2.2]

/-- The plan uses every join once, with its edge. -/
theorem arcs_plan (t : Tree) : t.plan.arcs.Perm (t.joins.map fun n => (n, n.edge)) := by
  induction t with
  | leaf i l => exact .nil
  | join i info l r ihl ihr =>
    rw [plan, Plan.arcs, joins, List.map_append, List.map_append]
    exact ((ihl.append ihr).cons _).trans (List.perm_append_singleton _ _).symm

/-- Every join of the plan may be applied where it is. -/
theorem legal_plan {t : Tree} (ht : t.Numbered) (hruled : t.Ruled) : t.plan.Legal := by
  induction t using inductSides with
  | leaf i l => trivial
  | join n ih =>
    have hside (s : Side) : (n.side s).plan.Legal :=
      ih s (JoinNode.numbered_side ht s) fun a ha => hruled a (mem_joins_tree.2 (.inr ⟨s, ha⟩))
    have hl : n.left.plan.nodes = n.left.nodes := nodes_plan (JoinNode.numbered_side ht .left)
    have hr : n.right.plan.nodes = n.right.nodes := nodes_plan (JoinNode.numbered_side ht .right)
    have hobeyed := JoinNode.obeyed_tree_nodes ht (hruled n (mem_joins_tree.2 (.inl rfl)))
    rw [JoinNode.tree, ht.nodes_join, ← hl, ← hr] at hobeyed
    exact ⟨.inl ⟨hl ▸ n.edge_left_subset, hr ▸ n.edge_right_subset, hobeyed⟩, hside .left, hside .right⟩

/-- The nodes of the tree can be put together by the edges of its joins. -/
theorem connected_nodes {g : Hypergraph} {t : Tree} (ht : t.Numbered)
    (hleaves : ∀ x ∈ t.leaves, ∃ v < g.nodes.length, x.2.nodes = {v})
    (hedges : ∀ n ∈ t.joins, n.edge ∈ g.edges) : g.Connected t.nodes := by
  induction t using inductSides with
  | leaf i l =>
    obtain ⟨v, hv, hnodes⟩ := hleaves (i, l) (List.mem_singleton_self _)
    rw [nodes, show l.nodes = {v} from hnodes]
    exact .node hv
  | join n ih =>
    have hside (s : Side) : g.Connected (n.side s).nodes := by
      refine ih s (JoinNode.numbered_side ht s) (fun x hx => hleaves x ?_) fun a ha =>
        hedges a (mem_joins_tree.2 (.inr ⟨s, ha⟩))
      cases s
      · exact List.mem_append_left _ hx
      · exact List.mem_append_right _ hx
    rw [JoinNode.tree, ht.nodes_join]
    exact .edge (hedges n (mem_joins_tree.2 (.inl rfl))) (hside .left) (hside .right) ht.2.1
      n.edge_left_subset n.edge_right_subset

end Tree

/-! ### The graph of a query block -/

theorem Hyperedge.getElem?_flatMap_both (es : List Hyperedge) (i : Nat) :
    (es.flatMap both)[2 * i]? = es[i]? := by
  induction es generalizing i with
  | nil => rfl
  | cons e es ih =>
    cases i with
    | zero => rfl
    | succ i => exact ih i

namespace QueryBlock

variable {s : Settings} {q : QueryBlock} {left filters more : List Predicate} {g : JoinGraph}

namespace Planned

/-- The edges and the rules of the graph are those of conflict detection. -/
theorem assembled (h : q.Planned s left filters more g) (hdistinct : q.DistinctTables) :
    Assembled {} g.tree (q.assembly s) := by
  rw [h.tree_eq]
  exact assembled_addTree s.estimator (fresh_placed h.tableCount_le hdistinct)

/-- The edges of the graph are those of its joins, in both directions. -/
theorem edges_eq (h : q.Planned s left filters more g) (hmade : Assembled {} g.tree (q.assembly s)) :
    g.shape.edges = (g.tree.joins.map JoinNode.edge).flatMap Hyperedge.both := by
  rw [h.lookupsAdded.shape_eq]
  exact hmade.edges_eq.trans (List.nil_append _)

/-- The joins behind the edges are those of the tree. -/
theorem joins_eq (h : q.Planned s left filters more g) :
    g.joins.map JoinEdge.join = g.tree.joins.map JoinNode.id := by
  rw [h.lookupsAdded.joins_eq, h.tree_eq]
  exact (joins_addTree s.estimator _ {}).trans (List.nil_append _)

/-- The edge of every join fits it. -/
theorem edgeFits (h : q.Planned s left filters more g) (hdistinct : q.DistinctTables)
    (hmade : Assembled {} g.tree (q.assembly s))
    (hwithin : g.tree.Within (Tree.ofList q.source).tables .joinCond) {n : JoinNode}
    (hn : n ∈ g.tree.joins) : g.EdgeFits n n.edge := by
  have hnum := (JoinNode.numbered_of_mem hmade.numbered hn).1
  have hreads : g.nodeSet (Expr.tablesOf n.info.allConds) = n.reads := by
    refine Tree.nodesOf_eq ((h.placed_tree hdistinct).of_mem hn) (h.length_nodes_le hdistinct) ?_
    intro i hi hmem
    obtain ⟨c, hc, hic⟩ := Expr.mem_tablesOf.1 hi
    exact Tree.within_joinCond_iff.1 hwithin n hn c hc i hic (h.mem_tables_of_mem_numbers hmem)
  constructor
  case left_ne_empty => exact JoinNode.edge_left_ne_empty hnum
  case left_subset => exact n.edge_left_subset
  case right_ne_empty => exact JoinNode.edge_right_ne_empty hnum
  case right_subset => exact n.edge_right_subset
  case apart => exact JoinNode.edge_apart hnum
  case reads_subset =>
    rw [hreads]
    exact JoinNode.reads_subset_edge hnum
  case obeyed => exact JoinNode.obeyed_tree_nodes hnum (hmade.ruled n hn)

/-- The graph admits the plan that follows its tree. -/
theorem admitted_plan (h : q.Planned s left filters more g) (hmade : Assembled {} g.tree (q.assembly s)) :
    g.tree.plan.Admitted g where
  leaves_perm := .of_eq g.tree.leaves_plan
  arcs_perm := by
    rw [Hypergraph.addedEdges, h.edges_eq hmade, Hypergraph.everyOther_flatMap,
      ← List.map_prod_left_eq_zip]
    exact g.tree.arcs_plan
  legal := Tree.legal_plan hmade.numbered hmade.ruled

/-- The nodes of the tree are those of the hypergraph. -/
theorem mem_nodes_iff (h : q.Planned s left filters more g)
    (hmade : Assembled {} g.tree (q.assembly s)) (v : Nat) :
    v ∈ g.tree.nodes ↔ v < g.shape.nodes.length := by
  have hlength : g.shape.nodes.length = (q.placed s.finisher).tree.numbers.length := by
    rw [h.lookupsAdded.shape_eq]
    exact (length_shape_addTree s.estimator _ {}).trans (Nat.zero_add _)
  rw [hmade.mem_nodes, hlength, assembly, length_addTree]
  simp

theorem connected (h : q.Planned s left filters more g) (hmade : Assembled {} g.tree (q.assembly s)) :
    g.shape.Connected g.tree.nodes := by
  refine Tree.connected_nodes hmade.numbered (fun x hx => ?_) fun n hn => ?_
  · obtain ⟨-, v, hv, hnodes, -⟩ := hmade.placed x hx
    refine ⟨v, (h.mem_nodes_iff hmade v).1 ((Tree.mem_nodes_leaves hmade.numbered).2 ⟨x, hx, ?_⟩), hnodes⟩
    exact hnodes ▸ (mem_singleton hv).2 rfl
  · rw [h.edges_eq hmade]
    exact List.mem_flatMap.2 ⟨n.edge, List.mem_map_of_mem hn, List.mem_cons_self⟩

end Planned

/-- **The original order of the joins is always admitted.** If the tables of a block are distinct, the ON
conditions read tables below their join, and there is a graph, made with the default final forms, then the
edge of every join fits it. So the graph admits the plan that follows the tree, which joins the tables of the
block as the block has it, and it is connected. -/
theorem original_order_admitted (s : Settings) (q : QueryBlock) (trace? : Option String) (g : JoinGraph)
    (hdistinct : q.DistinctTables) (hdefault : s.finisher = .default)
    (hon : ∀ n ∈ (Tree.ofList q.source).joins, ∀ c ∈ n.info.allConds, c.tables ⊆ n.tree.tables)
    (h : (q.build s trace?).result = .ok g) :
    (∀ i j, g.joins[i]? = some j → ∃ n e, g.tree.find? j.join = some n.tree ∧
      g.shape.edges[2 * i]? = some e ∧ g.EdgeFits n e) ∧
    g.tree.outline = (Tree.ofList q.source).outline ∧ g.tree.plan.Admitted g ∧
      g.shape.Connected g.tree.nodes ∧ ∀ v, v ∈ g.tree.nodes ↔ v < g.shape.nodes.length := by
  have hfin : s.finisher.KeepsTables := hdefault ▸ Finisher.keepsTables_default
  obtain ⟨left, filters, more, hplanned⟩ := planned_of_build h
  have hreads : (Tree.ofList q.source).Within (Tree.ofList q.source).tables .joinCond :=
    Tree.within_joinCond_iff.2 fun n hn c hc => .of_subset (hon n hn c hc)
  have hwithin : g.tree.Within (Tree.ofList q.source).tables .joinCond := by
    rw [hplanned.tree_eq]
    exact within_unfiltered nofun hfin hreads
  have hmade := hplanned.assembled hdistinct
  refine ⟨fun i j hj => ?_, hplanned.outline_tree, hplanned.admitted_plan hmade, hplanned.connected hmade,
    hplanned.mem_nodes_iff hmade⟩
  have hid : (g.tree.joins.map JoinNode.id)[i]? = some j.join := by
    rw [← hplanned.joins_eq, List.getElem?_map, hj, Option.map_some]
  rw [List.getElem?_map] at hid
  obtain ⟨n, hn, hni⟩ := Option.map_eq_some_iff.1 hid
  have hmem := List.mem_of_getElem? hn
  have hnodup : g.tree.postorder.Nodup := by
    rw [Tree.postorder_of_outline hplanned.outline_tree, Tree.postorder_ofList]
    exact List.nodup_range'
  refine ⟨n, n.edge, hni ▸ Tree.find?_eq_some hnodup hmem, ?_,
    hplanned.edgeFits hdistinct hmade hwithin hmem⟩
  rw [hplanned.edges_eq hmade, Hyperedge.getElem?_flatMap_both, List.getElem?_map, hn, Option.map_some]

theorem original_order_admitted_sample :
    ∃ g, (sample.build {} none).result = .ok g ∧ sample.DistinctTables ∧
      (∀ n ∈ (Tree.ofList sample.source).joins, ∀ c ∈ n.info.allConds, c.tables ⊆ n.tree.tables) ∧
      (∀ i j, g.joins[i]? = some j → ∃ n e, g.tree.find? j.join = some n.tree ∧
        g.shape.edges[2 * i]? = some e ∧ g.EdgeFits n e) ∧
      g.tree.outline = (Tree.ofList sample.source).outline ∧ g.tree.plan.Admitted g ∧
      g.shape.Connected g.tree.nodes ∧ ∀ v, v ∈ g.tree.nodes ↔ v < g.shape.nodes.length := by
  obtain ⟨g, h⟩ := exists_build_sample
  have hdistinct : sample.DistinctTables := by decide
  have hon : ∀ n ∈ (Tree.ofList sample.source).joins, ∀ c ∈ n.info.allConds,
      c.tables ⊆ n.tree.tables := by decide
  exact ⟨g, h, hdistinct, hon, original_order_admitted {} sample none g hdistinct rfl hon h⟩

/-- The join without conditions has all nodes of its left side at one end. -/
example : (sample.build {} none).result.toOption.map (fun g => g.shape.addedEdges) =
    some [⟨{0}, {1}⟩, ⟨{0, 1}, {2}⟩] := by decide +kernel

end QueryBlock

end QueryGraph
