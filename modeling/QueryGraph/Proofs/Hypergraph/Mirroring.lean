import QueryGraph.Proofs.Planning.Endpoints
import QueryGraph.Proofs.Reordering.Soundness

/-!
# The graph of a tree

A join tree has three numberings: its tables by their own numbers, the leaves from left to right, and the
joins in postorder. The graph that is made of it has a node for every leaf and an edge for every join, at the
same places. So the graph mirrors the tree (`Mirrors`): sets of tables and sets of nodes stand for each
other, and the nodes below a join are an interval.

The table numbers are below 64, the size of a set of tables, and distinct. Nothing else is asked of the tree:
conditions may read what they like.

## What is proved

* `consecutive_addTree` — the nodes of every subtree are consecutive numbers.
* `nodeOf?_eq_some_iff`, `nodesOf_subset_iff`, `overlaps_nodesOf` — tables and their nodes stand for each
  other, one by one and as sets.
* `mirrors_ofTree` — all of it for the graph of a tree.
-/

namespace QueryGraph

open BitSet

/-! ### Subtrees -/

namespace Tree

/-- The nodes of the tree are consecutive numbers. -/
def Consecutive (t : Tree) : Prop := ∃ lo hi, lo < hi ∧ ∀ v, v ∈ t.nodes ↔ lo ≤ v ∧ v < hi

/-- There is one join less than there are tables. -/
theorem length_leaves (t : Tree) : t.leaves.length = t.joins.length + 1 := by
  induction t with
  | leaf i l => rfl
  | join i info l r ihl ihr =>
    simp only [leaves, joins, List.length_append, List.length_singleton]
    omega

theorem ids_bare (t : Tree) : t.bare.joins.map JoinNode.id = t.joins.map JoinNode.id := by
  rw [joins_bare, List.map_map]
  rfl

/-- The subtrees of a tree are the tree itself and those of its sides. -/
theorem mem_subtrees_tree {n : JoinNode} {u : Tree} :
    u ∈ n.tree.subtrees ↔ u = n.tree ∨ ∃ s, u ∈ (n.side s).subtrees := by
  rw [JoinNode.tree, subtrees, List.mem_append, List.mem_append, List.mem_singleton, or_comm,
    Side.exists_side]
  rfl

theorem mem_subtrees_self (t : Tree) : t ∈ t.subtrees := by cases t <;> simp [subtrees]

theorem side_mem_subtrees {t : Tree} {n : JoinNode} (hn : n ∈ t.joins) (s : Side) :
    n.side s ∈ t.subtrees := by
  induction t using inductSides with
  | leaf i l => exact nomatch hn
  | join a ih =>
    rcases mem_joins_tree.1 hn with rfl | ⟨u, hu⟩
    · exact mem_subtrees_tree.2 (.inr ⟨s, mem_subtrees_self _⟩)
    · exact mem_subtrees_tree.2 (.inr ⟨u, ih u hu⟩)

theorem numbered_of_mem_subtrees {t u : Tree} (ht : t.Numbered) (hu : u ∈ t.subtrees) :
    u.Numbered := by
  induction t using inductSides with
  | leaf i l =>
    obtain rfl := List.mem_singleton.1 hu
    exact ht
  | join n ih =>
    rcases mem_subtrees_tree.1 hu with rfl | ⟨s, hs⟩
    · exact ht
    · exact ih s (JoinNode.numbered_side ht s) hs

theorem leaves_subset {t u : Tree} (hu : u ∈ t.subtrees) : ∀ x ∈ u.leaves, x ∈ t.leaves := by
  intro x hx
  induction t using inductSides with
  | leaf i l =>
    obtain rfl := List.mem_singleton.1 hu
    exact hx
  | join n ih =>
    rcases mem_subtrees_tree.1 hu with rfl | ⟨s, hs⟩
    · exact hx
    · cases s
      · exact List.mem_append_left _ (ih .left hs)
      · exact List.mem_append_right _ (ih .right hs)

/-- All tables of a numbered tree together have all of its nodes. -/
theorem nodesAmong_tables {t : Tree} (ht : t.Numbered) : t.nodesAmong t.tables = t.nodes := by
  refine BitSet.ext fun v => ?_
  rw [mem_nodesAmong_leaves, mem_nodes_leaves ht]
  refine exists_congr fun x => and_congr_right fun hx => and_iff_left ?_
  obtain ⟨i, hi⟩ := ne_empty_iff.1 (singleton_ne_empty x.2.table.number)
  exact overlaps_iff.2 ⟨i, mem_tables_leaves.2 ⟨x, hx, hi⟩, hi⟩

end Tree

theorem Added.consecutive {a a' : Assembly} {t : Tree} (h : Added a t a') : t.Consecutive := by
  obtain ⟨v, hv⟩ := ne_empty_iff.1 h.numbered.nodes_ne_empty
  have hbetween := (h.mem_nodes v).1 hv
  exact ⟨a.nodes.length, a'.nodes.length, by omega, h.mem_nodes⟩

/-- Whatever there was of the graph before, the nodes of every subtree are consecutive numbers. -/
theorem consecutive_addTree (est : Estimator) {t : Tree} {a : Assembly} (h : Fresh a t) :
    ∀ u ∈ (Assembly.addTree est t a).value.1.subtrees, u.Consecutive := by
  have hroot := (added_addTree est h).consecutive
  induction t generalizing a with
  | leaf i l =>
    intro u hu
    obtain rfl := List.mem_singleton.1 hu
    exact hroot
  | join i info l r ihl ihr =>
    rw [Assembly.value_addTree_join] at hroot ⊢
    intro u hu
    rcases List.mem_append.1 hu with hu | hu
    · rcases List.mem_append.1 hu with hu | hu
      · exact ihl h.left (added_addTree est h.left).consecutive u hu
      · exact ihr (h.right est) (added_addTree est (h.right est)).consecutive u hu
    · obtain rfl := List.mem_singleton.1 hu
      exact hroot

/-! ### Tables and nodes -/

section

variable {nodes : List TableNode}

/-- A table has the node at its place, if no table is there twice. -/
theorem nodeOf?_eq_some_iff (hnodup : (nodes.map (·.table.number)).Nodup) {i v : Nat} :
    nodeOf? nodes i = some v ↔ (nodes.map (·.table.number))[v]? = some i := by
  have hplace {w : Nat} (h : nodeOf? nodes i = some w) :
      (nodes.map (·.table.number))[w]? = some i := by
    obtain ⟨n, hn, rfl⟩ := number_of_nodeOf? h
    rw [List.getElem?_map, hn, Option.map_some]
  constructor
  · exact hplace
  · intro h
    obtain ⟨n, hn, hni⟩ := List.mem_map.1 (List.mem_of_getElem? h)
    have hsome : (nodeOf? nodes i).isSome := by
      rw [nodeOf?, List.findIdx?_isSome]
      exact List.any_eq_true.2 ⟨n, hn, decide_eq_true hni⟩
    obtain ⟨w, hw⟩ := Option.isSome_iff_exists.1 hsome
    obtain ⟨hlt, -⟩ := List.getElem?_eq_some_iff.1 h
    rw [hw, (List.getElem?_inj hlt hnodup).1 (h.trans (hplace hw).symm)]

variable (hroom : nodes.length ≤ 64) {ts us : TableSet}
  (hts : ∀ i ∈ ts, ∃ v, nodeOf? nodes i = some v)

include hroom hts

/-- Of tables that have nodes, some are among others just when their nodes are. -/
theorem nodesOf_subset_iff : nodesOf nodes ts ⊆ nodesOf nodes us ↔ ts ⊆ us := by
  simp only [subset_iff, mem_nodesOf hroom]
  constructor
  · intro h i hi
    obtain ⟨v, hv⟩ := hts i hi
    obtain ⟨j, hj, hjv⟩ := h v ⟨i, hi, hv⟩
    exact eq_of_nodeOf? hv hjv ▸ hj
  · rintro h v ⟨i, hi, hv⟩
    exact ⟨i, h i hi, hv⟩

/-- They have a table in common with others just when they have a node in common. -/
theorem overlaps_nodesOf : (nodesOf nodes ts).overlaps (nodesOf nodes us) = ts.overlaps us := by
  rw [Bool.eq_iff_iff]
  simp only [overlaps_iff, mem_nodesOf hroom]
  constructor
  · rintro ⟨v, ⟨i, hi, hv⟩, ⟨j, hj, hjv⟩⟩
    exact ⟨i, hi, eq_of_nodeOf? hv hjv ▸ hj⟩
  · rintro ⟨i, hi, hi'⟩
    obtain ⟨v, hv⟩ := hts i hi
    exact ⟨v, ⟨i, hi, hv⟩, ⟨i, hi', hv⟩⟩

end

/-! ### The graph -/

theorem Hyperedge.getElem?_flatMap_both_succ (es : List Hyperedge) (i : Nat) :
    (es.flatMap both)[2 * i + 1]? = es[i]?.map swap := by
  induction es generalizing i with
  | nil => rfl
  | cons e es ih =>
    cases i with
    | zero => rfl
    | succ i => exact ih i

theorem Hyperedge.length_flatMap_both (es : List Hyperedge) :
    (es.flatMap both).length = 2 * es.length := by
  induction es with
  | nil => rfl
  | cons e es ih =>
    simp only [List.flatMap_cons, List.length_append, ih, both, List.length_cons, List.length_nil]
    omega

namespace JoinGraph

/-- The edge has nodes of both sides of the join, and no others. -/
structure EndsIn (n : JoinNode) (e : Hyperedge) : Prop where
  /-- The left end has a node. -/
  left_ne_empty : e.left ≠ ∅
  /-- It is on the left side. -/
  left_subset : e.left ⊆ n.left.nodes
  /-- The right end has a node. -/
  right_ne_empty : e.right ≠ ∅
  /-- It is on the right side. -/
  right_subset : e.right ⊆ n.right.nodes

/-- The nodes and edges of the graph stand for the tables and joins of the tree. -/
structure Mirrors (g : JoinGraph) (t : Tree) : Prop where
  /-- The tree has only got its nodes and rules. -/
  bare_eq : g.tree.bare = t.bare
  /-- The nodes are the tables of the tree, from left to right. -/
  nodes_eq : g.nodes = t.leaves.map fun x => x.2.tableNode
  /-- Every table of the tree has the node at its place, and no other table has a node. -/
  nodeOf?_iff : ∀ i v, nodeOf? g.nodes i = some v ↔ t.numbers[v]? = some i
  /-- The joins are those of the tree, in postorder. -/
  joins_eq : g.joins.map JoinEdge.join = t.joins.map JoinNode.id
  /-- There is one join less than there are nodes. -/
  length_nodes : g.nodes.length = g.joins.length + 1
  /-- The hypergraph has these nodes. -/
  length_shape : g.shape.nodes.length = g.nodes.length
  /-- It has two edges for each join. -/
  length_edges : g.shape.edges.length = 2 * g.joins.length
  /-- At the places that belong to a join is its edge, in both directions. -/
  edges_eq : ∀ i j, g.joins[i]? = some j → ∃ n, g.tree.joins[i]? = some n ∧ n.id = j.join ∧
    g.shape.edges[2 * i]? = some n.edge ∧ g.shape.edges[2 * i + 1]? = some n.edge.swap
  /-- Their ends are on the two sides of the join. -/
  endsIn : ∀ n ∈ g.tree.joins, EndsIn n n.edge
  /-- The nodes below a node of the tree are those of the tables below. -/
  nodeSet_tables : ∀ u ∈ g.tree.subtrees, g.nodeSet u.tables = u.nodes
  /-- They are consecutive. -/
  consecutive : ∀ u ∈ g.tree.subtrees, u.Consecutive
  /-- Sets of tables are included in each other as their nodes are. -/
  nodeSet_subset : ∀ ts us, ts ⊆ t.tables → us ⊆ t.tables →
    (g.nodeSet ts ⊆ g.nodeSet us ↔ ts ⊆ us)
  /-- They are apart as their nodes are. -/
  overlaps_nodeSet : ∀ ts us, ts ⊆ t.tables → us ⊆ t.tables →
    (g.nodeSet ts).overlaps (g.nodeSet us) = ts.overlaps us

/-! ### The graph of a tree -/

section

variable (est : Estimator) (t : Tree)

/-- The graph has the joins of the tree in its own tree. -/
theorem ids_ofTree : (ofTree est t).value.tree.joins.map JoinNode.id = t.joins.map JoinNode.id := by
  rw [← Tree.ids_bare, bare_ofTree, Tree.ids_bare]

/-- It has an edge for each of them. -/
theorem joins_ofTree : (ofTree est t).value.joins.map JoinEdge.join = t.joins.map JoinNode.id :=
  (joins_addTree est t {}).trans (ids_ofTree est t)

/-- It has a node for each table. -/
theorem numbers_nodes_ofTree : (ofTree est t).value.nodes.map (·.table.number) = t.numbers :=
  (numbers_addTree est t {}).trans (List.nil_append _)

theorem length_joins_ofTree : (ofTree est t).value.joins.length = t.joins.length := by
  simpa using congrArg List.length (joins_ofTree est t)

theorem length_tree_ofTree : (ofTree est t).value.tree.joins.length = t.joins.length := by
  simpa using congrArg List.length (ids_ofTree est t)

theorem length_nodes_ofTree : (ofTree est t).value.nodes.length = t.leaves.length := by
  simpa [Tree.numbers] using congrArg List.length (numbers_nodes_ofTree est t)

variable {est t}

/-- There is room for the nodes in a set. -/
theorem length_nodes_ofTree_le (hsep : t.Separate) (hnumbers : ∀ i ∈ t.numbers, i < 64) :
    (ofTree est t).value.nodes.length ≤ 64 := by
  have hle := Tree.length_numbers_le hsep hnumbers
  rwa [Tree.numbers, List.length_map, ← length_nodes_ofTree est t] at hle

/-- If the tables are distinct, a table of the tree has the node at its place. -/
theorem nodeOf?_ofTree (hnodup : t.numbers.Nodup) {i v : Nat} :
    nodeOf? (ofTree est t).value.nodes i = some v ↔ t.numbers[v]? = some i := by
  have hnames := numbers_nodes_ofTree est t
  rw [nodeOf?_eq_some_iff (hnames ▸ hnodup), hnames]

/-- So all tables of the tree have nodes. -/
theorem exists_nodeOf_ofTree (hnodup : t.numbers.Nodup) (hnumbers : ∀ i ∈ t.numbers, i < 64)
    {ts : TableSet} (hts : ts ⊆ t.tables) :
    ∀ i ∈ ts, ∃ v, nodeOf? (ofTree est t).value.nodes i = some v := by
  intro i hi
  have hmem := (Tree.mem_tables_iff hnumbers).1 (subset_iff.1 hts i hi)
  obtain ⟨v, hv⟩ := List.mem_iff_getElem?.1 hmem
  exact ⟨v, (nodeOf?_ofTree hnodup).2 hv⟩

/-- At the places that belong to a join is its edge, in both directions. -/
theorem edges_ofTree {i : Nat} {j : JoinEdge}
    (hedges : (ofTree est t).value.shape.edges =
      ((ofTree est t).value.tree.joins.map JoinNode.edge).flatMap Hyperedge.both)
    (hj : (ofTree est t).value.joins[i]? = some j) :
    ∃ n, (ofTree est t).value.tree.joins[i]? = some n ∧ n.id = j.join ∧
      (ofTree est t).value.shape.edges[2 * i]? = some n.edge ∧
      (ofTree est t).value.shape.edges[2 * i + 1]? = some n.edge.swap := by
  have hid : ((ofTree est t).value.tree.joins.map JoinNode.id)[i]? = some j.join := by
    rw [ids_ofTree, ← joins_ofTree, List.getElem?_map, hj, Option.map_some]
  rw [List.getElem?_map] at hid
  obtain ⟨n, hn, hnj⟩ := Option.map_eq_some_iff.1 hid
  refine ⟨n, hn, hnj, ?_⟩
  rw [hedges, Hyperedge.getElem?_flatMap_both, Hyperedge.getElem?_flatMap_both_succ,
    List.getElem?_map, hn]
  exact ⟨rfl, rfl⟩

end

/-- **The graph mirrors the tree**, if the tables are distinct and their numbers fit into a set. -/
theorem mirrors_ofTree (est : Estimator) (t : Tree) (hnodup : t.numbers.Nodup)
    (hnumbers : ∀ i ∈ t.numbers, i < 64) : (ofTree est t).value.Mirrors t := by
  have hsep := Tree.separate_of_nodup hnumbers hnodup
  have hmade := assembled_ofTree est hsep hnumbers
  have hedges : (ofTree est t).value.shape.edges =
      ((ofTree est t).value.tree.joins.map JoinNode.edge).flatMap Hyperedge.both :=
    hmade.edges_eq.trans (List.nil_append _)
  have hroom : (ofTree est t).value.nodes.length ≤ 64 := length_nodes_ofTree_le hsep hnumbers
  constructor
  case bare_eq => exact bare_ofTree est t
  case nodes_eq => exact (nodes_addTree est t {}).trans (List.nil_append _)
  case nodeOf?_iff => exact fun i v => nodeOf?_ofTree hnodup
  case joins_eq => exact joins_ofTree est t
  case length_nodes => rw [length_nodes_ofTree, length_joins_ofTree, Tree.length_leaves]
  case length_shape =>
    have hlength : t.numbers.length = t.leaves.length := List.length_map _
    rw [length_nodes_ofTree, ← hlength]
    exact (length_shape_addTree est t {}).trans (Nat.zero_add _)
  case length_edges =>
    rw [hedges, Hyperedge.length_flatMap_both, List.length_map, length_tree_ofTree, length_joins_ofTree]
  case edges_eq => exact fun i j hj => edges_ofTree hedges hj
  case endsIn =>
    intro n hn
    have hnum := (JoinNode.numbered_of_mem hmade.numbered hn).1
    exact ⟨JoinNode.edge_left_ne_empty hnum, n.edge_left_subset, JoinNode.edge_right_ne_empty hnum,
      n.edge_right_subset⟩
  case nodeSet_tables =>
    intro u hu
    have hplaced : u.Placed (ofTree est t).value.nodes := fun x hx =>
      hmade.placed x (Tree.leaves_subset hu x hx)
    rw [nodeSet, Tree.nodesOf_eq hplaced hroom fun i hi _ => hi]
    exact Tree.nodesAmong_tables (Tree.numbered_of_mem_subtrees hmade.numbered hu)
  case consecutive => exact consecutive_addTree est (fresh_of_separate hsep hnumbers)
  case nodeSet_subset =>
    exact fun ts us hts _ => nodesOf_subset_iff hroom (exists_nodeOf_ofTree hnodup hnumbers hts)
  case overlaps_nodeSet =>
    exact fun ts us hts _ => overlaps_nodesOf hroom (exists_nodeOf_ofTree hnodup hnumbers hts)

/-- `t5 LEFT JOIN t2 ON t5.x = t2.x, t7`. The tables do not come in the order of their numbers. -/
def shuffled : Tree :=
  let table (i : Nat) : FromItem := .table ⟨i, "t"⟩
  let x (i : Nat) : Expr := .column ⟨i, "t", "x", .int⟩
  .ofList (.join (.join (.single (table 5)) (table 2) (some ((x 5).equals (x 2))) true) (table 7) none
    false)

theorem mirrors_shuffled : shuffled.numbers.Nodup ∧ (∀ i ∈ shuffled.numbers, i < 64) ∧
    (ofTree .default shuffled).value.Mirrors shuffled :=
  ⟨by decide, by decide, mirrors_ofTree .default shuffled (by decide) (by decide)⟩

/-- Nodes follow the tree and not the numbers. -/
example : [2, 5, 7].map (nodeOf? (ofTree .default shuffled).value.nodes) = [some 1, some 0, some 2] := by
  decide +kernel

end JoinGraph

end QueryGraph
