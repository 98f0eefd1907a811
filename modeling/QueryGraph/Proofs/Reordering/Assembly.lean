import QueryGraph.Proofs.Hypergraph.Adjacency
import QueryGraph.Proofs.Passes.Reading
import QueryGraph.Proofs.Reordering.Plans

/-!
# What comes of a tree in its graph

The nodes, edges and rules that a tree gets when its graph is made.

## The model

A part of a tree is added to what there is of the graph. What is true of its nodes then is collected in
`Added`: they are the numbers that were free, and every table is found by its node. `Assembled` says of
its joins that their edges and rules are those of conflict detection on the nodes below them that their
conditions read. When a join is detected, the nodes to its right are not known yet, and conditions may read
nodes to its left. Neither matters, since the rules of a join speak of nodes below it only.

A set has room for 64 members. So tables are numbered below 64, and there may be 64 of them.

## What is proved

* `nodesOf_eq`, `nodesOf_inter` — the nodes that conditions read are found.
* `added_addTree`, `assembled_addTree` — what is said of nodes and joins holds of every tree whose tables are
  distinct.
-/

namespace QueryGraph

open BitSet

/-! ### Tables and their nodes -/

/-- The table of a leaf as a node of the graph. -/
def Leaf.tableNode (l : Leaf) : TableNode := { table := l.table, candidates := l.lookups }

theorem lt_length_of_nodeOf? {nodes : List TableNode} {i v : Nat} (h : nodeOf? nodes i = some v) :
    v < nodes.length := (List.findIdx?_eq_some_iff_findIdx_eq.1 h).1

/-- A node that was found is that of the table. -/
theorem number_of_nodeOf? {nodes : List TableNode} {i v : Nat} (h : nodeOf? nodes i = some v) :
    ∃ n, nodes[v]? = some n ∧ n.table.number = i := by
  obtain ⟨hlt, hn, -⟩ := List.findIdx?_eq_some_iff_getElem.1 h
  exact ⟨nodes[v], List.getElem?_eq_getElem hlt, of_decide_eq_true hn⟩

theorem mem_numbers_of_nodeOf? {nodes : List TableNode} {i v : Nat} (h : nodeOf? nodes i = some v) :
    i ∈ nodes.map (·.table.number) := by
  obtain ⟨n, hn, rfl⟩ := number_of_nodeOf? h
  exact List.mem_map_of_mem (List.mem_of_getElem? hn)

/-- No two tables have the same node. -/
theorem eq_of_nodeOf? {nodes : List TableNode} {i j v : Nat} (hi : nodeOf? nodes i = some v)
    (hj : nodeOf? nodes j = some v) : i = j := by
  obtain ⟨n, hn, rfl⟩ := number_of_nodeOf? hi
  obtain ⟨n', hn', rfl⟩ := number_of_nodeOf? hj
  rw [Option.some.inj (hn.symm.trans hn')]

/-- A table keeps its node when more nodes come. -/
theorem nodeOf?_append {nodes : List TableNode} {i v : Nat} (h : nodeOf? nodes i = some v)
    (more : List TableNode) : nodeOf? (nodes ++ more) i = some v := by
  rw [nodeOf?] at h ⊢
  rw [List.findIdx?_append, h]
  rfl

/-- A new table has the next number for its node. -/
theorem nodeOf?_append_new {nodes : List TableNode} {node : TableNode}
    (h : ∀ n ∈ nodes, n.table.number ≠ node.table.number) :
    nodeOf? (nodes ++ [node]) node.table.number = some nodes.length := by
  have hnone : nodeOf? nodes node.table.number = none :=
    List.findIdx?_eq_none_iff.2 fun n hn => decide_eq_false (h n hn)
  rw [nodeOf?] at hnone ⊢
  rw [List.findIdx?_append, hnone]
  simp

theorem mem_nodesOf {nodes : List TableNode} (hroom : nodes.length ≤ 64) {ts : TableSet} {v : Nat} :
    v ∈ nodesOf nodes ts ↔ ∃ i ∈ ts, nodeOf? nodes i = some v := by
  have hlt : ∀ w ∈ ts.toList.filterMap (nodeOf? nodes), w < 64 := by
    intro w hw
    obtain ⟨i, -, hi⟩ := List.mem_filterMap.1 hw
    exact Nat.lt_of_lt_of_le (lt_length_of_nodeOf? hi) hroom
  rw [nodesOf, mem_ofList hlt]
  simp only [List.mem_filterMap, mem_toList]

namespace Tree

theorem mem_nodesAmong_leaves {t : Tree} {ts : TableSet} {v : Nat} :
    v ∈ t.nodesAmong ts ↔
      ∃ x ∈ t.leaves, v ∈ x.2.nodes ∧ ts.overlaps {x.2.table.number} = true := by
  induction t with
  | leaf i l =>
    rw [nodesAmong, leaves]
    split
    next h => simp [h]
    next h => simp [h]
  | join i info l r ihl ihr =>
    rw [nodesAmong, mem_union, ihl, ihr, leaves]
    simp only [List.mem_append, or_and_right, exists_or]

theorem mem_tables_leaves {t : Tree} {i : Nat} :
    i ∈ t.tables ↔ ∃ x ∈ t.leaves, i ∈ ({x.2.table.number} : TableSet) := by
  induction t with
  | leaf j l => simp [tables, leaves]
  | join j info l r ihl ihr =>
    rw [tables, mem_union, ihl, ihr, leaves]
    simp only [List.mem_append, or_and_right, exists_or]

/-- Every table of the tree is found by its node. -/
def Placed (nodes : List TableNode) (t : Tree) : Prop :=
  ∀ x ∈ t.leaves, x.2.table.number < 64 ∧
    ∃ v, v < 64 ∧ x.2.nodes = {v} ∧ nodeOf? nodes x.2.table.number = some v

theorem Placed.append {nodes : List TableNode} {t : Tree} (h : t.Placed nodes)
    (more : List TableNode) : t.Placed (nodes ++ more) := by
  intro x hx
  obtain ⟨hnum, v, hv, hnodes, hfound⟩ := h x hx
  exact ⟨hnum, v, hv, hnodes, nodeOf?_append hfound more⟩

theorem leaves_tree_subset {t : Tree} {n : JoinNode} (hn : n ∈ t.joins) :
    ∀ x ∈ n.tree.leaves, x ∈ t.leaves := by
  induction t using inductSides with
  | leaf i l => exact nomatch hn
  | join a ih =>
    rcases mem_joins_tree.1 hn with rfl | ⟨s, hs⟩
    · exact fun x hx => hx
    · intro x hx
      have hside := ih s hs x hx
      cases s
      · exact List.mem_append_left _ hside
      · exact List.mem_append_right _ hside

theorem Placed.of_mem {nodes : List TableNode} {t : Tree} (h : t.Placed nodes) {n : JoinNode}
    (hn : n ∈ t.joins) : n.tree.Placed nodes := fun x hx => h x (leaves_tree_subset hn x hx)

section

variable {nodes : List TableNode} {t : Tree} (h : t.Placed nodes)

include h

/-- A node of the tree is found as that of one table, which is in the tree. -/
theorem Placed.mem_nodesAmong_iff {ts : TableSet} {v : Nat} :
    v ∈ t.nodesAmong ts ↔ ∃ i ∈ ts, i ∈ t.tables ∧ nodeOf? nodes i = some v := by
  rw [mem_nodesAmong_leaves]
  constructor
  · rintro ⟨x, hx, hv, hoverlap⟩
    obtain ⟨hnum, w, hw, hnodes, hfound⟩ := h x hx
    obtain ⟨i, hi, hix⟩ := overlaps_iff.1 hoverlap
    obtain rfl := (mem_singleton hnum).1 hix
    rw [hnodes] at hv
    obtain rfl := (mem_singleton hw).1 hv
    exact ⟨_, hi, mem_tables_leaves.2 ⟨x, hx, hix⟩, hfound⟩
  · rintro ⟨i, hi, hit, hfound⟩
    obtain ⟨x, hx, hix⟩ := mem_tables_leaves.1 hit
    obtain ⟨hnum, w, hw, hnodes, hfound'⟩ := h x hx
    obtain rfl := (mem_singleton hnum).1 hix
    obtain rfl : v = w := Option.some.inj (hfound.symm.trans hfound')
    refine ⟨x, hx, ?_, overlaps_iff.2 ⟨_, hi, hix⟩⟩
    rw [hnodes]
    exact (mem_singleton hw).2 rfl

/-- The nodes of tables of the tree. Tables that are not in the graph have none. -/
theorem nodesOf_eq (hroom : nodes.length ≤ 64) {ts : TableSet}
    (hts : ∀ i ∈ ts, i ∈ nodes.map (·.table.number) → i ∈ t.tables) :
    nodesOf nodes ts = t.nodesAmong ts := by
  refine BitSet.ext fun v => (mem_nodesOf hroom).trans (Iff.trans ?_ h.mem_nodesAmong_iff.symm)
  refine exists_congr fun i => and_congr_right fun hi => ?_
  exact ⟨fun hfound => ⟨hts i hi (mem_numbers_of_nodeOf? hfound), hfound⟩, And.right⟩

/-- Of the nodes of any tables, those in the tree are the nodes of tables of the tree. -/
theorem nodesOf_inter (ht : t.Numbered) (hroom : nodes.length ≤ 64) (ts : TableSet) :
    nodesOf nodes ts ∩ t.nodes = t.nodesAmong ts := by
  refine BitSet.ext fun v => ?_
  rw [mem_inter, mem_nodesOf hroom, h.mem_nodesAmong_iff]
  constructor
  · rintro ⟨⟨i, hi, hfound⟩, hv⟩
    -- The node is that of a leaf, and it belongs to one table.
    obtain ⟨x, hx, hvx⟩ := (mem_nodes_leaves ht).1 hv
    obtain ⟨hnum, w, hw, hnodes, hfound'⟩ := h x hx
    rw [hnodes] at hvx
    obtain rfl := (mem_singleton hw).1 hvx
    obtain rfl := eq_of_nodeOf? hfound hfound'
    exact ⟨_, hi, mem_tables_leaves.2 ⟨x, hx, (mem_singleton hnum).2 rfl⟩, hfound⟩
  · rintro ⟨i, hi, hit, hfound⟩
    refine ⟨⟨i, hi, hfound⟩, subset_iff.1 (nodesAmong_subset ht ts) v ?_⟩
    exact h.mem_nodesAmong_iff.2 ⟨i, hi, hit, hfound⟩

end

end Tree

/-- The edge in both directions. -/
def Hyperedge.both (e : Hyperedge) : List Hyperedge := [e, e.swap]

theorem Hypergraph.everyOther_flatMap (es : List Hyperedge) :
    addedEdges.everyOther (es.flatMap Hyperedge.both) = es := by
  induction es with
  | nil => rfl
  | cons e es ih =>
    change e :: addedEdges.everyOther (es.flatMap Hyperedge.both) = e :: es
    rw [ih]

/-! ### Adding a tree -/

/-- The nodes in `a'` are those in `a` and those of the tree, which got them by that. -/
structure Added (a : Assembly) (t : Tree) (a' : Assembly) : Prop where
  /-- The tables of the tree became the next nodes. -/
  nodes_eq : a'.nodes = a.nodes ++ t.leaves.map fun x => x.2.tableNode
  /-- Nodes of the tree are the numbers that were free. -/
  mem_nodes : ∀ v, v ∈ t.nodes ↔ a.nodes.length ≤ v ∧ v < a'.nodes.length
  /-- The nodes of joins are those of their sides. -/
  numbered : t.Numbered
  /-- No table has two nodes. -/
  oneEach : t.OneEach
  /-- Every table is found by its node. -/
  placed : t.Placed a'.nodes

/-- The graph `a'` comes from `a` by adding the tree, which got its nodes and rules by that. -/
structure Assembled (a : Assembly) (t : Tree) (a' : Assembly) : Prop extends Added a t a' where
  /-- Every join keeps the rules that are left of its edge. -/
  ruled : t.Ruled
  /-- The edges of the joins were added in the order of the joins. -/
  edges_eq : a'.shape.edges = a.shape.edges ++ (t.joins.map JoinNode.edge).flatMap Hyperedge.both

theorem added_leaf {a : Assembly} (i : Nat) {l : Leaf} (hroom : a.nodes.length < 64)
    (hnumber : l.table.number < 64) (hfresh : ∀ n ∈ a.nodes, n.table.number ≠ l.table.number) :
    Added a (.leaf i { l with nodes := {a.nodes.length} }) (a.addTable l) where
  nodes_eq := rfl
  mem_nodes v := by
    have hlength : (a.addTable l).nodes.length = a.nodes.length + 1 := List.length_append
    rw [Tree.nodes, mem_singleton hroom, hlength]
    omega
  numbered := singleton_ne_empty _
  oneEach v hv w hw := ((mem_singleton hroom).1 hv).trans ((mem_singleton hroom).1 hw).symm
  placed x hx := by
    obtain rfl := List.mem_singleton.1 hx
    exact ⟨hnumber, _, hroom, rfl, nodeOf?_append_new hfresh⟩

/-- Two trees that have been added one after the other are joined. -/
theorem added_join {a b c : Assembly} {l r : Tree} (i : Nat) {info : JoinInfo} (hl : Added a l b)
    (hr : Added b r c) (hnodes : info.nodes = l.nodes ∪ r.nodes) (e : Hyperedge) (j : JoinEdge) :
    Added a (.join i info l r) (c.addJoin e j) := by
  have hlength : b.nodes.length ≤ c.nodes.length := by
    rw [hr.nodes_eq, List.length_append]
    omega
  have hlength' : a.nodes.length ≤ b.nodes.length := by
    rw [hl.nodes_eq, List.length_append]
    omega
  refine ⟨?_, fun v => ?_, ⟨hnodes, ?_, hl.numbered, hr.numbered⟩, ⟨hl.oneEach, hr.oneEach⟩, ?_⟩
  · change c.nodes = _
    rw [hr.nodes_eq, hl.nodes_eq, Tree.leaves, List.map_append, List.append_assoc]
  · change v ∈ info.nodes ↔ _ ∧ v < c.nodes.length
    rw [hnodes, mem_union, hl.mem_nodes, hr.mem_nodes]
    omega
  · refine overlaps_eq_false_iff.2 fun v hv hv' => ?_
    have hbefore := (hl.mem_nodes v).1 hv
    have hafter := (hr.mem_nodes v).1 hv'
    omega
  · refine List.forall_mem_append.2 ⟨?_, hr.placed⟩
    change l.Placed c.nodes
    rw [hr.nodes_eq]
    exact hl.placed.append _

/-- The join of two trees that have been added is detected on the nodes that its conditions read. -/
theorem assembled_join {a b c : Assembly} {l r : Tree} (i : Nat) {info : JoinInfo}
    {detected : Hyperedge × List ConflictRule} (hl : Assembled a l b) (hr : Assembled b r c)
    (hroom : c.nodes.length ≤ 64) (hnodes : info.nodes = l.nodes ∪ r.nodes)
    (hdetected : detected =
      JoinNode.hyperedge ⟨i, info, l, r⟩ (nodesOf c.nodes (Expr.tablesOf info.allConds)))
    (j : JoinEdge) :
    Assembled a (.join i { info with rules := detected.2 } l r) (c.addJoin detected.1 j) := by
  let n : JoinNode := ⟨i, { info with rules := detected.2 }, l, r⟩
  have hnodes' : n.info.nodes = l.nodes ∪ r.nodes := hnodes
  have hadded : Added a n.tree (c.addJoin detected.1 j) :=
    added_join i hl.toAdded hr.toAdded hnodes' detected.1 j
  have hedge : detected = n.hyperedge n.reads := by
    have hreads := Tree.nodesOf_inter hadded.placed hadded.numbered hroom (Expr.tablesOf info.allConds)
    rw [JoinNode.reads, show Expr.tablesOf n.info.allConds = Expr.tablesOf info.allConds from rfl,
      ← hreads, JoinNode.hyperedge_inter hadded.numbered]
    exact hdetected
  refine ⟨hadded, fun g hg => ?_, ?_⟩
  · rcases (Tree.mem_joins_tree (n := n)).1 hg with rfl | ⟨s, hs⟩
    · exact congrArg Prod.snd hedge
    · cases s
      · exact hl.ruled g hs
      · exact hr.ruled g hs
  · have hjoins : n.tree.joins = l.joins ++ r.joins ++ [n] := rfl
    change c.shape.edges ++ detected.1.both = _ ++ (n.tree.joins.map JoinNode.edge).flatMap _
    rw [hr.edges_eq, hl.edges_eq, hjoins, hedge]
    simp [JoinNode.edge]

/-- The tables of the tree become the next nodes, from left to right. -/
theorem nodes_addTree (est : Estimator) (t : Tree) (a : Assembly) :
    (Assembly.addTree est t a).value.2.nodes = a.nodes ++ t.leaves.map fun x => x.2.tableNode := by
  induction t generalizing a with
  | leaf i l => rfl
  | join i info l r ihl ihr =>
    rw [Assembly.value_addTree_join, Tree.leaves, List.map_append, ← List.append_assoc, ← ihl a]
    exact ihr (Assembly.addTree est l a).value.2

theorem numbers_addTree (est : Estimator) (t : Tree) (a : Assembly) :
    (Assembly.addTree est t a).value.2.nodes.map (·.table.number) =
      a.nodes.map (·.table.number) ++ t.numbers := by
  rw [nodes_addTree, List.map_append, List.map_map]
  rfl

theorem length_addTree (est : Estimator) (t : Tree) (a : Assembly) :
    (Assembly.addTree est t a).value.2.nodes.length = a.nodes.length + t.numbers.length := by
  have hlength := congrArg List.length (numbers_addTree est t a)
  rwa [List.length_append, List.length_map, List.length_map] at hlength

/-- The joins of the tree become the next edges, in postorder. -/
theorem joins_addTree (est : Estimator) (t : Tree) (a : Assembly) :
    (Assembly.addTree est t a).value.2.joins.map JoinEdge.join =
      a.joins.map JoinEdge.join ++ (Assembly.addTree est t a).value.1.joins.map JoinNode.id := by
  induction t generalizing a with
  | leaf i l => exact (List.append_nil _).symm
  | join i info l r ihl ihr =>
    let left := (Assembly.addTree est l a).value
    let right := (Assembly.addTree est r left.2).value
    have hl : left.2.joins.map JoinEdge.join = _ := ihl a
    have hr : right.2.joins.map JoinEdge.join = _ := ihr left.2
    rw [Assembly.value_addTree_join]
    change (right.2.joins ++ [_]).map JoinEdge.join =
      _ ++ (left.1.joins ++ right.1.joins ++ [_]).map JoinNode.id
    simp only [List.map_append, hr, hl, List.append_assoc]
    rfl

/-- The hypergraph gets a node for every table. -/
theorem length_shape_addTree (est : Estimator) (t : Tree) (a : Assembly) :
    (Assembly.addTree est t a).value.2.shape.nodes.length =
      a.shape.nodes.length + t.numbers.length := by
  induction t generalizing a with
  | leaf i l => exact List.length_append
  | join i info l r ihl ihr =>
    let left := (Assembly.addTree est l a).value
    rw [Assembly.value_addTree_join, Tree.numbers_join, List.length_append, ← Nat.add_assoc, ← ihl a]
    refine Eq.trans ?_ (ihr left.2)
    exact Hypergraph.length_nodes_addEdge _ _

/-- The tables of the tree have no nodes yet, and there is room for them. -/
structure Fresh (a : Assembly) (t : Tree) : Prop where
  /-- Tables have small numbers. -/
  numbers_lt : ∀ i ∈ t.numbers, i < 64
  /-- There is room for one node for each table. -/
  room : a.nodes.length + t.numbers.length ≤ 64
  /-- No table is there twice. -/
  nodup : (a.nodes.map (·.table.number) ++ t.numbers).Nodup

theorem Fresh.left {a : Assembly} {i : Nat} {info : JoinInfo} {l r : Tree}
    (h : Fresh a (.join i info l r)) : Fresh a l := by
  obtain ⟨hnumbers, hroom, hnodup⟩ := h
  rw [Tree.numbers_join] at hnumbers hroom hnodup
  rw [List.length_append] at hroom
  rw [← List.append_assoc] at hnodup
  exact ⟨(List.forall_mem_append.1 hnumbers).1, by omega, (List.nodup_append.1 hnodup).1⟩

theorem Fresh.right (est : Estimator) {a : Assembly} {i : Nat} {info : JoinInfo} {l r : Tree}
    (h : Fresh a (.join i info l r)) : Fresh (Assembly.addTree est l a).value.2 r := by
  obtain ⟨hnumbers, hroom, hnodup⟩ := h
  rw [Tree.numbers_join] at hnumbers hroom hnodup
  rw [List.length_append, ← Nat.add_assoc, ← length_addTree est l a] at hroom
  rw [← List.append_assoc, ← numbers_addTree est l a] at hnodup
  exact ⟨(List.forall_mem_append.1 hnumbers).2, hroom, hnodup⟩

/-- What has been shown of the nodes of added trees holds of every tree over distinct tables. -/
theorem added_addTree (est : Estimator) {t : Tree} {a : Assembly} (h : Fresh a t) :
    Added a (Assembly.addTree est t a).value.1 (Assembly.addTree est t a).value.2 := by
  induction t generalizing a with
  | leaf i l =>
    have hlt : a.nodes.length < 64 := h.room
    refine added_leaf i hlt (h.numbers_lt _ (List.mem_singleton_self _)) fun n hn => ?_
    have hnodup := (List.nodup_append.1 h.nodup).2.2
    exact hnodup _ (List.mem_map_of_mem hn) _ (List.mem_singleton_self _)
  | join i info l r ihl ihr =>
    rw [Assembly.value_addTree_join]
    exact added_join i (ihl h.left) (ihr (h.right est)) rfl _ _

/-- What has been shown of adding trees holds of every tree over distinct tables, whatever its conditions
read. -/
theorem assembled_addTree (est : Estimator) {t : Tree} {a : Assembly} (h : Fresh a t) :
    Assembled a (Assembly.addTree est t a).value.1 (Assembly.addTree est t a).value.2 := by
  induction t generalizing a with
  | leaf i l => exact ⟨added_addTree est h, nofun, (List.append_nil _).symm⟩
  | join i info l r ihl ihr =>
    let left := (Assembly.addTree est l a).value
    let right := (Assembly.addTree est r left.2).value
    have hroom : right.2.nodes.length ≤ 64 := by
      have hlength : right.2.nodes.length = left.2.nodes.length + r.numbers.length :=
        length_addTree est r left.2
      have hroom : left.2.nodes.length + r.numbers.length ≤ 64 := (h.right est).room
      omega
    rw [Assembly.value_addTree_join]
    exact assembled_join i (ihl h.left) (ihr (h.right est)) hroom rfl rfl _

end QueryGraph
