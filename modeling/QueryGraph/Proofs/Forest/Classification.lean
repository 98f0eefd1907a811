import QueryGraph.Proofs.Forest.Recording
import QueryGraph.Proofs.Passes.HashKeys

/-!
# The conditions of joins are divided

What becomes of the joins below a node when their conditions are divided into hash keys and others.

## The model

Two passes go over the joins. The first records on every join which tables its conditions read, and the second
divides the conditions. Both are written back to the forest, one after the other (`rewrite?`).

What has been recorded is used when the graph is made. Then a join keeps the nodes of these tables for the rules
of the joins above it, but its own edge is made from the nodes that its conditions read at that time. So it
matters that conditions are neither lost nor changed after the tables have been recorded. `detections` are the
joins as they are when their edges are made, together with the nodes that the edges are made from.

## What is proved

* `classified_divideConds` — what both passes make of one join.
* `joins_detections`, `edges_detections` — the graph is made of the detections.
* `classifiedBelow_rewrite` — what both passes make of a forest, and that the nodes that are kept on a join are
  those that its edge is made from.
-/

namespace QueryGraph

/-! ### One join -/

/-- What the join carries has become `new`, by dividing its conditions between the tables of its two sides. -/
structure JoinInfo.Classified (left right : TableSet) (old new : JoinInfo) : Prop where
  /-- The hash keys are the conditions that can be hash keys, in their old order. -/
  keys_eq : new.keys = old.conds.filter (Expr.isHashKey left right)
  /-- The other conditions stay, in their old order. -/
  conds_eq : new.conds = old.conds.filter fun c => !Expr.isHashKey left right c
  /-- Both together are the old conditions. -/
  perm : new.allConds.Perm old.conds
  /-- The tables that are recorded are those that all conditions read. -/
  usedTables_eq : new.usedTables = Expr.tablesOf new.allConds
  /-- Nothing else has changed. -/
  others_eq : new = { old with keys := new.keys, conds := new.conds, usedTables := new.usedTables }

/-- The join with the tables that its conditions read recorded, as are those below it. -/
def JoinNode.recordUsedTables (n : JoinNode) : JoinNode where
  id := n.id
  info := { n.info with usedTables := Expr.tablesOf n.info.conds }
  left := n.left.recordUsedTables
  right := n.right.recordUsedTables

namespace Tree

/-- The other conditions are those that are found to be no keys. -/
theorem conds_divideConds (left right : TableSet) (info : JoinInfo) :
    (divideConds left right info).conds = info.conds.filter fun c => !Expr.isHashKey left right c := by
  rw [divideConds]
  split
  next hempty => rw [List.isEmpty_iff.1 hempty, List.filter_nil]
  next => rfl

/-- Apart from its conditions a join carries what it did. -/
theorem divideConds_eq (left right : TableSet) (info : JoinInfo) :
    divideConds left right info =
      { info with
        keys := (divideConds left right info).keys
        conds := (divideConds left right info).conds } := by
  rw [divideConds]
  split <;> rfl

/-- What both passes make of one join. -/
theorem classified_divideConds {left right : TableSet} {info : JoinInfo} (hkeys : info.keys = []) :
    info.Classified left right
      (divideConds left right { info with usedTables := Expr.tablesOf info.conds }) := by
  let recorded : JoinInfo := { info with usedTables := Expr.tablesOf info.conds }
  have hrecorded : recorded.keys = [] := hkeys
  have hkeys_eq : (divideConds left right recorded).keys = _ := keys_divideConds hrecorded
  have hconds_eq := conds_divideConds left right recorded
  have hothers := divideConds_eq left right recorded
  generalize divideConds left right recorded = new at hkeys_eq hconds_eq hothers ⊢
  have hperm : new.allConds.Perm info.conds := by
    rw [JoinInfo.allConds, hkeys_eq, hconds_eq]
    exact List.filter_append_perm _ _
  have hused : new.usedTables = Expr.tablesOf info.conds := by rw [hothers]
  refine ⟨hkeys_eq, hconds_eq, hperm, hused.trans (Expr.tablesOf_perm hperm).symm, ?_⟩
  rw [hused]
  exact hothers

/-! ### One tree -/

theorem joins_recordUsedTables (t : Tree) :
    t.recordUsedTables.joins = t.joins.map JoinNode.recordUsedTables := by
  induction t with
  | leaf i l => rfl
  | join i info l r ihl ihr =>
    rw [recordUsedTables, joins, joins, ihl, ihr, List.map_append, List.map_append]
    rfl

/-- What both passes make of a join in a tree. -/
theorem exists_classified {t : Tree} {n : JoinNode} (hn : n ∈ t.joins) (hkeys : n.info.keys = []) :
    ∃ n' ∈ t.recordUsedTables.divideKeys.joins, n'.id = n.id ∧ n'.left.id = n.left.id ∧
      n'.right.id = n.right.id ∧ n.info.Classified n.left.tables n.right.tables n'.info := by
  have hmem : n.recordUsedTables.divideKeys ∈ t.recordUsedTables.divideKeys.joins := by
    rw [joins_divideKeys, joins_recordUsedTables]
    exact List.mem_map_of_mem (List.mem_map_of_mem hn)
  have houtline (s : Tree) : s.recordUsedTables.divideKeys.outline = s.outline :=
    (outline_divideKeys _).trans (outline_recordUsedTables s)
  refine ⟨_, hmem, rfl, id_of_outline (houtline n.left), id_of_outline (houtline n.right), ?_⟩
  -- the second pass sees the tables of the sides as the first one has left them
  rw [← tables_of_outline (outline_recordUsedTables n.left),
    ← tables_of_outline (outline_recordUsedTables n.right)]
  exact classified_divideConds hkeys

theorem leaves_recordUsedTables (t : Tree) : t.recordUsedTables.leaves = t.leaves := by
  induction t with
  | leaf i l => rfl
  | join i info l r ihl ihr => rw [recordUsedTables, leaves, leaves, ihl, ihr]

theorem leaves_divideKeys (t : Tree) : t.divideKeys.leaves = t.leaves := by
  induction t with
  | leaf i l => rfl
  | join i info l r ihl ihr => rw [divideKeys, leaves, leaves, ihl, ihr]

theorem leaf_mem_subtrees {t : Tree} {x : Nat × Leaf} (hx : x ∈ t.leaves) : leaf x.1 x.2 ∈ t.subtrees := by
  induction t with
  | leaf i l =>
    obtain rfl := List.mem_singleton.1 hx
    exact List.mem_singleton_self _
  | join i info l r ihl ihr =>
    rw [subtrees, List.mem_append, List.mem_append]
    exact .inl ((List.mem_append.1 hx).imp ihl ihr)

end Tree

/-! ### Edges of joins -/

/-- A join as it is when its edge is made. -/
structure Detection where
  /-- The join. -/
  node : JoinNode
  /-- The nodes that its conditions read. -/
  reads : NodeSet

namespace Detection

/-- The edge that is made. -/
def edge (d : Detection) : Hyperedge := (d.node.hyperedge d.reads).1

/-- The join with the rules that are left. -/
def join (d : Detection) : JoinNode :=
  { d.node with info := { d.node.info with rules := (d.node.hyperedge d.reads).2 } }

end Detection

namespace Assembly

/-- The joins of a tree as they are when their edges are made. -/
def detections (est : Estimator) : Tree → Assembly → List Detection
  | .leaf _ _, _ => []
  | .join i info l r, a =>
    let left := (addTree est l a).value
    let right := (addTree est r left.2).value
    detections est l a ++ detections est r left.2 ++
      [⟨right.2.joinNode i info left.1 right.1, nodesOf right.2.nodes (Expr.tablesOf info.allConds)⟩]

/-- The joins of the tree get the rules that are left of their edges. -/
theorem joins_detections (est : Estimator) (t : Tree) (a : Assembly) :
    (addTree est t a).value.1.joins = (detections est t a).map Detection.join := by
  induction t generalizing a with
  | leaf i l => rfl
  | join i info l r ihl ihr =>
    let left := (addTree est l a).value
    let right := (addTree est r left.2).value
    have hl : left.1.joins = _ := ihl a
    have hr : right.1.joins = _ := ihr left.2
    rw [value_addTree_join]
    change left.1.joins ++ right.1.joins ++ [_] = _
    rw [detections, List.map_append, List.map_append, hl, hr]
    rfl

/-- Their edges are added to the graph. -/
theorem edges_detections (est : Estimator) (t : Tree) (a : Assembly) :
    (addTree est t a).value.2.shape.edges =
      a.shape.edges ++ ((detections est t a).map Detection.edge).flatMap Hyperedge.both := by
  induction t generalizing a with
  | leaf i l => exact (List.append_nil _).symm
  | join i info l r ihl ihr =>
    let left := (addTree est l a).value
    let right := (addTree est r left.2).value
    have hl : left.2.shape.edges = _ := ihl a
    have hr : right.2.shape.edges = _ := ihr left.2
    rw [value_addTree_join]
    change right.2.shape.edges ++ _ = _
    rw [detections, hr, hl]
    simp only [List.map_append, List.flatMap_append, List.append_assoc]
    rfl

/-- Both sets of nodes of a join are found in the same graph, from the tables that have been recorded and from
those that the conditions read. -/
theorem exists_of_mem_detections {est : Estimator} {t : Tree} {a : Assembly} {d : Detection}
    (hd : d ∈ detections est t a) :
    ∃ n ∈ t.joins, ∃ nodes, d.node.id = n.id ∧ d.node.info.usedNodes = nodesOf nodes n.info.usedTables ∧
      d.reads = nodesOf nodes (Expr.tablesOf n.info.allConds) := by
  induction t generalizing a with
  | leaf i l => cases hd
  | join i info l r ihl ihr =>
    rw [detections, List.mem_append, List.mem_append, List.mem_singleton] at hd
    obtain (hd | hd) | rfl := hd
    · obtain ⟨n, hn, h⟩ := ihl hd
      exact ⟨n, List.mem_append_left _ (List.mem_append_left _ hn), h⟩
    · obtain ⟨n, hn, h⟩ := ihr hd
      exact ⟨n, List.mem_append_left _ (List.mem_append_right _ hn), h⟩
    · exact ⟨_, List.mem_append_right _ (List.mem_singleton_self _), _, rfl, rfl, rfl⟩

end Assembly

/-- The graph is made of the detections. -/
theorem JoinGraph.detections_ofTree (est : Estimator) (t : Tree) :
    (ofTree est t).value.tree.joins = (Assembly.detections est t {}).map Detection.join ∧
      (ofTree est t).value.shape.addedEdges = (Assembly.detections est t {}).map Detection.edge := by
  refine ⟨Assembly.joins_detections est t {}, ?_⟩
  have hedges : (ofTree est t).value.shape.edges = _ := Assembly.edges_detections est t {}
  rw [Hypergraph.addedEdges, hedges, List.nil_append, Hypergraph.everyOther_flatMap]

/-! ### The forest -/

namespace Forest

/-- The forest after the tree below a node has been rewritten. -/
def rewrite? (f : Forest) (i : Nat) (p : Tree → Tree) : Option Forest :=
  (f.pass? i fun t => pure (p t, ())).map fun r => r.value.1

theorem rewrite?_eq {f : Forest} {i : Nat} {t : Tree} (h : f.tree? i = some t) (p : Tree → Tree) :
    f.rewrite? i p = some (f.record (p t)) := by
  rw [rewrite?, pass?, h]
  rfl

/-- The second forest is the first with the conditions of the joins below a node divided, where `t` was the
tree below it. -/
structure ClassifiedBelow (f : Forest) (t : Tree) (f' : Forest) : Prop where
  /-- The conditions of every join are divided. It has the sides that it had. -/
  joins : ∀ n ∈ t.joins, ∃ info, f'.entries[n.id]? = some (.join info n.left.id n.right.id) ∧
    n.info.Classified n.left.tables n.right.tables info
  /-- The tables carry what they did. -/
  leaves : ∀ x ∈ t.leaves, f'.entries[x.1]? = some (.leaf x.2)
  /-- Nodes that were not below the node are as they were. -/
  others : ∀ k, k ∉ t.postorder → f'.entries[k]? = f.entries[k]?
  /-- There are no more nodes and no less. -/
  size : f'.size = f.size
  /-- The root is the same node. -/
  root : f'.root = f.root
  /-- When the graph of a tree in the forest is made, a join keeps the nodes that its edge is made from. -/
  detected : ∀ est j w, f'.tree? j = some w →
    let g := (JoinGraph.ofTree est w).value
    let ds := Assembly.detections est w {}
    g.tree.joins = ds.map Detection.join ∧ g.shape.addedEdges = ds.map Detection.edge ∧
      ∀ d ∈ ds, ∀ n ∈ t.joins, d.node.id = n.id → d.reads = d.node.info.usedNodes

variable {f : Forest} {i : Nat} {t : Tree}

/-- If the tables of a join have been recorded as its conditions read them, it keeps the nodes that its edge is
made from. -/
theorem reads_eq_usedNodes {info : JoinInfo} {k l r : Nat} (hentry : f.entries[k]? = some (.join info l r))
    (hused : info.usedTables = Expr.tablesOf info.allConds) {est : Estimator} {j : Nat} {w : Tree}
    (hw : f.tree? j = some w) {d : Detection} (hd : d ∈ Assembly.detections est w {}) (hid : d.node.id = k) :
    d.reads = d.node.info.usedNodes := by
  obtain ⟨n, hn, nodes, hnode, husedNodes, hreads⟩ := Assembly.exists_of_mem_detections hd
  have hn' : f.entries[n.id]? = some (.join n.info n.left.id n.right.id) :=
    entry_of_tree? (tree?_of_mem_subtrees hw _ (Tree.tree_mem_subtrees hn))
  rw [← hnode, hid, hentry] at hn'
  cases hn'
  rw [hreads, husedNodes, hused]

/-- **Dividing the conditions loses nothing and agrees with what has been recorded.** If no node is below the
node twice and no join below it has hash keys, both passes go over the tree below it, and every condition of a
join becomes a hash key or stays, and is among those whose tables have been recorded. -/
theorem classifiedBelow_rewrite (ht : f.tree? i = some t) (hnodup : t.postorder.Nodup)
    (hkeys : ∀ n ∈ t.joins, n.info.keys = []) :
    ∃ f₁ f₂, f.rewrite? i Tree.recordUsedTables = some f₁ ∧ f₁.rewrite? i Tree.divideKeys = some f₂ ∧
      f.ClassifiedBelow t f₂ := by
  -- the second pass reads the tree that the first one has left below the node
  have hrecord : t.recordUsedTables.outline = t.outline := Tree.outline_recordUsedTables t
  have hnodup₁ : t.recordUsedTables.postorder.Nodup := by rwa [Tree.postorder_of_outline hrecord]
  have h₁ := changedBelow_record_of_nodup ht hnodup hrecord
  have h₂ := changedBelow_record_of_nodup h₁.tree hnodup₁ (Tree.outline_divideKeys _)
  refine ⟨_, _, rewrite?_eq ht _, rewrite?_eq h₁.tree _, ?_⟩
  have hchanged := h₁.trans hrecord h₂
  generalize (f.record t.recordUsedTables).record t.recordUsedTables.divideKeys = f₂ at hchanged ⊢
  have hentries : ∀ u ∈ t.recordUsedTables.divideKeys.subtrees, f₂.entries[u.id]? = some (entryOf u) :=
    fun u hu => entry_of_tree? (tree?_of_mem_subtrees hchanged.tree u hu)
  have hjoins : ∀ n ∈ t.joins, ∃ info, f₂.entries[n.id]? = some (.join info n.left.id n.right.id) ∧
      n.info.Classified n.left.tables n.right.tables info := by
    intro n hn
    obtain ⟨n', hn', hid, hleft, hright, hclassified⟩ := Tree.exists_classified hn (hkeys n hn)
    have hentry : f₂.entries[n'.id]? = some (.join n'.info n'.left.id n'.right.id) :=
      hentries _ (Tree.tree_mem_subtrees hn')
    rw [hid, hleft, hright] at hentry
    exact ⟨n'.info, hentry, hclassified⟩
  constructor
  case joins => exact hjoins
  case leaves =>
    intro x hx
    refine hentries (.leaf x.1 x.2) (Tree.leaf_mem_subtrees ?_)
    rwa [Tree.leaves_divideKeys, Tree.leaves_recordUsedTables]
  case others => exact hchanged.others
  case size => exact hchanged.size
  case root => exact hchanged.root
  case detected =>
    intro est j w hw
    obtain ⟨hgraph_joins, hgraph_edges⟩ := JoinGraph.detections_ofTree est w
    refine ⟨hgraph_joins, hgraph_edges, fun d hd n hn hid => ?_⟩
    obtain ⟨info, hentry, hclassified⟩ := hjoins n hn
    exact reads_eq_usedNodes hentry hclassified.usedTables_eq hw hd hid

/-- `t0 ⋈ t1` on `t0.x < t1.x` and `t0.x = t1.x` -/
def mixedJoin : JoinNode :=
  let (x, y) := (Dialect.sampleColumn 0, Dialect.sampleColumn 1)
  Tree.pairJoin [.compare .lt x y, x.equals y]

theorem classifiedBelow_rewrite_mixed :
    let f := ofTree mixedJoin.tree
    f.tree? 2 = some mixedJoin.tree ∧ mixedJoin.tree.postorder.Nodup ∧
      (∀ n ∈ mixedJoin.tree.joins, n.info.keys = []) ∧
      ∃ f₁ f₂, f.rewrite? 2 Tree.recordUsedTables = some f₁ ∧ f₁.rewrite? 2 Tree.divideKeys = some f₂ ∧
        f.ClassifiedBelow mixedJoin.tree f₂ := by
  intro f
  have htree : f.tree? 2 = some mixedJoin.tree :=
    tree?_of_join rfl (by decide) (by decide) (tree?_of_leaf rfl) (tree?_of_leaf rfl)
  have hnodup : mixedJoin.tree.postorder.Nodup := by decide
  have hkeys : ∀ n ∈ mixedJoin.tree.joins, n.info.keys = [] := List.forall_mem_singleton.2 rfl
  exact ⟨htree, hnodup, hkeys, classifiedBelow_rewrite htree hnodup hkeys⟩

/-- The equality becomes a hash key, and the comparison does not. -/
example : mixedJoin.info.conds.map (Expr.isHashKey mixedJoin.left.tables mixedJoin.right.tables) =
    [false, true] := by decide

end Forest

end QueryGraph
