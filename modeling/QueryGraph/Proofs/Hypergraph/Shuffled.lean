import QueryGraph.Proofs.Passes.Shuffled

/-!
# The graph of a shuffled tree

Conditions in another order lead to the same nodes and edges.

Conflict detection asks of the conditions of a join whether one of them rejects NULL and which tables they
read, and eligibility asks for the tables alone. Neither depends on their order. What does is the
selectivity of a join: it is a product of doubles, and these are rounded.

## What is proved

* `JoinNode.Shuffled.hyperedge_eq`, `Tree.Shuffled.eligibility_eq` — edges, rules and eligibility sets.
* `shuffled_addTree`, `JoinGraph.shuffled_ofTree` — the nodes and edges of a tree.
* `JoinGraph.Shuffled.filterSources` — the conditions that become filters.
-/

namespace QueryGraph

open BitSet

variable {t t' : Tree}

/-- Lists that correspond to each other have the same images under functions that respect this. -/
theorem map_eq_of_forall₂ {α β γ : Type} {R : α → β → Prop} {f : α → γ} {g : β → γ}
    (hf : ∀ x y, R x y → f x = g y) {xs : List α} {ys : List β} (h : List.Forall₂ R xs ys) :
    xs.map f = ys.map g := by
  induction h with
  | nil => rfl
  | cons hxy _ ih => rw [List.map_cons, List.map_cons, hf _ _ hxy, ih]

/-! ### Conflict detection -/

/-- The operator has the same conditions in another order. -/
structure Operator.Shuffled (o o' : Operator) : Prop where
  /-- The kind is the same. -/
  kind_eq : o.kind = o'.kind
  /-- The tables of the left side are the same. -/
  left_eq : o.left = o'.left
  /-- The tables of the right side are the same. -/
  right_eq : o.right = o'.right
  /-- The conditions are permuted. -/
  conds : o.conds.Perm o'.conds

namespace Operator.Shuffled

variable {a a' b b' : Operator} (ha : a.Shuffled a') (hb : b.Shuffled b')

include ha

theorem rejectsNull_eq (ts : TableSet) : a.rejectsNull ts = a'.rejectsNull ts := ha.conds.any_eq

include hb

theorem associative_eq : a.associative b = a'.associative b' := by
  simp only [associative, ha.kind_eq, hb.kind_eq, ha.right_eq, hb.left_eq, ha.rejectsNull_eq,
    hb.rejectsNull_eq]

theorem leftAsscom_eq : a.leftAsscom b = a'.leftAsscom b' := by
  simp only [leftAsscom, ha.kind_eq, hb.kind_eq, ha.left_eq, hb.left_eq, hb.right_eq,
    ha.rejectsNull_eq, hb.rejectsNull_eq]

theorem rightAsscom_eq : a.rightAsscom b = a'.rightAsscom b' := by
  simp only [rightAsscom, ha.kind_eq, hb.kind_eq, ha.right_eq, hb.right_eq, ha.rejectsNull_eq,
    hb.rejectsNull_eq]

end Operator.Shuffled

/-- The join and both sides of it have the same conditions in another order. -/
structure JoinNode.Shuffled (n n' : JoinNode) : Prop where
  /-- The number is the same. -/
  id_eq : n.id = n'.id
  /-- The conditions of the join are permuted. -/
  info : n.info.Shuffled n'.info
  /-- The left side is shuffled. -/
  left : n.left.Shuffled n'.left
  /-- The right side is shuffled. -/
  right : n.right.Shuffled n'.right

namespace Tree.Shuffled

theorem nodes_eq (h : t.Shuffled t') : t.nodes = t'.nodes := by
  cases h with
  | leaf h => exact h.nodes_eq
  | join h _ _ => exact h.nodes_eq

theorem joins (h : t.Shuffled t') : List.Forall₂ JoinNode.Shuffled t.joins t'.joins := by
  induction h with
  | leaf h => exact .nil
  | join h hl hr ihl ihr =>
    exact List.rel_append (List.rel_append ihl ihr) (.cons ⟨rfl, h, hl, hr⟩ .nil)

theorem rules_eq (h : t.Shuffled t') :
    t.joins.map (fun n => (n.id, n.info.rules)) = t'.joins.map fun n => (n.id, n.info.rules) :=
  map_eq_of_forall₂ (fun _ _ hn => Prod.ext hn.id_eq hn.info.rules_eq) h.joins

/-- What a condition waits for does not depend on the order of conditions. -/
theorem eligibility_eq (h : t.Shuffled t') (used : TableSet) : t.eligibility used = t'.eligibility used := by
  induction h with
  | leaf h => rfl
  | join h hl hr ihl ihr =>
    simp only [eligibility, hl.tables_eq, hr.tables_eq, ihl, ihr, h.kind_eq,
      Expr.tablesOf_perm h.allConds]

end Tree.Shuffled

namespace JoinNode.Shuffled

variable {n n' a a' : JoinNode}

theorem operator (h : n.Shuffled n') : n.operator.Shuffled n'.operator where
  kind_eq := h.info.kind_eq
  left_eq := h.left.tables_eq
  right_eq := h.right.tables_eq
  conds := h.info.allConds

theorem conflictRules_eq (h : n.Shuffled n') : n.conflictRules = n'.conflictRules := by
  have hleft (a a' : JoinNode) (ha : a.Shuffled a') : n.rulesFromLeft a = n'.rulesFromLeft a' := by
    simp only [rulesFromLeft, ha.operator.associative_eq h.operator, ha.operator.leftAsscom_eq h.operator,
      ha.info.usedNodes_eq, ha.left.nodes_eq, ha.right.nodes_eq]
  have hright (a a' : JoinNode) (ha : a.Shuffled a') : n.rulesFromRight a = n'.rulesFromRight a' := by
    simp only [rulesFromRight, h.operator.associative_eq ha.operator, h.operator.rightAsscom_eq ha.operator,
      ha.info.usedNodes_eq, ha.left.nodes_eq, ha.right.nodes_eq]
  rw [conflictRules, conflictRules, List.flatMap_def, List.flatMap_def, List.flatMap_def, List.flatMap_def,
    map_eq_of_forall₂ hleft h.left.joins, map_eq_of_forall₂ hright h.right.joins]

/-- The edge of a join and the rules that are left do not depend on the order of conditions. -/
theorem hyperedge_eq (h : n.Shuffled n') (used : NodeSet) : n.hyperedge used = n'.hyperedge used := by
  rw [hyperedge, hyperedge, h.conflictRules_eq, h.left.nodes_eq, h.right.nodes_eq]

end JoinNode.Shuffled

/-! ### Nodes and edges -/

/-- The node has the same candidates in another order. -/
structure TableNode.Shuffled (n n' : TableNode) : Prop where
  /-- The table is the same. -/
  table_eq : n.table = n'.table
  /-- The candidates for lookups are permuted. -/
  candidates : n.candidates.Perm n'.candidates

theorem tables_of_shuffled {nodes nodes' : List TableNode}
    (h : List.Forall₂ TableNode.Shuffled nodes nodes') :
    nodes.map TableNode.table = nodes'.map TableNode.table :=
  map_eq_of_forall₂ (fun _ _ hn => hn.table_eq) h

/-- Lookups do not matter. -/
theorem shuffled_of_bare {nodes nodes' looked looked' : List TableNode}
    (h : List.Forall₂ TableNode.Shuffled nodes nodes')
    (hlooked : looked.map TableNode.bare = nodes.map TableNode.bare)
    (hlooked' : looked'.map TableNode.bare = nodes'.map TableNode.bare) :
    List.Forall₂ TableNode.Shuffled looked looked' := by
  have hbare (xs ys : List TableNode) : List.Forall₂ TableNode.Shuffled xs ys ↔
      List.Forall₂ TableNode.Shuffled (xs.map TableNode.bare) (ys.map TableNode.bare) := by
    rw [List.forall₂_map_left_iff, List.forall₂_map_right_iff]
    exact ⟨fun h => h.imp fun _ _ h => ⟨h.table_eq, h.candidates⟩,
      fun h => h.imp fun _ _ h => ⟨h.table_eq, h.candidates⟩⟩
  rw [hbare, hlooked, hlooked', ← hbare]
  exact h

/-- The part of a graph comes from a shuffled part of a tree. -/
structure Assembly.Shuffled (a a' : Assembly) : Prop where
  /-- Nodes and edges by themselves are the same. -/
  shape_eq : a.shape = a'.shape
  /-- The nodes are shuffled. -/
  nodes : List.Forall₂ TableNode.Shuffled a.nodes a'.nodes
  /-- The edges belong to the same joins. -/
  joins_eq : a.joins.map JoinEdge.join = a'.joins.map JoinEdge.join

theorem Assembly.Shuffled.nodesOf_eq {a a' : Assembly} (h : a.Shuffled a') (ts : TableSet) :
    nodesOf a.nodes ts = nodesOf a'.nodes ts := nodesOf_congr (tables_of_shuffled h.nodes) ts

theorem shuffled_joined {est : Estimator} {a a' : Assembly} (ha : a.Shuffled a') (i : Nat)
    {info info' : JoinInfo} {l l' r r' : Tree} (h : info.Shuffled info') (hl : l.Shuffled l')
    (hr : r.Shuffled r') :
    (Assembly.joined est i info l r a).1.Shuffled (Assembly.joined est i info' l' r' a').1 ∧
      (Assembly.joined est i info l r a).2.Shuffled (Assembly.joined est i info' l' r' a').2 := by
  have hnode : (a.joinNode i info l r).Shuffled (a'.joinNode i info' l' r') :=
    ⟨rfl, { h with
      usedNodes_eq := (ha.nodesOf_eq _).trans (congrArg (nodesOf a'.nodes) h.usedTables_eq)
      nodes_eq := congrArg₂ (· ∪ ·) hl.nodes_eq hr.nodes_eq }, hl, hr⟩
  have hedge := hnode.hyperedge_eq (nodesOf a.nodes (Expr.tablesOf info.allConds))
  have hused : nodesOf a.nodes (Expr.tablesOf info.allConds) =
      nodesOf a'.nodes (Expr.tablesOf info'.allConds) := by
    rw [ha.nodesOf_eq, Expr.tablesOf_perm h.allConds]
  simp only [Assembly.joined, ← hused, ← hedge]
  refine ⟨.join { hnode.info with rules_eq := rfl } hl hr, ?_, ha.nodes, ?_⟩
  · rw [Assembly.addJoin, Assembly.addJoin, ha.shape_eq]
  · simp [Assembly.addJoin, ha.joins_eq]

/-- A shuffled tree has the same nodes and edges. -/
theorem shuffled_addTree (est : Estimator) (h : t.Shuffled t') {a a' : Assembly} (ha : a.Shuffled a') :
    (Assembly.addTree est t a).value.1.Shuffled (Assembly.addTree est t' a').value.1 ∧
      (Assembly.addTree est t a).value.2.Shuffled (Assembly.addTree est t' a').value.2 := by
  induction h generalizing a a' with
  | leaf h =>
    refine ⟨.leaf { h with nodes_eq := ?_ }, congrArg Hypergraph.addNode ha.shape_eq, ?_, ha.joins_eq⟩
    · rw [ha.nodes.length_eq]
    · exact List.rel_append ha.nodes (.cons ⟨h.table_eq, h.lookups⟩ .nil)
  | @join i _ _ _ _ _ _ h _ _ ihl ihr =>
    obtain ⟨hl, hal⟩ := ihl ha
    obtain ⟨hr, har⟩ := ihr hal
    rw [Assembly.value_addTree_join, Assembly.value_addTree_join]
    exact shuffled_joined har i h hl hr

namespace JoinGraph

/-- The graph has the same conditions in another order. Its predicates are not looked at. -/
structure Shuffled (g g' : JoinGraph) : Prop where
  /-- Nodes and edges by themselves are the same. -/
  shape_eq : g.shape = g'.shape
  /-- The nodes are shuffled. -/
  nodes : List.Forall₂ TableNode.Shuffled g.nodes g'.nodes
  /-- The edges belong to the same joins. -/
  joins_eq : g.joins.map JoinEdge.join = g'.joins.map JoinEdge.join
  /-- The tree is shuffled. -/
  tree : g.tree.Shuffled g'.tree

variable {g g' : JoinGraph}

/-- Looking for lookups does not matter. -/
theorem Shuffled.lookupsAdded {limit : Nat} {more more' : List Predicate} {found found' : JoinGraph}
    (h : g.Shuffled g') (hfound : LookupsAdded limit g more found)
    (hfound' : LookupsAdded limit g' more' found') : found.Shuffled found' where
  shape_eq := by rw [hfound.shape_eq, hfound'.shape_eq, h.shape_eq]
  nodes := shuffled_of_bare h.nodes hfound.nodes_eq hfound'.nodes_eq
  joins_eq := by rw [hfound.joins_eq, hfound'.joins_eq, h.joins_eq]
  tree := by
    rw [hfound.tree_eq, hfound'.tree_eq]
    exact h.tree

theorem shuffled_ofTree (est : Estimator) (h : t.Shuffled t') :
    (ofTree est t).value.Shuffled (ofTree est t').value := by
  have hempty : Assembly.Shuffled {} {} := ⟨rfl, .nil, rfl⟩
  obtain ⟨htree, hassembly⟩ := shuffled_addTree est h hempty
  exact ⟨hassembly.shape_eq, hassembly.nodes, hassembly.joins_eq, htree⟩

/-! ### Filters -/

theorem Shuffled.nodeSet_eq (h : g.Shuffled g') (ts : TableSet) : g.nodeSet ts = g'.nodeSet ts :=
  nodesOf_congr (tables_of_shuffled h.nodes) ts

/-- The same conditions become filters and wait for the same nodes, in another order. -/
theorem Shuffled.filterSources (h : g.Shuffled g') {remaining remaining' : List Expr}
    (hremaining : remaining.Perm remaining') :
    (g.filterSources remaining).Perm (g'.filterSources remaining') := by
  have hfilters {t t' : Tree} (ht : t.Shuffled t') (f : TableSet → NodeSet) :
      (t.filtersByLeaf.map fun x => (x.2, f x.2.tables ∪ x.1.nodes)).Perm
        (t'.filtersByLeaf.map fun x => (x.2, f x.2.tables ∪ x.1.nodes)) := by
    induction ht with
    | leaf h =>
      simp only [Tree.filtersByLeaf, Tree.leaves, List.flatMap_cons, List.flatMap_nil, List.append_nil,
        List.map_map, Function.comp_def, h.nodes_eq]
      exact h.filters.map _
    | join _ _ _ ihl ihr =>
      simp only [Tree.filtersByLeaf, Tree.leaves, List.flatMap_append, List.map_append]
      exact ihl.append ihr
  simp only [JoinGraph.filterSources, h.nodeSet_eq, h.tree.eligibility_eq]
  exact (hremaining.map _).append (hfilters h.tree g'.nodeSet)

end JoinGraph

end QueryGraph
