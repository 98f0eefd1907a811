import Mathlib.Data.Fintype.Basic
import Mathlib.Data.List.OfFn
import Mathlib.Data.Sym.Sym2
import QueryGraph.Proofs.Hypergraph.Adjacency
import QueryGraph.Proofs.Hypergraph.Mirroring

/-!
# Inner joins associate freely

Two trees of inner joins over the same tables, with the same conditions on their joins, have graphs that differ
in nothing but the sides of their edges.

## The model

An inner join may always change places with another one, so no join has any rules. If the conditions of a join
read tables of both sides and nothing else, the two ends of its edge together are the nodes of these tables.
This says nothing of the form of the tree any more, and the nodes are numbered by the leaves. So joins with the
same conditions have edges with the same nodes, which may be divided between the two ends in another way. An
edge with two nodes can be divided in one way only, up to its direction.

## What is proved

* `pair?_congr` — edges with the same nodes join the same pair of nodes, or neither of them is simple.
* `inner_ofTree` — the edges and rules of the graph of a tree of inner joins.
* `inner_joins_associate` — the graphs of two such trees.
-/

namespace QueryGraph

open BitSet

/-! ### Edges -/

namespace Hyperedge

variable {e e' : Hyperedge} {a b : Nat}

/-- The two nodes that a simple edge joins. -/
def pair? (e : Hyperedge) : Option (Sym2 Nat) :=
  if e.isSimple then some s(e.left.least, e.right.least) else none

/-- The edge goes from the one node to the other. -/
def Links (e : Hyperedge) (a b : Nat) : Prop := e.StartsAt a ∧ e.swap.StartsAt b

/-- Both ends of the edge have nodes, and no node is at both. -/
structure Proper (e : Hyperedge) : Prop where
  /-- The left end has a node. -/
  left_ne_empty : e.left ≠ ∅
  /-- The right end has a node. -/
  right_ne_empty : e.right ≠ ∅
  /-- The ends have no node in common. -/
  apart : e.left.overlaps e.right = false

theorem isSimple_iff : e.isSimple = true ↔ ∃ a b, e.Links a b := by
  rw [isSimple, Bool.and_eq_true, isSingleton_iff, isSingleton_iff]
  exact exists_and_exists_comm.trans Iff.rfl

theorem pair?_of_links (h : e.Links a b) : e.pair? = some s(a, b) := by
  obtain ⟨hleft, hright⟩ := h
  have ha : e.left.least = a := (hleft _).1 (least_mem (ne_empty_iff.2 ⟨a, (hleft a).2 rfl⟩))
  have hb : e.right.least = b := (hright _).1 (least_mem (ne_empty_iff.2 ⟨b, (hright b).2 rfl⟩))
  rw [pair?, if_pos (isSimple_iff.2 ⟨a, b, hleft, hright⟩), ha, hb]

theorem links_of_mem (hproper : e.Proper) (h : ∀ v, v ∈ e.left ∨ v ∈ e.right → v = a ∨ v = b)
    (ha : a ∈ e.left) (hb : b ∈ e.right) : e.Links a b := by
  have hapart := overlaps_eq_false_iff.1 hproper.apart
  refine ⟨fun v => ⟨fun hv => ?_, fun hv => hv ▸ ha⟩, fun v => ⟨fun hv => ?_, fun hv => hv ▸ hb⟩⟩
  · exact (h v (.inl hv)).resolve_right fun hvb => hapart v hv (hvb ▸ hb)
  · exact (h v (.inr hv)).resolve_left fun hva => hapart v (hva ▸ ha) hv

/-- Two nodes can be divided between the ends of an edge in one way only, up to its direction. -/
theorem links_of_union (h : e.Links a b) (hproper : e'.Proper)
    (hunion : e'.left ∪ e'.right = e.left ∪ e.right) : e'.Links a b ∨ e'.Links b a := by
  obtain ⟨hleft, hright⟩ := h
  have hmem (v : Nat) (hv : v ∈ e'.left ∨ v ∈ e'.right) : v = a ∨ v = b := by
    rw [← mem_union, hunion, mem_union] at hv
    exact hv.imp (hleft v).1 (hright v).1
  have hapart := overlaps_eq_false_iff.1 hproper.apart
  obtain ⟨v, hv⟩ := ne_empty_iff.1 hproper.left_ne_empty
  obtain ⟨w, hw⟩ := ne_empty_iff.1 hproper.right_ne_empty
  have hne : v ≠ w := fun hvw => hapart v hv (hvw ▸ hw)
  -- each end has one of the two nodes, so neither has room for another one
  rcases hmem v (.inl hv) with rfl | rfl
  · obtain rfl := (hmem w (.inr hw)).resolve_left hne.symm
    exact .inl (links_of_mem hproper hmem hv hw)
  · obtain rfl := (hmem w (.inr hw)).resolve_right hne.symm
    exact .inr (links_of_mem hproper (fun u hu => (hmem u hu).symm) hv hw)

/-- Edges with the same nodes join the same pair of nodes, or neither of them is simple. -/
theorem pair?_congr (hproper : e.Proper) (hproper' : e'.Proper)
    (hunion : e.left ∪ e.right = e'.left ∪ e'.right) : e.pair? = e'.pair? := by
  by_cases hsimple : e.isSimple = true
  · obtain ⟨a, b, hlinks⟩ := isSimple_iff.1 hsimple
    rcases links_of_union hlinks hproper' hunion.symm with h | h
    · rw [pair?_of_links hlinks, pair?_of_links h]
    · rw [pair?_of_links hlinks, pair?_of_links h, Sym2.eq_swap]
  · have hsimple' : ¬ e'.isSimple = true := by
      intro h
      obtain ⟨a, b, hlinks⟩ := isSimple_iff.1 h
      rcases links_of_union hlinks hproper hunion with h | h
      · exact hsimple (isSimple_iff.2 ⟨a, b, h⟩)
      · exact hsimple (isSimple_iff.2 ⟨b, a, h⟩)
    rw [pair?, pair?, if_neg hsimple, if_neg hsimple']

end Hyperedge

/-- The pairs of nodes that simple edges of the graph join. -/
def Hypergraph.pairs (g : Hypergraph) : List (Sym2 Nat) := g.addedEdges.filterMap Hyperedge.pair?

/-- A list has what stands at its places. -/
theorem coe_eq_map {α : Type} (xs : List α) :
    (xs : Multiset α) = Finset.univ.val.map fun k : Fin xs.length => xs[k] := by
  rw [Fin.univ_val_map, Multiset.coe_eq_coe]
  exact .of_eq List.ofFn_getElem.symm

/-- Lists whose members are matched with each other are the same but for the order. -/
theorem perm_of_matching {α : Type} {xs ys : List α} {m n : Nat} (hxs : xs.length = m) (hys : ys.length = n)
    (σ : Fin m ≃ Fin n) (h : ∀ k : Fin m, xs[k.val]? = ys[(σ k).val]?) : xs.Perm ys := by
  subst hxs hys
  have hget (k : Fin xs.length) : xs[k] = ys[σ k] := by
    have hsome := h k
    rwa [List.getElem?_eq_getElem k.isLt, List.getElem?_eq_getElem (σ k).isLt, Option.some.injEq] at hsome
  -- both are images of their places, and `σ` renames the places
  rw [← Multiset.coe_eq_coe, coe_eq_map xs, coe_eq_map ys, ← Multiset.map_univ_val_equiv σ, Multiset.map_map]
  exact Multiset.map_congr rfl fun k _ => hget k

/-! ### One tree -/

/-- The conditions of the join read tables of both sides, and none that are not below the join. -/
structure JoinNode.Spans (n : JoinNode) : Prop where
  /-- The tables that are read are below the join. -/
  below : Expr.tablesOf n.info.allConds ⊆ n.tree.tables
  /-- Some of them are on the left side. -/
  left : (Expr.tablesOf n.info.allConds).overlaps n.left.tables = true
  /-- Some of them are on the right side. -/
  right : (Expr.tablesOf n.info.allConds).overlaps n.right.tables = true

instance (n : JoinNode) : Decidable n.Spans :=
  decidable_of_iff (Expr.tablesOf n.info.allConds ⊆ n.tree.tables ∧
      (Expr.tablesOf n.info.allConds).overlaps n.left.tables = true ∧
      (Expr.tablesOf n.info.allConds).overlaps n.right.tables = true)
    ⟨fun ⟨hbelow, hleft, hright⟩ => ⟨hbelow, hleft, hright⟩, fun h => ⟨h.below, h.left, h.right⟩⟩

/-- All joins of the tree are inner joins whose conditions read tables of both sides. -/
structure Tree.Inner (t : Tree) : Prop where
  /-- All joins are inner joins. -/
  kinds : ∀ n ∈ t.joins, n.info.kind = .inner
  /-- Their conditions read tables of both sides, and none that are not below them. -/
  spans : ∀ n ∈ t.joins, n.Spans

theorem JoinNode.spans_bare {n : JoinNode} : n.bare.Spans ↔ n.Spans := by
  have htree : n.bare.tree.tables = n.tree.tables := Tree.tables_bare n.tree
  constructor
  · rintro ⟨hbelow, hleft, hright⟩
    rw [htree] at hbelow
    exact ⟨hbelow, by rwa [bare, Tree.tables_bare] at hleft, by rwa [bare, Tree.tables_bare] at hright⟩
  · rintro ⟨hbelow, hleft, hright⟩
    rw [← htree] at hbelow
    exact ⟨hbelow, by rwa [bare, Tree.tables_bare], by rwa [bare, Tree.tables_bare]⟩

theorem Tree.inner_bare {t : Tree} : t.bare.Inner ↔ t.Inner := by
  constructor
  · rintro ⟨hkinds, hspans⟩
    rw [joins_bare, List.forall_mem_map] at hkinds hspans
    exact ⟨hkinds, fun n hn => JoinNode.spans_bare.1 (hspans n hn)⟩
  · rintro ⟨hkinds, hspans⟩
    refine ⟨?_, ?_⟩
    · rw [joins_bare, List.forall_mem_map]
      exact hkinds
    · rw [joins_bare, List.forall_mem_map]
      exact fun n hn => JoinNode.spans_bare.2 (hspans n hn)

/-- In a tree that has only got its nodes and rules, every join is at its place. -/
theorem Tree.exists_join_of_bare {t t' : Tree} (h : t'.bare = t.bare) (k : Fin t.joins.length) :
    ∃ n, t'.joins[k.val]? = some n ∧ n.bare = t.joins[k].bare := by
  have hjoin : (t'.joins.map JoinNode.bare)[k.val]? = some t.joins[k].bare := by
    rw [← joins_bare, h, joins_bare, List.getElem?_map, List.getElem?_eq_getElem k.isLt]
    rfl
  rw [List.getElem?_map] at hjoin
  exact Option.map_eq_some_iff.1 hjoin

namespace JoinNode

variable {n a : JoinNode}

theorem proper_edge (hn : n.tree.Numbered) : n.edge.Proper :=
  ⟨edge_left_ne_empty hn, edge_right_ne_empty hn, edge_apart hn⟩

theorem rulesFromLeft_of_inner (hn : n.info.kind = .inner) (ha : a.info.kind = .inner) :
    n.rulesFromLeft a = [] := by
  have hassociative : a.operator.associative n.operator = true := by
    simp only [Operator.associative, operator, hn, ha]
  have hleftAsscom : a.operator.leftAsscom n.operator = true := by
    simp only [Operator.leftAsscom, operator, hn, ha]
  simp only [rulesFromLeft, hassociative, hleftAsscom, if_true, List.append_nil]

theorem rulesFromRight_of_inner (hn : n.info.kind = .inner) (ha : a.info.kind = .inner) :
    n.rulesFromRight a = [] := by
  have hassociative : n.operator.associative a.operator = true := by
    simp only [Operator.associative, operator, hn, ha]
  have hrightAsscom : n.operator.rightAsscom a.operator = true := by
    simp only [Operator.rightAsscom, operator, hn, ha]
  simp only [rulesFromRight, hassociative, hrightAsscom, if_true, List.append_nil]

/-- Between inner joins there are no rules. -/
theorem conflictRules_of_inner (hn : n.info.kind = .inner)
    (h : ∀ s, ∀ a ∈ (n.side s).joins, a.info.kind = .inner) : n.conflictRules = [] := by
  rw [conflictRules, List.append_eq_nil_iff, List.flatMap_eq_nil_iff, List.flatMap_eq_nil_iff]
  exact ⟨fun a ha => rulesFromLeft_of_inner hn (h .left a ha),
    fun a ha => rulesFromRight_of_inner hn (h .right a ha)⟩

/-- A join without rules waits for what its conditions read, if that is on both sides. -/
theorem hyperedge_of_overlaps (h : n.conflictRules = []) {used : NodeSet}
    (hleft : used.overlaps n.left.nodes = true) (hright : used.overlaps n.right.nodes = true) :
    n.hyperedge used = (⟨used ∩ n.left.nodes, used ∩ n.right.nodes⟩, []) := by
  have hsaturate : ConflictRule.saturate [] used = (used, []) := by
    rw [ConflictRule.saturate, dif_pos (.inl rfl)]
    rfl
  have hfold : ConflictRule.fold [] used n.left.nodes n.right.nodes = (used, []) := by
    rw [ConflictRule.fold, hsaturate, ConflictRule.widen, ConflictRule.widen, if_pos hleft, if_pos hright]
  rw [hyperedge, h, hfold]

/-- The edge of such a join has no other nodes. -/
theorem union_edge (hn : n.tree.Numbered)
    (h : n.hyperedge n.reads = (⟨n.reads ∩ n.left.nodes, n.reads ∩ n.right.nodes⟩, [])) :
    n.edge.left ∪ n.edge.right = n.reads := by
  refine Subset.antisymm ?_ (reads_subset_edge hn)
  rw [edge, h]
  exact union_subset (inter_subset_left _ _) (inter_subset_left _ _)

end JoinNode

namespace JoinGraph

/-- The graph of the tree has no rules, and the nodes of an edge are those of the tables that the conditions of
its join read. -/
structure RuleFree (t : Tree) (g : JoinGraph) : Prop where
  /-- No join keeps a rule. -/
  rules_eq : ∀ n ∈ g.tree.joins, n.info.rules = []
  /-- There is an edge for every join. -/
  length_eq : g.shape.addedEdges.length = t.joins.length
  /-- At the place of a join is an edge with the nodes of the tables that its conditions read. -/
  edge_eq : ∀ k : Fin t.joins.length, ∃ e, g.shape.addedEdges[k.val]? = some e ∧ e.Proper ∧
    e.left ∪ e.right = g.nodeSet (Expr.tablesOf t.joins[k].info.allConds)

/-- Some tables are on a side of a join just when some of their nodes are. -/
theorem Mirrors.overlaps_side {t : Tree} {g : JoinGraph} (h : g.Mirrors t) {n : JoinNode}
    (hn : n ∈ g.tree.joins) (s : Side) {ts : TableSet} (hts : ts ⊆ g.tree.tables) :
    (g.nodeSet ts).overlaps (n.side s).nodes = ts.overlaps (n.side s).tables := by
  have htables : g.tree.tables = t.tables := by rw [← Tree.tables_bare, h.bare_eq, Tree.tables_bare]
  have hside : (n.side s).tables ⊆ t.tables := htables ▸ Tree.tables_side_subset hn s
  rw [← h.nodeSet_tables _ (Tree.side_mem_subtrees hn s), h.overlaps_nodeSet ts _ (htables ▸ hts) hside]

/-- The edge of an inner join among inner joins is made of the nodes that its conditions read, and no rules are
left. -/
theorem Mirrors.hyperedge_of_inner {t : Tree} {g : JoinGraph} (h : g.Mirrors t) (hinner : g.tree.Inner)
    {n : JoinNode} (hn : n ∈ g.tree.joins)
    (hreads : n.reads = g.nodeSet (Expr.tablesOf n.info.allConds)) :
    n.hyperedge n.reads = (⟨n.reads ∩ n.left.nodes, n.reads ∩ n.right.nodes⟩, []) := by
  have hspans := hinner.spans n hn
  have hbelow : Expr.tablesOf n.info.allConds ⊆ g.tree.tables :=
    Subset.trans hspans.below
      (union_subset (Tree.tables_side_subset hn .left) (Tree.tables_side_subset hn .right))
  have hreaches (s : Side) : n.reads.overlaps (n.side s).nodes =
      (Expr.tablesOf n.info.allConds).overlaps (n.side s).tables := by
    rw [hreads, h.overlaps_side hn s hbelow]
  have hrules : n.conflictRules = [] := JoinNode.conflictRules_of_inner (hinner.kinds n hn) fun s a ha =>
    hinner.kinds a (Tree.mem_of_mem_side hn ha)
  exact JoinNode.hyperedge_of_overlaps hrules ((hreaches .left).trans hspans.left)
    ((hreaches .right).trans hspans.right)

/-- The joins of a tree of inner joins have no rules, and their edges have the nodes of the tables that their
conditions read. -/
theorem ruleFree_ofTree (est : Estimator) {t : Tree} (hinner : t.Inner) (hnodup : t.numbers.Nodup)
    (hnumbers : ∀ i ∈ t.numbers, i < 64) : (ofTree est t).value.RuleFree t := by
  have hsep := Tree.separate_of_nodup hnumbers hnodup
  have hmade := assembled_ofTree est hsep hnumbers
  have hmirrors := mirrors_ofTree est t hnodup hnumbers
  have hbare : (ofTree est t).value.tree.bare = t.bare := hmirrors.bare_eq
  have hinner' : (ofTree est t).value.tree.Inner := by rwa [← Tree.inner_bare, hbare, Tree.inner_bare]
  have hreads : ∀ n ∈ (ofTree est t).value.tree.joins,
      n.reads = (ofTree est t).value.nodeSet (Expr.tablesOf n.info.allConds) := fun n hn =>
    (Tree.nodesOf_eq (hmade.placed.of_mem hn) (length_nodes_ofTree_le hsep hnumbers) fun i hi _ =>
      subset_iff.1 (hinner'.spans n hn).below i hi).symm
  have hdetected := fun n hn => hmirrors.hyperedge_of_inner hinner' hn (hreads n hn)
  have hedges := addedEdges_ofTree est hsep hnumbers
  refine ⟨fun n hn => ?_, ?_, fun k => ?_⟩
  · rw [hmade.ruled n hn, hdetected n hn]
  · rw [hedges, List.length_map, length_tree_ofTree]
  · obtain ⟨n, hn, hnk⟩ := Tree.exists_join_of_bare hbare k
    have hmem := List.mem_of_getElem? hn
    have hnum := (JoinNode.numbered_of_mem hmade.numbered hmem).1
    have hconds : n.info.allConds = t.joins[k].info.allConds := by
      change n.bare.info.allConds = t.joins[k].bare.info.allConds
      rw [hnk]
    refine ⟨n.edge, ?_, JoinNode.proper_edge hnum, ?_⟩
    · rw [hedges, List.getElem?_map, hn, Option.map_some]
    · rw [JoinNode.union_edge hnum (hdetected n hmem), hreads n hmem, hconds]

/-! ### Two trees -/

/-- The graphs `g` and `h` of two trees, whose joins are matched with each other, have no rules and differ in
nothing but the sides of their edges. -/
structure Reassociated {t u : Tree} (σ : Fin t.joins.length ≃ Fin u.joins.length) (g h : JoinGraph) : Prop where
  /-- The joins of the one graph are those of its tree, in postorder. -/
  joins_left : g.joins.map JoinEdge.join = t.joins.map JoinNode.id
  /-- So are those of the other one. -/
  joins_right : h.joins.map JoinEdge.join = u.joins.map JoinNode.id
  /-- No join of the one graph keeps a rule. -/
  rules_left : ∀ n ∈ g.tree.joins, n.info.rules = []
  /-- No join of the other one does. -/
  rules_right : ∀ n ∈ h.tree.joins, n.info.rules = []
  /-- Joins that are matched have edges with the same nodes. -/
  edges_matched : ∀ k, ∃ e e', g.shape.addedEdges[k.val]? = some e ∧ h.shape.addedEdges[(σ k).val]? = some e' ∧
    e.left ∪ e.right = e'.left ∪ e'.right
  /-- The simple edges join the same pairs of nodes, and each pair as often. -/
  pairs_perm : g.shape.pairs.Perm h.shape.pairs

/-- Tables have the same nodes if there are the same tables from left to right. -/
theorem nodeSet_ofTree_congr (est est' : Estimator) {t u : Tree} (hnumbers : t.numbers = u.numbers)
    (hnodup : t.numbers.Nodup) (ts : TableSet) :
    (ofTree est t).value.nodeSet ts = (ofTree est' u).value.nodeSet ts := by
  have hnode (i : Nat) : nodeOf? (ofTree est t).value.nodes i = nodeOf? (ofTree est' u).value.nodes i := by
    refine Option.ext fun v => ?_
    rw [nodeOf?_ofTree hnodup, nodeOf?_ofTree (hnumbers ▸ hnodup), hnumbers]
  rw [nodeSet, nodeSet, nodesOf, nodesOf, funext hnode]

/-- **Inner joins associate freely.** Two trees of inner joins over the same tables from left to right, whose
joins are matched so that matched joins have the same conditions, have graphs without rules, with the same
nodes at the edges of matched joins and with the same simple edges. -/
theorem inner_joins_associate (est est' : Estimator) {t u : Tree} (ht : t.Inner) (hu : u.Inner)
    (hsame : t.numbers = u.numbers) (hnodup : t.numbers.Nodup) (hnumbers : ∀ i ∈ t.numbers, i < 64)
    (σ : Fin t.joins.length ≃ Fin u.joins.length)
    (hconds : ∀ k : Fin t.joins.length, t.joins[k].info.allConds.Perm u.joins[σ k].info.allConds) :
    Reassociated σ (ofTree est t).value (ofTree est' u).value := by
  have hg := ruleFree_ofTree est ht hnodup hnumbers
  have hh := ruleFree_ofTree est' hu (hsame ▸ hnodup) (hsame ▸ hnumbers)
  have hmatched : ∀ k, ∃ e e', (ofTree est t).value.shape.addedEdges[k.val]? = some e ∧
      (ofTree est' u).value.shape.addedEdges[(σ k).val]? = some e' ∧ e.Proper ∧ e'.Proper ∧
      e.left ∪ e.right = e'.left ∪ e'.right := by
    intro k
    obtain ⟨e, he, hproper, hunion⟩ := hg.edge_eq k
    obtain ⟨e', he', hproper', hunion'⟩ := hh.edge_eq (σ k)
    refine ⟨e, e', he, he', hproper, hproper', ?_⟩
    rw [hunion, hunion', nodeSet_ofTree_congr est est' hsame hnodup, Expr.tablesOf_perm (hconds k)]
  refine ⟨joins_ofTree est t, joins_ofTree est' u, hg.rules_eq, hh.rules_eq, fun k => ?_, ?_⟩
  · obtain ⟨e, e', he, he', -, -, hunion⟩ := hmatched k
    exact ⟨e, e', he, he', hunion⟩
  · have hperm : ((ofTree est t).value.shape.addedEdges.map Hyperedge.pair?).Perm
        ((ofTree est' u).value.shape.addedEdges.map Hyperedge.pair?) := by
      refine perm_of_matching ((List.length_map _).trans hg.length_eq)
        ((List.length_map _).trans hh.length_eq) σ fun k => ?_
      obtain ⟨e, e', he, he', hproper, hproper', hunion⟩ := hmatched k
      rw [List.getElem?_map, List.getElem?_map, he, he', Option.map_some, Option.map_some,
        Hyperedge.pair?_congr hproper hproper' hunion]
    have hpairs := hperm.filterMap id
    rwa [List.filterMap_map, List.filterMap_map] at hpairs

/-- The condition that two tables have the same `x`. -/
def link (i j : Nat) : Expr := Expr.equals (.column ⟨i, "t", "x", .int⟩) (.column ⟨j, "t", "x", .int⟩)

/-- `(t0 ⋈ t1) ⋈ t2`, with conditions on `t0` and `t1` and on `t1` and `t2`. -/
def fromLeft : Tree :=
  let table (i : Nat) : Tree := .leaf i { table := ⟨i, "t"⟩ }
  .join 4 { kind := .inner, conds := [link 1 2] }
    (.join 3 { kind := .inner, conds := [link 0 1] } (table 0) (table 1)) (table 2)

/-- `t0 ⋈ (t1 ⋈ t2)`, with the same conditions. -/
def fromRight : Tree :=
  let table (i : Nat) : Tree := .leaf i { table := ⟨i, "t"⟩ }
  .join 4 { kind := .inner, conds := [link 0 1] } (table 0)
    (.join 3 { kind := .inner, conds := [link 1 2] } (table 1) (table 2))

/-- The upper join of the one tree is matched with the lower join of the other. -/
def chainMatching : Fin fromLeft.joins.length ≃ Fin fromRight.joins.length := (Equiv.swap 0 1 : Fin 2 ≃ Fin 2)

theorem inner_joins_associate_chain :
    fromLeft.Inner ∧ fromRight.Inner ∧ fromLeft.numbers = fromRight.numbers ∧ fromLeft.numbers.Nodup ∧
      (∀ i ∈ fromLeft.numbers, i < 64) ∧
      (∀ k : Fin fromLeft.joins.length,
        fromLeft.joins[k].info.allConds.Perm fromRight.joins[chainMatching k].info.allConds) ∧
      Reassociated chainMatching (ofTree .default fromLeft).value (ofTree .default fromRight).value := by
  have hleft : fromLeft.Inner := ⟨by decide, by decide⟩
  have hright : fromRight.Inner := ⟨by decide, by decide⟩
  have hnodup : fromLeft.numbers.Nodup := by decide
  have hnumbers : ∀ i ∈ fromLeft.numbers, i < 64 := by decide
  have hconds : ∀ k : Fin fromLeft.joins.length,
      fromLeft.joins[k].info.allConds.Perm fromRight.joins[chainMatching k].info.allConds :=
    Fin.forall_fin_two.2 ⟨.refl _, .refl _⟩
  exact ⟨hleft, hright, rfl, hnodup, hnumbers, hconds,
    inner_joins_associate .default .default hleft hright rfl hnodup hnumbers chainMatching hconds⟩

/-- Both graphs are the chain of the three tables. -/
example : (ofTree .default fromLeft).value.shape.pairs = [s(0, 1), s(1, 2)] ∧
    (ofTree .default fromRight).value.shape.pairs = [s(1, 2), s(0, 1)] := by decide +kernel

end JoinGraph

end QueryGraph
