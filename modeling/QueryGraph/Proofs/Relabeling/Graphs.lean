import QueryGraph.Proofs.Planning.Graph
import QueryGraph.Proofs.Relabeling.Trees

/-!
# Relabeled graphs

The graph of a relabeled query block is the graph of the block, relabeled.

Nodes and edges have no labels. They are found by the places of the tables in the tree, so they stay. A set
of tables becomes nodes by the numbers in it, so here the numbers have to fit into a set before and after
(`Fits`).

## What is proved

* `hyperedge_relabel`, `eligibility_relabel` — conflict detection and eligibility sets.
* `nodesOf_relabel`, `addTree_relabel` — nodes and edges.
* `findLookups_relabel` — the search for lookups.
* `build_relabel` — what planning returns.
-/

namespace QueryGraph

open BitSet

variable {ρ : Relabeling}

/-- A table number fits into a set, and so does its new number. -/
def Relabeling.Fits (ρ : Relabeling) (i : Nat) : Prop := i < 64 ∧ ρ.number i < 64

/-! ### Labels in graphs -/

/-- The join with new labels. -/
def JoinNode.relabel (ρ : Relabeling) (n : JoinNode) : JoinNode :=
  ⟨n.id, n.info.relabel ρ, n.left.relabel ρ, n.right.relabel ρ⟩

/-- The operator with new labels. -/
def Operator.relabel (ρ : Relabeling) (o : Operator) : Operator :=
  ⟨o.kind, ρ.set o.left, ρ.set o.right, o.conds.map (Expr.relabel ρ)⟩

/-- The lookup with new labels. Places of predicates have none. -/
def Lookup.relabel (ρ : Relabeling) (l : Lookup) : Lookup :=
  ⟨l.predicate, l.field.relabel ρ, l.other.relabel ρ⟩

/-- The node with new labels. -/
def TableNode.relabel (ρ : Relabeling) (n : TableNode) : TableNode :=
  ⟨n.table.relabel ρ, n.candidates.map (Expr.relabel ρ), n.lookups.map (Lookup.relabel ρ)⟩

/-- The predicate with new labels. -/
def Predicate.relabel (ρ : Relabeling) (p : Predicate) : Predicate := { p with cond := p.cond.relabel ρ }

/-- The part of a graph with new labels. -/
def Assembly.relabel (ρ : Relabeling) (a : Assembly) : Assembly :=
  { a with nodes := a.nodes.map (TableNode.relabel ρ) }

/-- The graph with new labels. Nodes, edges, rules and places stay. -/
def JoinGraph.relabel (ρ : Relabeling) (g : JoinGraph) : JoinGraph :=
  { g with
    nodes := g.nodes.map (TableNode.relabel ρ)
    tree := g.tree.relabel ρ
    predicates := g.predicates.map (Predicate.relabel ρ)
    lookupPredicates := g.lookupPredicates.map fun p => (p.1.relabel ρ, p.2) }

/-- The reason with new labels. -/
def PlanError.relabel (ρ : Relabeling) : PlanError → PlanError
  | tooManyTables found limit => tooManyTables found limit
  | tooManyPredicates found limit => tooManyPredicates found limit
  | unfinished e => unfinished (e.relabel ρ)

/-! ### Conflict detection -/

theorem Tree.joins_relabel (t : Tree) : (t.relabel ρ).joins = t.joins.map (JoinNode.relabel ρ) := by
  induction t with
  | leaf i l => rfl
  | join i info l r ihl ihr =>
    rw [relabel, joins, joins, ihl, ihr, List.map_append, List.map_append]
    rfl

theorem joinSelectivity_relabel {est : Estimator} (hest : est.Respects ρ) (cs : List Expr) :
    Assembly.joinSelectivity est (cs.map (Expr.relabel ρ)) = Assembly.joinSelectivity est cs := by
  simp only [Assembly.joinSelectivity, List.foldl_map, hest _]

/-- Predicates are made of relabeled conditions as they are made of the conditions. -/
theorem predicate_relabel {s : Settings} (hfin : s.finisher.Respects ρ) (hest : s.estimator.Respects ρ)
    (x : Expr × NodeSet) : s.predicate (x.1.relabel ρ, x.2) =
      Except.bimap (FinishError.relabel ρ) (Predicate.relabel ρ) (s.predicate x) := by
  rw [Settings.predicate, Settings.predicate, hfin.apply]
  refine Except.bimap_map fun c => ?_
  simp only [Predicate.relabel, hest c]

theorem mapM_predicate_relabel {s : Settings} (hfin : s.finisher.Respects ρ)
    (hest : s.estimator.Respects ρ) (xs : List (Expr × NodeSet)) :
    (xs.map fun x => (x.1.relabel ρ, x.2)).mapM s.predicate =
      Except.bimap (FinishError.relabel ρ) (List.map (Predicate.relabel ρ)) (xs.mapM s.predicate) := by
  induction xs with
  | nil => rfl
  | cons x xs ih =>
    rw [List.map_cons, List.mapM_cons, List.mapM_cons, predicate_relabel hfin hest, ih]
    refine Except.bimap_bind fun p => ?_
    exact Except.bimap_bind fun ps => rfl

/-- The numbers of the tables fit into sets, and so do the new ones. -/
def JoinGraph.Fits (ρ : Relabeling) (g : JoinGraph) : Prop := ∀ n ∈ g.nodes, ρ.Fits n.table.number

theorem JoinGraph.Fits.steps {limit : Nat} {g g' : JoinGraph} (h : g.Fits ρ)
    (hs : Relation.ReflTransGen (JoinGraph.LookupStep limit) g g') : g'.Fits ρ := by
  have hnumbers (g : JoinGraph) : g.Fits ρ ↔ ∀ t ∈ g.nodes.map TableNode.table, ρ.Fits t.number :=
    (List.forall_mem_map (P := fun t => ρ.Fits (Table.number t))).symm
  induction hs with
  | refl => exact h
  | tail _ hs ih => rwa [hnumbers, hs.tables_eq, ← hnumbers]

/-- A loop of the search respects labels, if its rounds do. -/
theorem JoinGraph.foldl_relabel {limit : Nat} {α β : Type} {f : JoinGraph → α → JoinGraph}
    {f' : JoinGraph → β → JoinGraph} (label : α → β)
    (hsteps : ∀ g x, Relation.ReflTransGen (JoinGraph.LookupStep limit) g (f g x))
    (hround : ∀ {g : JoinGraph}, g.Fits ρ → ∀ x, f' (g.relabel ρ) (label x) = (f g x).relabel ρ)
    (hfits : g.Fits ρ) (xs : List α) :
    (xs.map label).foldl f' (g.relabel ρ) = (xs.foldl f g).relabel ρ := by
  induction xs generalizing g with
  | nil => rfl
  | cons x xs ih =>
    rw [List.map_cons, List.foldl_cons, List.foldl_cons, hround hfits]
    exact ih (hfits.steps (hsteps g x))

theorem QueryBlock.fits_unfiltered {s : Settings} {q : QueryBlock}
    (hfits : ∀ i ∈ q.source.tables.map Table.number, ρ.Fits i) :
    (q.unfiltered s).Fits ρ := by
  have hnumbers := numbers_addTree s.estimator (q.placed s.finisher).tree {}
  rw [List.map_nil, List.nil_append, numbers_placed] at hnumbers
  rw [← hnumbers] at hfits
  exact List.forall_mem_map.1 hfits

theorem JoinGraph.candidates_relabel (nodes : List TableNode) :
    ((nodes.map (TableNode.relabel ρ)).mapIdx fun v n => n.candidates.map (v, ·)).flatten =
      (nodes.mapIdx fun v n => n.candidates.map (v, ·)).flatten.map fun x => (x.1, x.2.relabel ρ) := by
  rw [List.map_flatten]
  refine congrArg List.flatten (List.ext_getElem? fun v => ?_)
  simp [Function.comp_def, TableNode.relabel]

@[simp] theorem JoinNode.left_relabel (n : JoinNode) : (n.relabel ρ).left = n.left.relabel ρ := rfl

@[simp] theorem JoinNode.right_relabel (n : JoinNode) : (n.relabel ρ).right = n.right.relabel ρ := rfl

@[simp] theorem JoinNode.info_relabel (n : JoinNode) : (n.relabel ρ).info = n.info.relabel ρ := rfl

@[simp] theorem JoinInfo.kind_relabel (info : JoinInfo) : (info.relabel ρ).kind = info.kind := rfl

@[simp] theorem JoinInfo.usedNodes_relabel (info : JoinInfo) :
    (info.relabel ρ).usedNodes = info.usedNodes := rfl

section

variable [ρ.Faithful]

namespace Operator

theorem rejectsNull_relabel (o : Operator) (ts : TableSet) :
    (o.relabel ρ).rejectsNull (ρ.set ts) = o.rejectsNull ts := by
  simp [rejectsNull, relabel, List.any_map, Function.comp_def]

theorem associative_relabel (a b : Operator) :
    (a.relabel ρ).associative (b.relabel ρ) = a.associative b := by
  have hl (o o' : Operator) : (o.relabel ρ).rejectsNull (o'.relabel ρ).left = o.rejectsNull o'.left :=
    rejectsNull_relabel o o'.left
  have hr (o o' : Operator) : (o.relabel ρ).rejectsNull (o'.relabel ρ).right = o.rejectsNull o'.right :=
    rejectsNull_relabel o o'.right
  simp only [associative, hl, hr]
  rfl

theorem leftAsscom_relabel (a b : Operator) :
    (a.relabel ρ).leftAsscom (b.relabel ρ) = a.leftAsscom b := by
  have hl (o o' : Operator) : (o.relabel ρ).rejectsNull (o'.relabel ρ).left = o.rejectsNull o'.left :=
    rejectsNull_relabel o o'.left
  have hr (o o' : Operator) : (o.relabel ρ).rejectsNull (o'.relabel ρ).right = o.rejectsNull o'.right :=
    rejectsNull_relabel o o'.right
  simp only [leftAsscom, hl, hr]
  rfl

theorem rightAsscom_relabel (a b : Operator) :
    (a.relabel ρ).rightAsscom (b.relabel ρ) = a.rightAsscom b := by
  have hr (o o' : Operator) : (o.relabel ρ).rejectsNull (o'.relabel ρ).right = o.rejectsNull o'.right :=
    rejectsNull_relabel o o'.right
  simp only [rightAsscom, hr]
  rfl

end Operator

namespace JoinNode

theorem operator_relabel (n : JoinNode) : (n.relabel ρ).operator = n.operator.relabel ρ := by
  simp [operator, Operator.relabel]

theorem conflictRules_relabel (n : JoinNode) : (n.relabel ρ).conflictRules = n.conflictRules := by
  have hleft (a : JoinNode) : (n.relabel ρ).rulesFromLeft (a.relabel ρ) = n.rulesFromLeft a := by
    simp [rulesFromLeft, operator_relabel, Operator.associative_relabel, Operator.leftAsscom_relabel]
  have hright (a : JoinNode) : (n.relabel ρ).rulesFromRight (a.relabel ρ) = n.rulesFromRight a := by
    simp [rulesFromRight, operator_relabel, Operator.associative_relabel, Operator.rightAsscom_relabel]
  simp only [conflictRules, left_relabel, right_relabel, Tree.joins_relabel, List.flatMap_map, hleft,
    hright]

/-- The edge of a join and its rules do not depend on labels. -/
theorem hyperedge_relabel (n : JoinNode) (used : NodeSet) :
    (n.relabel ρ).hyperedge used = n.hyperedge used := by
  rw [hyperedge, hyperedge, conflictRules_relabel]
  simp

end JoinNode

theorem Tree.eligibility_relabel (used : TableSet) (t : Tree) :
    (t.relabel ρ).eligibility (ρ.set used) = ρ.set (t.eligibility used) := by
  induction t with
  | leaf i l => rfl
  | join i info l r ihl ihr =>
    simp only [relabel, eligibility, tables_relabel, Relabeling.overlaps_set, ihl, ihr, JoinInfo.kind_relabel,
      JoinInfo.allConds_relabel, Expr.tablesOf_relabel, ← Relabeling.set_union, ← apply_ite ρ.set]

/-! ### Nodes -/

theorem nodeOf?_relabel (nodes : List TableNode) (i : Nat) :
    nodeOf? (nodes.map (TableNode.relabel ρ)) (ρ.number i) = nodeOf? nodes i := by
  rw [nodeOf?, nodeOf?, List.findIdx?_map]
  congr 1
  funext n
  exact decide_eq_decide.2 Relabeling.Faithful.injective.eq_iff

/-- A set of tables becomes the same nodes, if the numbers of the nodes fit into sets. -/
theorem nodesOf_relabel {nodes : List TableNode} (hfits : ∀ n ∈ nodes, ρ.Fits n.table.number)
    (ts : TableSet) : nodesOf (nodes.map (TableNode.relabel ρ)) (ρ.set ts) = nodesOf nodes ts := by
  have hmember {nodes : List TableNode} {ts : TableSet} {j : Nat} :
      j ∈ nodesOf nodes ts ↔ ∃ v, (∃ i ∈ ts, nodeOf? nodes i = some v) ∧ j ∈ ({v} : NodeSet) := by
    simp [nodesOf, ofList]
  have hnode {i : Nat} (hi : i < 64) :
      nodeOf? (nodes.map (TableNode.relabel ρ)) (ρ.number i % 64) = nodeOf? nodes i := by
    have hnumber {n : TableNode} (hn : ρ.Fits n.table.number) :
        (n.relabel ρ).table.number = ρ.number i % 64 ↔ n.table.number = i := by
      change ρ.number n.table.number = _ ↔ _
      rw [← Nat.mod_eq_of_lt hn.2, Relabeling.Faithful.mod_iff, Nat.mod_eq_of_lt hn.1,
        Nat.mod_eq_of_lt hi]
    clear hmember
    unfold nodeOf?
    induction nodes with
    | nil => rfl
    | cons n nodes ih =>
      have ihn := ih fun m hm => hfits m (List.mem_cons_of_mem n hm)
      simp only [List.map_cons, List.findIdx?_cons, hnumber (hfits n List.mem_cons_self), ihn]
  refine BitSet.ext fun j => ?_
  rw [hmember, hmember]
  refine exists_congr fun v => and_congr_left fun _ => ?_
  constructor
  · rintro ⟨k, hk, hv⟩
    obtain ⟨i, hi, rfl⟩ := Relabeling.mem_set.1 hk
    exact ⟨i, hi, (hnode (lt_of_mem hi)).symm.trans hv⟩
  · rintro ⟨i, hi, hv⟩
    exact ⟨_, Relabeling.mem_set.2 ⟨i, hi, rfl⟩, (hnode (lt_of_mem hi)).trans hv⟩

/-! ### Adding a tree -/

theorem joined_relabel {est : Estimator} (hest : est.Respects ρ) {a : Assembly}
    (hfits : ∀ n ∈ a.nodes, ρ.Fits n.table.number) (i : Nat) (info : JoinInfo) (l r : Tree) :
    Assembly.joined est i (info.relabel ρ) (l.relabel ρ) (r.relabel ρ) (a.relabel ρ) =
      ((Assembly.joined est i info l r a).1.relabel ρ, (Assembly.joined est i info l r a).2.relabel ρ) := by
  have hnodes (ts : TableSet) : nodesOf (a.relabel ρ).nodes (ρ.set ts) = nodesOf a.nodes ts :=
    nodesOf_relabel hfits ts
  have hused : (info.relabel ρ).usedTables = ρ.set info.usedTables := rfl
  have hnode : (a.relabel ρ).joinNode i (info.relabel ρ) (l.relabel ρ) (r.relabel ρ) =
      (a.joinNode i info l r).relabel ρ := by
    simp only [Assembly.joinNode, hused, hnodes, Tree.nodes_relabel]
    rfl
  simp only [Assembly.joined, hnode, JoinInfo.allConds_relabel, Expr.tablesOf_relabel, hnodes,
    joinSelectivity_relabel hest, JoinNode.hyperedge_relabel]
  rfl

/-- The nodes and edges of a relabeled tree are those of the tree. -/
theorem addTree_relabel {est : Estimator} (hest : est.Respects ρ) (t : Tree) (a : Assembly)
    (hfits : ∀ i ∈ a.nodes.map (·.table.number) ++ t.numbers, ρ.Fits i) :
    (Assembly.addTree est (t.relabel ρ) (a.relabel ρ)).value =
      ((Assembly.addTree est t a).value.1.relabel ρ, (Assembly.addTree est t a).value.2.relabel ρ) := by
  induction t generalizing a with
  | leaf i l => simp [Assembly.addTree, Tree.relabel, Assembly.relabel, Assembly.addTable, Leaf.relabel,
      TableNode.relabel]
  | join i info l r ihl ihr =>
    rw [Tree.numbers_join, ← List.append_assoc, ← numbers_addTree est l a] at hfits
    have hl := ihl a fun j hj => hfits j (List.mem_append_left _ (numbers_addTree est l a ▸ hj))
    have hr := ihr (Assembly.addTree est l a).value.2 hfits
    rw [← numbers_addTree est r] at hfits
    rw [Tree.relabel, Assembly.value_addTree_join, Assembly.value_addTree_join, hl]
    dsimp only
    rw [hr]
    exact joined_relabel hest (List.forall_mem_map.1 hfits) i info _ _

/-! ### Filters -/

namespace JoinGraph

variable {g : JoinGraph}

theorem nodeSet_relabel (hfits : g.Fits ρ) (ts : TableSet) :
    (g.relabel ρ).nodeSet (ρ.set ts) = g.nodeSet ts := nodesOf_relabel hfits ts

theorem filterSources_relabel (hfits : g.Fits ρ) (remaining : List Expr) :
    (g.relabel ρ).filterSources (remaining.map (Expr.relabel ρ)) =
      (g.filterSources remaining).map fun x => (x.1.relabel ρ, x.2) := by
  have hfilters : (g.relabel ρ).tree.filtersByLeaf =
      g.tree.filtersByLeaf.map fun x => (x.1.relabel ρ, x.2.relabel ρ) := by
    have htree : (g.relabel ρ).tree = g.tree.relabel ρ := rfl
    simp only [htree, Tree.filtersByLeaf, Tree.leaves_relabel, List.flatMap_map, List.map_flatMap,
      Leaf.relabel, List.map_map]
    rfl
  have htree (used : TableSet) : (g.relabel ρ).tree.eligibility (ρ.set used) =
      ρ.set (g.tree.eligibility used) := Tree.eligibility_relabel used g.tree
  simp only [filterSources, hfilters, List.map_map, List.map_append, Function.comp_def,
    Expr.tables_relabel, htree, nodeSet_relabel hfits]
  rfl

/-! ### Lookups -/

theorem lookupPredicate?_relabel (c : Expr) :
    (g.relabel ρ).lookupPredicate? (c.relabel ρ) = g.lookupPredicate? c := by
  simp [lookupPredicate?, relabel, List.find?_map, Function.comp_def]

theorem addLookupOn_relabel (cond : Expr) (node? : Option Nat) (predicate : Nat) (side other : Expr) :
    ((g.relabel ρ).addLookupOn (cond.relabel ρ) node? predicate (side.relabel ρ) (other.relabel ρ)).value =
      (g.addLookupOn cond node? predicate side other).value.relabel ρ := by
  rw [addLookupOn, addLookupOn, Expr.column?_relabel]
  cases side.column? with
  | none => rfl
  | some field =>
    have hnodes : (g.relabel ρ).nodes = g.nodes.map (TableNode.relabel ρ) := rfl
    have hfield : (field.relabel ρ).table = ρ.number field.table := rfl
    simp only [Option.map_some, hnodes, hfield, nodeOf?_relabel]
    cases nodeOf? g.nodes field.table with
    | none => rfl
    | some v =>
      simp only [List.getElem?_map]
      cases g.nodes[v]? with
      | none => rfl
      | some node =>
        have hoverlaps : (other.relabel ρ).tables.overlaps {ρ.number field.table} =
            other.tables.overlaps {field.table} := by
          rw [Expr.tables_relabel, ← Relabeling.set_singleton, Relabeling.overlaps_set]
        have hlookups : (node.relabel ρ).lookups = node.lookups.map (Lookup.relabel ρ) := rfl
        have hlisted : (node.relabel ρ).lookups.any
              (fun p => p.predicate = predicate && p.field = field.relabel ρ) =
            node.lookups.any fun p => p.predicate = predicate && p.field = field := by
          rw [hlookups, List.any_map]
          refine congrArg (List.any node.lookups) (funext fun p => ?_)
          exact congrArg (decide (p.predicate = predicate) && ·)
            (decide_eq_decide.2 Expr.relabel_column_inj)
        simp only [Option.map_some, hoverlaps, hlisted]
        split
        · rfl
        · simp only [Traced.value_bind, Traced.value_pure, relabel, List.map_set, hlookups]
          simp [TableNode.relabel, Lookup.relabel]

theorem addLookups_relabel (cond : Expr) (node? : Option Nat) (predicate : Nat) :
    ((g.relabel ρ).addLookups (cond.relabel ρ) node? predicate).value =
      (g.addLookups cond node? predicate).value.relabel ρ := by
  cases cond with
  | compare op l r =>
    cases op with
    | eq =>
      simp only [Expr.relabel, addLookups, Traced.value_bind]
      rw [← Expr.relabel, addLookupOn_relabel, addLookupOn_relabel]
    | _ => rfl
  | _ => rfl

theorem addFilterLookups_relabel (place : Nat) :
    ((g.relabel ρ).addFilterLookups place).value = (g.addFilterLookups place).value.relabel ρ := by
  have hpredicates : (g.relabel ρ).predicates = g.predicates.map (Predicate.relabel ρ) := rfl
  simp only [addFilterLookups, hpredicates, List.getElem?_map]
  cases g.predicates[place]? with
  | none => rfl
  | some p =>
    have heligibility : (p.relabel ρ).eligibility = p.eligibility := rfl
    simp only [Option.map_some, heligibility]
    split
    · exact addLookups_relabel p.cond none place
    · rfl

theorem placeLookup_relabel {est : Estimator} (hest : est.Respects ρ) (hfits : g.Fits ρ) (limit : Nat)
    (cond : Expr) : (placeLookup est limit (g.relabel ρ) (cond.relabel ρ)).value =
      ((placeLookup est limit g cond).value.1.relabel ρ, (placeLookup est limit g cond).value.2) := by
  have hlength : (g.relabel ρ).predicates.length = g.predicates.length := List.length_map ..
  simp only [placeLookup, lookupPredicate?_relabel, hlength]
  cases g.lookupPredicate? cond with
  | some place => rfl
  | none =>
    dsimp only
    split
    · rfl
    · simp only [Traced.value_bind, Traced.value_pure, Estimator.value_run, Expr.tables_relabel,
        nodeSet_relabel hfits, hest cond]
      simp [relabel, addPredicate, Predicate.relabel]

theorem addJoinLookups_relabel {est : Estimator} (hest : est.Respects ρ) (hfits : g.Fits ρ) (limit v : Nat)
    (cond : Expr) : (addJoinLookups est limit (g.relabel ρ) v (cond.relabel ρ)).value =
      (addJoinLookups est limit g v cond).value.relabel ρ := by
  rw [addJoinLookups, addJoinLookups, Traced.value_bind, Traced.value_bind,
    placeLookup_relabel hest hfits]
  generalize (placeLookup est limit g cond).value = placed
  obtain ⟨g', place?⟩ := placed
  cases place? with
  | none => rfl
  | some place => exact addLookups_relabel cond (some v) place

theorem foldl_addFilterLookups_relabel (places : List Nat) (g : JoinGraph) :
    places.foldl (fun g place => (addFilterLookups g place).value) (g.relabel ρ) =
      (places.foldl (fun g place => (addFilterLookups g place).value) g).relabel ρ := by
  induction places generalizing g with
  | nil => rfl
  | cons place places ih => rw [List.foldl_cons, List.foldl_cons, addFilterLookups_relabel, ih]

/-- The search finds the same lookups. -/
theorem findLookups_relabel {est : Estimator} (hest : est.Respects ρ) (hfits : g.Fits ρ) (limit : Nat) :
    (findLookups est limit (g.relabel ρ)).value = (findLookups est limit g).value.relabel ρ := by
  simp only [findLookups, Traced.value_bind, Traced.value_foldlM]
  have hcount : (g.relabel ρ).numFilters = g.numFilters := rfl
  rw [hcount, foldl_addFilterLookups_relabel]
  have hfilters : Relation.ReflTransGen (LookupStep limit) g
      ((List.range g.numFilters).foldl (fun g place => (addFilterLookups g place).value) g) :=
    steps_foldl (fun _ place => steps_addFilterLookups place) _ g
  generalize (List.range g.numFilters).foldl (fun g place => (addFilterLookups g place).value) g = g'
    at hfilters ⊢
  have hnodes : (g'.relabel ρ).nodes = g'.nodes.map (TableNode.relabel ρ) := rfl
  have hsteps (g : JoinGraph) (x : Nat × Expr) :
      Relation.ReflTransGen (LookupStep limit) g (addJoinLookups est limit g x.1 x.2).value :=
    steps_addJoinLookups est x.1 x.2
  rw [hnodes, candidates_relabel]
  exact foldl_relabel (fun x : Nat × Expr => (x.1, x.2.relabel ρ)) hsteps
    (fun hfits x => addJoinLookups_relabel hest hfits limit x.1 x.2) (hfits.steps hfilters) _

end JoinGraph

/-! ### The block -/

section

variable {s : Settings} {q : QueryBlock}

/-- What the search asks of a graph. -/
theorem JoinGraph.searched_relabel {g : JoinGraph} (hest : s.estimator.Respects ρ) (hfits : g.Fits ρ) :
    (g.relabel ρ).searched s = (g.searched s).relabel ρ := by
  rw [searched, searched]
  split
  · exact findLookups_relabel hest hfits s.predicateLimit
  · rfl

namespace QueryBlock

/-- The graph of the relabeled block before it gets any predicates. -/
theorem unfiltered_relabel (hfin : s.finisher.Respects ρ) (hest : s.estimator.Respects ρ)
    (hfits : ∀ i ∈ q.source.tables.map Table.number, ρ.Fits i) :
    (q.relabel ρ).unfiltered s = (q.unfiltered s).relabel ρ := by
  have hadd := addTree_relabel hest (q.placed s.finisher).tree {} fun i hi => by
    rw [List.map_nil, List.nil_append, numbers_placed] at hi
    exact hfits i hi
  have hempty : Assembly.relabel ρ {} = {} := rfl
  rw [hempty] at hadd
  simp only [unfiltered, placed_relabel q hfin, JoinGraph.ofTree, Traced.value_map, hadd]
  rfl

/-- Planning a relabeled block has the relabeled outcome, if there are not too many tables before and
after. -/
theorem build_relabel (hfin : s.finisher.Respects ρ) (hest : s.estimator.Respects ρ)
    (hcount : q.tableCount ≤ s.tableLimit) (hcount' : (q.relabel ρ).tableCount ≤ s.tableLimit)
    (trace? : Option String) : ((q.relabel ρ).build s trace?).result =
      Except.bimap (PlanError.relabel ρ) (JoinGraph.relabel ρ) (q.build s trace?).result := by
  have hfits : ∀ i ∈ q.source.tables.map Table.number, ρ.Fits i := fun i hi => by
    refine ⟨numbers_lt hcount i hi, numbers_lt hcount' _ ?_⟩
    obtain ⟨t, ht, rfl⟩ := List.mem_map.1 hi
    rw [relabel, FromList.tables_relabel, List.map_map]
    exact List.mem_map_of_mem ht
  have hunfiltered := fits_unfiltered (s := s) hfits
  rw [result_build, result_build, if_neg (Nat.not_lt.2 hcount), if_neg (Nat.not_lt.2 hcount'),
    pushed_relabel, Tree.finishConds_relabel hfin, unfiltered_relabel hfin hest hfits,
    JoinGraph.filterSources_relabel hunfiltered, mapM_predicate_relabel hfin hest]
  cases (q.pushed.1.finishConds s.finisher).error? with
  | some e => rfl
  | none =>
    cases ((q.unfiltered s).filterSources q.pushed.2).mapM s.predicate with
    | error e => rfl
    | ok ps =>
      simp only [Option.map_none, Except.bimap_ok, List.length_map]
      split
      · rfl
      · have hsame : (((q.unfiltered s).relabel ρ).withPredicates
              (ps.map (Predicate.relabel ρ))).countFilters =
            (((q.unfiltered s).withPredicates ps).countFilters).relabel ρ := by
          simp [JoinGraph.countFilters, JoinGraph.withPredicates, JoinGraph.relabel]
        have hfilters : (((q.unfiltered s).withPredicates ps).countFilters).Fits ρ := hunfiltered
        rw [hsame, JoinGraph.searched_relabel hest hfilters, Except.bimap_ok]

end QueryBlock

end

end

end QueryGraph
