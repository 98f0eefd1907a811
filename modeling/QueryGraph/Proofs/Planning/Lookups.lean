import Mathlib.Logic.Relation
import QueryGraph.JoinGraph.Lookups

/-!
# What looking for index lookups changes

The search for index lookups walks over the filters and over the candidates of the nodes, and changes the
graph on the way.

## The model

There are two ways in which it does so (`LookupStep`): a node gets one more lookup, or there is one more
predicate for lookups. The search is a sequence of such steps, so what they keep or bring about together
holds of its result (`LookupsAdded`).

## What is proved

* `steps_findLookups` — the search takes only such steps.
* `LookupsAdded.step`, `lookupsAdded` — what one step does to a graph, and what the search does: nodes,
  edges and tree stay, the predicates get more of them at their end, every one of these is on the list of
  predicates for lookups, and no two of them are written alike.
-/

namespace QueryGraph

open Relation

/-- The node without its lookups. -/
def TableNode.bare (n : TableNode) : TableNode := { n with lookups := [] }

theorem tables_of_bare {nodes nodes' : List TableNode}
    (h : nodes'.map TableNode.bare = nodes.map TableNode.bare) :
    nodes'.map TableNode.table = nodes.map TableNode.table := by
  have htables := congrArg (List.map TableNode.table) h
  rwa [List.map_map, List.map_map] at htables

/-- Other lookups do not matter to a bare node. -/
theorem bare_set {nodes : List TableNode} {v : Nat} {node : TableNode} (h : nodes[v]? = some node)
    (lookups : List Lookup) :
    (nodes.set v { node with lookups := lookups }).map TableNode.bare = nodes.map TableNode.bare := by
  obtain ⟨hv, rfl⟩ := List.getElem?_eq_some_iff.1 h
  have hsame : (nodes.map TableNode.bare).set v nodes[v].bare = nodes.map TableNode.bare := by
    rw [← List.getElem_map TableNode.bare (h := by rwa [List.length_map]), List.set_getElem_self]
  exact List.map_set.trans hsame

/-- Which node a table became does not depend on what else the nodes carry. -/
theorem nodeOf?_congr {nodes nodes' : List TableNode}
    (h : nodes'.map TableNode.table = nodes.map TableNode.table) (i : Nat) :
    nodeOf? nodes' i = nodeOf? nodes i := by
  have hmap (nodes : List TableNode) :
      nodeOf? nodes i = (nodes.map TableNode.table).findIdx? fun t => t.number = i := by
    rw [List.findIdx?_map]
    rfl
  rw [hmap, hmap, h]

theorem nodesOf_congr {nodes nodes' : List TableNode}
    (h : nodes'.map TableNode.table = nodes.map TableNode.table) (ts : TableSet) :
    nodesOf nodes' ts = nodesOf nodes ts := by
  rw [nodesOf, nodesOf, funext (nodeOf?_congr h)]

namespace JoinGraph

variable {limit : Nat} {g g' : JoinGraph}

/-- The place of a predicate that lookups may refer to: a filter on a single node, or a predicate for
lookups. -/
def Usable (g : JoinGraph) (place : Nat) : Prop :=
  (∃ c, (c, place) ∈ g.lookupPredicates) ∨
    ∃ p, g.predicates[place]? = some p ∧ p.eligibility.isSingleton = true

/-- One step of the search for lookups, where there may be `limit` predicates. -/
inductive LookupStep (limit : Nat) : JoinGraph → JoinGraph → Prop
  /-- A node gets one more lookup. -/
  | lookup {g : JoinGraph} {v : Nat} {node : TableNode} {l : Lookup} (hnode : g.nodes[v]? = some node)
      (husable : g.Usable l.predicate) :
      LookupStep limit g { g with nodes := g.nodes.set v { node with lookups := node.lookups ++ [l] } }
  /-- There is one more predicate for lookups. -/
  | predicate {g : JoinGraph} {c : Expr} {selectivity : Double} (hnew : g.lookupPredicate? c = none)
      (hroom : g.predicates.length < limit) :
      LookupStep limit g
        { g.addPredicate ⟨c, g.nodeSet c.tables, selectivity⟩ with
          lookupPredicates := g.lookupPredicates ++ [(c, g.predicates.length)] }

/-! ### The search takes such steps -/

theorem Usable.step {place : Nat} (h : g.Usable place) (hs : LookupStep limit g g') :
    g'.Usable place := by
  cases hs with
  | lookup => exact h
  | predicate hnew hroom =>
    rcases h with ⟨c, hc⟩ | ⟨p, hp, hsingle⟩
    · exact .inl ⟨c, List.mem_append_left _ hc⟩
    · refine .inr ⟨p, ?_, hsingle⟩
      rw [addPredicate, List.getElem?_append_left (List.getElem?_eq_some_iff.1 hp).1]
      exact hp

theorem Usable.steps {place : Nat} (h : g.Usable place)
    (hs : ReflTransGen (LookupStep limit) g g') : g'.Usable place := by
  induction hs with
  | refl => exact h
  | tail _ hs ih => exact ih.step hs

theorem steps_addLookupOn {place : Nat} (h : g.Usable place) (cond : Expr) (node? : Option Nat)
    (side other : Expr) :
    ReflTransGen (LookupStep limit) g (g.addLookupOn cond node? place side other).value := by
  unfold addLookupOn
  split
  next => exact .refl
  next field _ =>
    split
    next => exact .refl
    next v _ =>
      split
      next => exact .refl
      next node hnode =>
        split
        · exact .refl
        · exact .single (.lookup (l := ⟨place, field, other⟩) hnode h)

theorem steps_addLookups {place : Nat} (h : g.Usable place) (cond : Expr) (node? : Option Nat) :
    ReflTransGen (LookupStep limit) g (g.addLookups cond node? place).value := by
  unfold addLookups
  split
  next l r =>
    have hleft : ReflTransGen (LookupStep limit) g _ := steps_addLookupOn h (.compare .eq l r) node? l r
    rw [Traced.value_bind]
    exact hleft.trans (steps_addLookupOn (h.steps hleft) _ node? r l)
  next => exact .refl

theorem steps_addFilterLookups (place : Nat) :
    ReflTransGen (LookupStep limit) g (g.addFilterLookups place).value := by
  unfold addFilterLookups
  split
  next p hp =>
    split
    next hsingle => exact steps_addLookups (.inr ⟨p, hp, hsingle⟩) p.cond none
    next => exact .refl
  next => exact .refl

theorem steps_placeLookup (est : Estimator) (limit : Nat) (g : JoinGraph) (cond : Expr) :
    ReflTransGen (LookupStep limit) g (placeLookup est limit g cond).value.1 ∧
      ∀ place, (placeLookup est limit g cond).value.2 = some place →
        (placeLookup est limit g cond).value.1.Usable place := by
  unfold placeLookup
  split
  next place hplace =>
    refine ⟨.refl, fun place' h => ?_⟩
    cases h
    obtain ⟨⟨c, p⟩, hp, rfl⟩ := Option.map_eq_some_iff.1 hplace
    exact .inl ⟨c, List.mem_of_find?_eq_some hp⟩
  next hnew =>
    dsimp only
    split
    next => exact ⟨.refl, nofun⟩
    next hroom =>
      refine ⟨.single (.predicate hnew (Nat.lt_of_not_le hroom)), fun place h => ?_⟩
      cases h
      exact .inl ⟨cond, List.mem_append_right _ (List.mem_singleton_self _)⟩

theorem steps_addJoinLookups (est : Estimator) (v : Nat) (cond : Expr) :
    ReflTransGen (LookupStep limit) g (addJoinLookups est limit g v cond).value := by
  obtain ⟨hsteps, husable⟩ := steps_placeLookup est limit g cond
  rw [addJoinLookups, Traced.value_bind]
  refine hsteps.trans ?_
  clear hsteps
  generalize (placeLookup est limit g cond).value = placed at husable ⊢
  obtain ⟨g', place?⟩ := placed
  cases place? with
  | none => exact .refl
  | some place => exact steps_addLookups (husable place rfl) cond (some v)

/-- The nodes stay but for their lookups. -/
theorem LookupStep.nodes_eq (hs : LookupStep limit g g') :
    g'.nodes.map TableNode.bare = g.nodes.map TableNode.bare := by
  cases hs with
  | lookup hnode => exact bare_set hnode _
  | predicate => rfl

/-- So the tables stay. -/
theorem LookupStep.tables_eq (hs : LookupStep limit g g') :
    g'.nodes.map TableNode.table = g.nodes.map TableNode.table := tables_of_bare hs.nodes_eq

theorem steps_foldl {α : Type} {f : JoinGraph → α → JoinGraph}
    (hf : ∀ g x, ReflTransGen (LookupStep limit) g (f g x)) (xs : List α) (g : JoinGraph) :
    ReflTransGen (LookupStep limit) g (xs.foldl f g) := by
  induction xs generalizing g with
  | nil => exact .refl
  | cons x xs ih => exact (hf g x).trans (ih (f g x))

/-- The search for lookups takes no other steps. -/
theorem steps_findLookups (est : Estimator) (limit : Nat) (g : JoinGraph) :
    ReflTransGen (LookupStep limit) g (findLookups est limit g).value := by
  simp only [findLookups, Traced.value_bind, Traced.value_foldlM]
  have hfilters : ReflTransGen (LookupStep limit) g _ :=
    steps_foldl (fun _ place => steps_addFilterLookups place) (List.range g.numFilters) g
  exact hfilters.trans (steps_foldl (fun g (x : Nat × Expr) => steps_addJoinLookups est x.1 x.2) _ _)

/-! ### What the steps bring about -/

/-- The graph `g` comes from `base`, which has no lookups, by adding lookups and the predicates `more`. -/
structure LookupsAdded (limit : Nat) (base : JoinGraph) (more : List Predicate) (g : JoinGraph) :
    Prop where
  /-- Nodes and edges by themselves stay. -/
  shape_eq : g.shape = base.shape
  /-- The joins stay. -/
  joins_eq : g.joins = base.joins
  /-- The tree stays. -/
  tree_eq : g.tree = base.tree
  /-- The nodes stay but for their lookups. -/
  nodes_eq : g.nodes.map TableNode.bare = base.nodes.map TableNode.bare
  /-- The filters stay. -/
  numFilters_eq : g.numFilters = base.numFilters
  /-- The other predicates follow on those that were there. -/
  predicates_eq : g.predicates = base.predicates ++ more
  /-- There is room for them. -/
  length_le : more = [] ∨ g.predicates.length ≤ limit
  /-- Each of them is listed with its place. -/
  listed : g.lookupPredicates = more.mapIdx fun k p => (p.cond, base.predicates.length + k)
  /-- Each waits for the nodes of the tables that it reads. -/
  eligibility_eq : ∀ p ∈ more, p.eligibility = base.nodeSet p.cond.tables
  /-- No two of them are written alike. -/
  distinct : more.Pairwise fun p q => p.cond.same q.cond = false
  /-- Lookups refer to them or to filters on a single node. -/
  refers : ∀ n ∈ g.nodes, ∀ l ∈ n.lookups, base.predicates.length ≤ l.predicate ∨
    ∃ p, base.predicates[l.predicate]? = some p ∧ p.eligibility.isSingleton = true

namespace LookupsAdded

variable {base : JoinGraph} {more : List Predicate}

/-- The tables stay. -/
theorem tables_eq (h : LookupsAdded limit base more g) :
    g.nodes.map TableNode.table = base.nodes.map TableNode.table := tables_of_bare h.nodes_eq

/-- The filters stay where they are. -/
theorem filters_eq (h : LookupsAdded limit base more g) (hcount : base.numFilters = base.predicates.length) :
    g.predicates.take g.numFilters = base.predicates := by
  rw [h.numFilters_eq, h.predicates_eq, hcount, List.take_left]

theorem length_predicates_le (h : LookupsAdded limit base more g) (hroom : base.predicates.length ≤ limit) :
    g.predicates.length ≤ limit := by
  rcases h.length_le with rfl | hle
  · rwa [h.predicates_eq, List.append_nil]
  · exact hle

theorem refl (hlisted : base.lookupPredicates = []) (hlookups : ∀ n ∈ base.nodes, n.lookups = []) :
    LookupsAdded limit base [] base where
  shape_eq := rfl
  joins_eq := rfl
  tree_eq := rfl
  nodes_eq := rfl
  numFilters_eq := rfl
  predicates_eq := (List.append_nil _).symm
  length_le := .inl rfl
  listed := hlisted
  eligibility_eq := nofun
  distinct := .nil
  refers n hn l hl := by
    rw [hlookups n hn] at hl
    cases hl

/-- A usable place is that of a predicate for lookups or of a filter on a single node. -/
theorem refers_of_usable (h : LookupsAdded limit base more g) {place : Nat} (hplace : g.Usable place) :
    base.predicates.length ≤ place ∨
      ∃ p, base.predicates[place]? = some p ∧ p.eligibility.isSingleton = true := by
  rcases hplace with ⟨c, hc⟩ | ⟨p, hp, hsingle⟩
  · rw [h.listed] at hc
    obtain ⟨k, hk, heq⟩ := List.mem_mapIdx.1 hc
    cases heq
    exact .inl (Nat.le_add_right _ k)
  · rw [h.predicates_eq] at hp
    rcases Nat.lt_or_ge place base.predicates.length with hlt | hge
    · rw [List.getElem?_append_left hlt] at hp
      exact .inr ⟨p, hp, hsingle⟩
    · exact .inl hge

/-- What one step of the search does. -/
theorem step (h : LookupsAdded limit base more g) (hs : LookupStep limit g g') :
    ∃ more', LookupsAdded limit base more' g' := by
  cases hs with
  | @lookup v node l hnode husable =>
    have hstep : LookupStep limit g _ := .lookup hnode husable
    refine ⟨more, { h with nodes_eq := hstep.nodes_eq.trans h.nodes_eq, refers := fun n hn l' hl' => ?_ }⟩
    · rcases List.mem_or_eq_of_mem_set hn with hn | rfl
      · exact h.refers n hn l' hl'
      · rcases List.mem_append.1 hl' with hl' | hl'
        · exact h.refers node (List.mem_of_getElem? hnode) l' hl'
        · obtain rfl := List.mem_singleton.1 hl'
          exact h.refers_of_usable husable
  | @predicate c selectivity hnew hroom =>
    let p : Predicate := ⟨c, g.nodeSet c.tables, selectivity⟩
    have hlength : g.predicates.length = base.predicates.length + more.length := by
      rw [h.predicates_eq, List.length_append]
    refine ⟨more ++ [p], h.shape_eq, h.joins_eq, h.tree_eq, h.nodes_eq, h.numFilters_eq, ?_, .inr ?_,
      ?_, ?_, ?_, h.refers⟩
    · rw [← List.append_assoc, ← h.predicates_eq]
      rfl
    · rw [addPredicate, List.length_append]
      exact hroom
    · change g.lookupPredicates ++ [(c, g.predicates.length)] = _
      rw [List.mapIdx_concat, h.listed, hlength]
    · refine List.forall_mem_append.2 ⟨h.eligibility_eq, List.forall_mem_singleton.2 ?_⟩
      exact nodesOf_congr h.tables_eq c.tables
    · refine List.pairwise_append.2 ⟨h.distinct, List.pairwise_singleton _ _, fun q hq q' hq' => ?_⟩
      obtain rfl := List.mem_singleton.1 hq'
      obtain ⟨k, hk, rfl⟩ := List.mem_iff_getElem.1 hq
      have hlisted : (more[k].cond, base.predicates.length + k) ∈ g.lookupPredicates :=
        h.listed ▸ List.mem_mapIdx.2 ⟨k, hk, rfl⟩
      have hnone := List.find?_eq_none.1 (Option.map_eq_none_iff.1 hnew) _ hlisted
      exact Bool.eq_false_iff.2 hnone

end LookupsAdded

/-- What the search does to a graph without lookups. -/
theorem lookupsAdded {base : JoinGraph} (hlisted : base.lookupPredicates = [])
    (hlookups : ∀ n ∈ base.nodes, n.lookups = []) (hs : ReflTransGen (LookupStep limit) base g) :
    ∃ more, LookupsAdded limit base more g := by
  induction hs with
  | refl => exact ⟨[], .refl hlisted hlookups⟩
  | tail _ hs ih =>
    obtain ⟨more, hmore⟩ := ih
    exact hmore.step hs

end JoinGraph

end QueryGraph
