import QueryGraph.Proofs.Planning.Stages
import QueryGraph.Proofs.Reordering.Assembly

/-!
# What the search for lookups finds

The lookups of a graph answer the requests that the search goes through, one after the other.

## The model

A request says that a column equals something else, at one node or at any, on account of the condition at
one place among the predicates. It asks for one lookup at most: on the column, at the node of the column's
table, if the other side does not read this table. The nodes `Answer` a list of requests if they have all
the lookups asked for and no others, and none of them twice. Going through one more request keeps this, so
it holds of the whole search.

Which requests the candidates of the nodes make depends on the places that the search finds for them. These
are known from the graph at its end: a place, once given, is kept, and a condition that gets none finds the
graph full, so that no other condition gets one after it.

## What is proved

* `Answer.addLookupOn`, `Answer.addLookups` — one request, and those that a condition makes.
* `Searched.addJoinLookups` — one candidate.
* `searched_findLookups` — the whole search.
* `mem_predicates_findLookups` — where the predicates for lookups come from.
-/

namespace QueryGraph

open Relation

/-- That one side of an equality, if it is a column, is a lookup for the other side. -/
structure LookupRequest where
  /-- The side that should be a column. -/
  side : Expr
  /-- The other side. -/
  other : Expr
  /-- The only node that is considered, if there is one. -/
  node? : Option Nat
  /-- The place of the condition among the predicates. -/
  predicate : Nat

/-- The requests that a condition makes. -/
def requestsOf (cond : Expr) (node? : Option Nat) (predicate : Nat) : List LookupRequest :=
  match cond with
  | .compare .eq l r => [⟨l, r, node?, predicate⟩, ⟨r, l, node?, predicate⟩]
  | _ => []

/-- The request asks for the lookup at the node numbered `v`. -/
structure LookupRequest.AsksFor (r : LookupRequest) (nodes : List TableNode) (v : Nat) (l : Lookup) :
    Prop where
  /-- The side is the column. -/
  side_eq : r.side = .column l.field
  /-- The other side is what the column is equal to. -/
  other_eq : r.other = l.other
  /-- The place is that of the condition. -/
  predicate_eq : r.predicate = l.predicate
  /-- The column's table is at the node. -/
  node_eq : nodeOf? nodes l.field.table = some v
  /-- The node is considered. -/
  allowed : r.node?.any (· ≠ v) = false
  /-- The other side does not read the column's table. -/
  apart : l.other.tables.overlaps {l.field.table} = false

/-- The lookups of the nodes are those that the requests ask for. -/
structure Answer (rs : List LookupRequest) (nodes : List TableNode) : Prop where
  /-- Every lookup is asked for. -/
  sound : ∀ {v : Nat} {n : TableNode}, nodes[v]? = some n → ∀ l ∈ n.lookups,
    ∃ r ∈ rs, r.AsksFor nodes v l
  /-- Every lookup asked for is there, or one on the same column for the same condition. -/
  complete : ∀ {r : LookupRequest} {v : Nat} {l : Lookup}, r ∈ rs → r.AsksFor nodes v l →
    ∃ n, nodes[v]? = some n ∧ ∃ l' ∈ n.lookups, l'.predicate = l.predicate ∧ l'.field = l.field
  /-- None is there twice. -/
  distinct : ∀ n ∈ nodes,
    n.lookups.Pairwise fun l l' => ¬ (l.predicate = l'.predicate ∧ l.field = l'.field)

theorem LookupRequest.AsksFor.congr {r : LookupRequest} {nodes nodes' : List TableNode} {v : Nat}
    {l : Lookup} (htables : nodes'.map TableNode.table = nodes.map TableNode.table)
    (h : r.AsksFor nodes v l) : r.AsksFor nodes' v l :=
  { h with node_eq := (nodeOf?_congr htables _).trans h.node_eq }

namespace Answer

variable {rs : List LookupRequest} {nodes : List TableNode}

/-- Without requests there are no lookups. -/
theorem nil (h : ∀ n ∈ nodes, n.lookups = []) : Answer [] nodes where
  sound hn l hl := by
    rw [h _ (List.mem_of_getElem? hn)] at hl
    cases hl
  complete hr := nomatch hr
  distinct n hn := h n hn ▸ .nil

/-- One more request changes nothing if what it asks for is there. -/
theorem idle (h : Answer rs nodes) {r : LookupRequest}
    (hr : ∀ {v l}, r.AsksFor nodes v l → ∃ n, nodes[v]? = some n ∧
      ∃ l' ∈ n.lookups, l'.predicate = l.predicate ∧ l'.field = l.field) : Answer (rs ++ [r]) nodes where
  sound hn l hl := (h.sound hn l hl).imp fun r => And.imp_left (List.mem_append_left _)
  complete hmem hasks := (List.mem_append.1 hmem).elim (fun hmem => h.complete hmem hasks) fun hmem => by
    obtain rfl := List.mem_singleton.1 hmem
    exact hr hasks
  distinct := h.distinct

/-- One more request is answered by one more lookup. -/
theorem answered (h : Answer rs nodes) {r : LookupRequest} {v : Nat} {n : TableNode} {l : Lookup}
    (hn : nodes[v]? = some n) (hasks : r.AsksFor nodes v l)
    (hnew : ∀ l' ∈ n.lookups, ¬ (l'.predicate = l.predicate ∧ l'.field = l.field)) :
    Answer (rs ++ [r]) (nodes.set v { n with lookups := n.lookups ++ [l] }) := by
  have htables := tables_of_bare (bare_set hn (n.lookups ++ [l]))
  have hlt : v < nodes.length := (List.getElem?_eq_some_iff.1 hn).1
  constructor
  case sound =>
    intro u n' hn' l' hl'
    by_cases hu : v = u
    · subst hu
      rw [List.getElem?_set_self hlt] at hn'
      cases hn'
      rcases List.mem_append.1 hl' with hl' | hl'
      · obtain ⟨r', hr', hasks'⟩ := h.sound hn l' hl'
        exact ⟨r', List.mem_append_left _ hr', hasks'.congr htables⟩
      · obtain rfl := List.mem_singleton.1 hl'
        exact ⟨r, List.mem_append_right _ List.mem_cons_self, hasks.congr htables⟩
    · rw [List.getElem?_set_ne hu] at hn'
      obtain ⟨r', hr', hasks'⟩ := h.sound hn' l' hl'
      exact ⟨r', List.mem_append_left _ hr', hasks'.congr htables⟩
  case complete =>
    intro r' u l' hr' hasks'
    have hasks'' := hasks'.congr htables.symm
    rcases List.mem_append.1 hr' with hr' | hr'
    · obtain ⟨n', hn', l'', hl'', heq⟩ := h.complete hr' hasks''
      by_cases hu : v = u
      · subst hu
        obtain rfl : n = n' := Option.some.inj (hn.symm.trans hn')
        exact ⟨_, List.getElem?_set_self hlt, l'', List.mem_append_left _ hl'', heq⟩
      · exact ⟨n', (List.getElem?_set_ne hu).trans hn', l'', hl'', heq⟩
    · obtain rfl := List.mem_singleton.1 hr'
      have hfield : l.field = l'.field := Expr.column.inj (hasks.side_eq.symm.trans hasks''.side_eq)
      have hu : v = u := Option.some.inj (hasks.node_eq.symm.trans (hfield ▸ hasks''.node_eq))
      subst hu
      exact ⟨_, List.getElem?_set_self hlt, l, List.mem_append_right _ List.mem_cons_self,
        hasks.predicate_eq.symm.trans hasks''.predicate_eq, hfield⟩
  case distinct =>
    intro n' hn'
    rcases List.mem_or_eq_of_mem_set hn' with hn' | rfl
    · exact h.distinct n' hn'
    · have hold := h.distinct n (List.mem_of_getElem? hn)
      refine List.pairwise_append.2 ⟨hold, List.pairwise_singleton _ _, ?_⟩
      exact fun l' hl' l'' hl'' => List.mem_singleton.1 hl'' ▸ hnew l' hl'

end Answer

theorem Expr.column?_eq_some {e : Expr} {c : Column} : e.column? = some c ↔ e = column c := by
  cases e <;> simp [column?]

namespace JoinGraph

variable {g : JoinGraph} {rs : List LookupRequest}

/-! ### One condition -/

/-- A lookup changes the nodes alone. -/
theorem addLookupOn_eq (cond : Expr) (node? : Option Nat) (predicate : Nat) (side other : Expr) :
    ∃ nodes, (g.addLookupOn cond node? predicate side other).value = { g with nodes := nodes } := by
  unfold addLookupOn
  repeat' split
  all_goals exact ⟨_, rfl⟩

/-- So do the lookups of a condition. -/
theorem addLookups_eq (cond : Expr) (node? : Option Nat) (predicate : Nat) :
    ∃ nodes, (g.addLookups cond node? predicate).value = { g with nodes := nodes } := by
  unfold addLookups
  split
  next l r =>
    obtain ⟨nodes, hnodes⟩ := g.addLookupOn_eq (.compare .eq l r) node? predicate l r
    rw [Traced.value_bind, hnodes]
    exact addLookupOn_eq (g := { g with nodes := nodes }) _ node? predicate r l
  next => exact ⟨_, rfl⟩

theorem answer_addLookupOn (h : Answer rs g.nodes) (cond : Expr) (node? : Option Nat) (predicate : Nat)
    (side other : Expr) : Answer (rs ++ [⟨side, other, node?, predicate⟩])
      (g.addLookupOn cond node? predicate side other).value.nodes := by
  unfold addLookupOn
  split
  next hside =>
    refine h.idle fun hasks => ?_
    rw [Expr.column?_eq_some.2 hasks.side_eq] at hside
    cases hside
  next field hside =>
    have hfield {v : Nat} {l : Lookup}
        (hasks : LookupRequest.AsksFor ⟨side, other, node?, predicate⟩ g.nodes v l) : field = l.field :=
      Option.some.inj (hside.symm.trans (Expr.column?_eq_some.2 hasks.side_eq))
    split
    next hnone =>
      refine h.idle fun hasks => ?_
      rw [hfield hasks, hasks.node_eq] at hnone
      cases hnone
    next v hv =>
      have hnode {u : Nat} {l : Lookup}
          (hasks : LookupRequest.AsksFor ⟨side, other, node?, predicate⟩ g.nodes u l) : v = u :=
        Option.some.inj (hv.symm.trans (hfield hasks ▸ hasks.node_eq))
      obtain ⟨n, hn, -⟩ := number_of_nodeOf? hv
      rw [hn]
      dsimp only
      split
      next hskip =>
        refine h.idle fun hasks => ?_
        obtain rfl := hnode hasks
        obtain rfl := hasks.other_eq
        rw [hasks.allowed, hfield hasks, hasks.apart, Bool.false_or, Bool.false_or, List.any_eq_true] at hskip
        obtain ⟨l', hl', heq⟩ := hskip
        rw [Bool.and_eq_true, decide_eq_true_iff, decide_eq_true_iff] at heq
        exact ⟨n, hn, l', hl', heq.1.trans hasks.predicate_eq, heq.2⟩
      next hadd =>
        simp only [Bool.or_eq_true, not_or, Bool.not_eq_true, List.any_eq_false, Bool.and_eq_true,
          decide_eq_true_eq] at hadd
        obtain ⟨⟨hallowed, hapart⟩, hnew⟩ := hadd
        exact h.answered (l := ⟨predicate, field, other⟩) hn
          ⟨Expr.column?_eq_some.1 hside, rfl, rfl, hv, hallowed, hapart⟩ hnew

/-- Only equalities make requests. -/
theorem requestsOf_eq_nil {cond : Expr} (h : ∀ l r, cond ≠ .compare .eq l r) (node? : Option Nat)
    (predicate : Nat) : requestsOf cond node? predicate = [] := by
  unfold requestsOf
  split
  next l r => exact absurd rfl (h l r)
  next => rfl

/-- The requests that a condition makes are answered. -/
theorem answer_addLookups (h : Answer rs g.nodes) (cond : Expr) (node? : Option Nat) (predicate : Nat) :
    Answer (rs ++ requestsOf cond node? predicate) (g.addLookups cond node? predicate).value.nodes := by
  unfold addLookups
  split
  next l r =>
    change Answer (rs ++ [⟨l, r, node?, predicate⟩, ⟨r, l, node?, predicate⟩]) _
    rw [Traced.value_bind, List.append_cons]
    exact answer_addLookupOn (answer_addLookupOn h _ node? predicate l r) _ node? predicate r l
  next hne => rwa [requestsOf_eq_nil fun l r => hne l r, List.append_nil]

/-! ### Filters -/

/-- The requests that the predicate at a place makes as a filter. -/
def filterRequests (g : JoinGraph) (place : Nat) : List LookupRequest :=
  match g.predicates[place]? with
  | some p => if p.eligibility.isSingleton then requestsOf p.cond none place else []
  | none => []

theorem addFilterLookups_eq (place : Nat) :
    ∃ nodes, (g.addFilterLookups place).value = { g with nodes := nodes } := by
  unfold addFilterLookups
  split
  next p hp =>
    split
    next => exact g.addLookups_eq p.cond none place
    next => exact ⟨_, rfl⟩
  next => exact ⟨_, rfl⟩

theorem answer_addFilterLookups (h : Answer rs g.nodes) (place : Nat) :
    Answer (rs ++ g.filterRequests place) (g.addFilterLookups place).value.nodes := by
  unfold addFilterLookups filterRequests
  cases g.predicates[place]? with
  | none => rwa [List.append_nil]
  | some p =>
    dsimp only
    split
    next => exact answer_addLookups h p.cond none place
    next => rwa [List.append_nil]

/-- The requests of all filters are answered, and only the nodes are changed. -/
theorem answer_foldl_addFilterLookups (h : Answer [] g.nodes) (places : List Nat) :
    ∃ nodes,
      places.foldl (fun g place => (g.addFilterLookups place).value) g = { g with nodes := nodes } ∧
      Answer (places.flatMap g.filterRequests) nodes := by
  induction places using List.reverseRecOn with
  | nil => exact ⟨_, rfl, h⟩
  | append_singleton places place ih =>
    obtain ⟨nodes, heq, hanswer⟩ := ih
    have hnext := answer_addFilterLookups (g := { g with nodes := nodes }) hanswer place
    obtain ⟨nodes', heq'⟩ := addFilterLookups_eq (g := { g with nodes := nodes }) place
    rw [List.foldl_append, heq, List.foldl_cons, List.foldl_nil, List.flatMap_append, List.flatMap_singleton]
    rw [heq'] at hnext ⊢
    exact ⟨nodes', rfl, hnext⟩

/-! ### Candidates -/

/-- The candidates of all nodes, with their nodes. -/
def candidates (g : JoinGraph) : List (Nat × Expr) :=
  (g.nodes.mapIdx fun v n => n.candidates.map (v, ·)).flatten

/-- The requests that a candidate makes once it has its place. -/
def candidateRequests (g : JoinGraph) (x : Nat × Expr) : List LookupRequest :=
  match g.lookupPredicate? x.2 with
  | some place => requestsOf x.2 (some x.1) place
  | none => []

theorem value_placeLookup (est : Estimator) (limit : Nat) (g : JoinGraph) (c : Expr) :
    (placeLookup est limit g c).value =
      match g.lookupPredicate? c with
      | some place => (g, some place)
      | none =>
        if limit ≤ g.predicates.length then (g, none)
        else ({ g.addPredicate ⟨c, g.nodeSet c.tables, est.estimate c⟩ with
          lookupPredicates := g.lookupPredicates ++ [(c, g.predicates.length)] },
          some g.predicates.length) := by
  unfold placeLookup
  cases g.lookupPredicate? c with
  | some place => rfl
  | none =>
    dsimp only
    split <;> rfl

theorem nodes_placeLookup (est : Estimator) (limit : Nat) (c : Expr) :
    (placeLookup est limit g c).value.1.nodes = g.nodes := by
  rw [value_placeLookup]
  split
  next => rfl
  next => split <;> rfl

/-- A place is kept. -/
theorem lookupPredicate?_placeLookup_of_some (est : Estimator) (limit : Nat) (c : Expr) {d : Expr}
    {place : Nat} (h : g.lookupPredicate? d = some place) :
    (placeLookup est limit g c).value.1.lookupPredicate? d = some place := by
  rw [value_placeLookup]
  split
  next => exact h
  next =>
    split
    next => exact h
    next =>
      obtain ⟨x, hx, rfl⟩ := Option.map_eq_some_iff.1 h
      rw [lookupPredicate?, List.find?_append, hx]
      rfl

/-- A full graph is left as it is. -/
theorem placeLookup_of_full {limit : Nat} (hfull : limit ≤ g.predicates.length) (est : Estimator)
    (c : Expr) : (placeLookup est limit g c).value.1 = g := by
  rw [value_placeLookup]
  split
  next => rfl
  next => rw [if_pos hfull]

/-- The place that is found is the place of the condition from then on, if the condition is written like
itself. -/
theorem lookupPredicate?_placeLookup (est : Estimator) (limit : Nat) {c : Expr} (hself : c.same c = true) :
    (placeLookup est limit g c).value.1.lookupPredicate? c = (placeLookup est limit g c).value.2 := by
  rw [value_placeLookup]
  split
  next place hplace => exact hplace
  next hnone =>
    split
    next => exact hnone
    next =>
      have hfound : [(c, g.predicates.length)].find? (fun p => p.1.same c) =
          some (c, g.predicates.length) := List.find?_cons_of_pos hself
      rw [lookupPredicate?, List.find?_append, Option.map_eq_none_iff.1 hnone, hfound]
      rfl

/-- Only a full graph has no place for a condition. -/
theorem full_of_placeLookup_eq_none (est : Estimator) (limit : Nat) {c : Expr}
    (h : (placeLookup est limit g c).value.2 = none) :
    limit ≤ (placeLookup est limit g c).value.1.predicates.length := by
  rw [value_placeLookup] at h ⊢
  cases hplace : g.lookupPredicate? c with
  | some place =>
    rw [hplace] at h
    cases h
  | none =>
    rw [hplace] at h
    dsimp only at h ⊢
    split_ifs at h ⊢ with hfull
    exact hfull

/-- The search has gone through some candidates, after the requests `rs`. -/
structure Searched (limit : Nat) (rs : List LookupRequest) (xs : List (Nat × Expr)) (g : JoinGraph) :
    Prop where
  /-- The requests have been answered. -/
  answer : Answer (rs ++ xs.flatMap g.candidateRequests) g.nodes
  /-- If a candidate has no place, the graph is full. -/
  full : ∀ x ∈ xs, g.lookupPredicate? x.2 = none → limit ≤ g.predicates.length

namespace Searched

variable {limit : Nat} {xs : List (Nat × Expr)} {x : Nat × Expr}

/-- A candidate gets its place. -/
theorem placeLookup (h : g.Searched limit rs xs) (est : Estimator) (c : Expr) :
    (placeLookup est limit g c).value.1.Searched limit rs xs := by
  have hkept {y : Nat × Expr} (hy : y ∈ xs) :
      (JoinGraph.placeLookup est limit g c).value.1.lookupPredicate? y.2 = g.lookupPredicate? y.2 := by
    cases hplace : g.lookupPredicate? y.2 with
    | some place => exact lookupPredicate?_placeLookup_of_some est limit c hplace
    | none => rw [placeLookup_of_full (h.full y hy hplace), hplace]
  constructor
  case answer =>
    have hrequests : xs.flatMap (JoinGraph.placeLookup est limit g c).value.1.candidateRequests =
        xs.flatMap g.candidateRequests := List.flatMap_congr fun y hy => by
      rw [candidateRequests, candidateRequests, hkept hy]
    rw [nodes_placeLookup, hrequests]
    exact h.answer
  case full =>
    intro y hy hnone
    have hfull := h.full y hy (hkept hy ▸ hnone)
    rwa [placeLookup_of_full hfull]

/-- A candidate without a place makes no requests. -/
theorem skip (h : g.Searched limit rs xs) (hplace : g.lookupPredicate? x.2 = none)
    (hfull : limit ≤ g.predicates.length) : g.Searched limit rs (xs ++ [x]) := by
  refine ⟨?_, List.forall_mem_append.2 ⟨h.full, List.forall_mem_singleton.2 fun _ => hfull⟩⟩
  have hrequests : g.candidateRequests x = [] := by rw [candidateRequests, hplace]
  rw [List.flatMap_append, List.flatMap_singleton, hrequests, List.append_nil]
  exact h.answer

/-- A candidate with a place makes the requests of a condition. -/
theorem addLookups (h : g.Searched limit rs xs) {place : Nat}
    (hplace : g.lookupPredicate? x.2 = some place) :
    (g.addLookups x.2 (some x.1) place).value.Searched limit rs (xs ++ [x]) := by
  have hanswer := answer_addLookups h.answer x.2 (some x.1) place
  have hrequests : requestsOf x.2 (some x.1) place = g.candidateRequests x := by
    rw [candidateRequests, hplace]
  obtain ⟨nodes, heq⟩ := g.addLookups_eq x.2 (some x.1) place
  rw [hrequests, List.append_assoc, ← List.flatMap_singleton g.candidateRequests x,
    ← List.flatMap_append] at hanswer
  rw [heq] at hanswer ⊢
  refine ⟨hanswer, List.forall_mem_append.2 ⟨h.full, List.forall_mem_singleton.2 fun hnone => ?_⟩⟩
  exact absurd (hplace.symm.trans hnone) nofun

/-- The search goes through one more candidate. -/
theorem addJoinLookups (h : g.Searched limit rs xs) (est : Estimator) (hself : x.2.same x.2 = true) :
    (JoinGraph.addJoinLookups est limit g x.1 x.2).value.Searched limit rs (xs ++ [x]) := by
  have hplaced := h.placeLookup est x.2
  have hplace := lookupPredicate?_placeLookup (g := g) est limit hself
  have hroom := full_of_placeLookup_eq_none (g := g) est limit (c := x.2)
  rw [JoinGraph.addJoinLookups, Traced.value_bind]
  generalize (JoinGraph.placeLookup est limit g x.2).value = placed at hplaced hplace hroom ⊢
  obtain ⟨g', place?⟩ := placed
  cases place? with
  | none => exact hplaced.skip hplace (hroom rfl)
  | some place => exact hplaced.addLookups hplace

end Searched

theorem searched_foldl_addJoinLookups {limit : Nat} (h : g.Searched limit rs []) (est : Estimator)
    {xs : List (Nat × Expr)} (hself : ∀ x ∈ xs, x.2.same x.2 = true) :
    (xs.foldl (fun g x => (JoinGraph.addJoinLookups est limit g x.1 x.2).value) g).Searched limit rs xs := by
  induction xs using List.reverseRecOn with
  | nil => exact h
  | append_singleton xs x ih =>
    rw [List.foldl_append]
    obtain ⟨hxs, hx⟩ := List.forall_mem_append.1 hself
    exact (ih hxs).addJoinLookups est (hx x List.mem_cons_self)

theorem bare_of_steps {limit : Nat} {g' : JoinGraph} (h : ReflTransGen (LookupStep limit) g g') :
    g'.nodes.map TableNode.bare = g.nodes.map TableNode.bare := by
  induction h with
  | refl => rfl
  | tail _ hs ih => exact hs.nodes_eq.trans ih

theorem candidates_congr {nodes : List TableNode}
    (h : nodes.map TableNode.bare = g.nodes.map TableNode.bare) :
    candidates { g with nodes := nodes } = g.candidates := by
  have hmap (nodes : List TableNode) : (nodes.mapIdx fun v n => n.candidates.map (v, ·)) =
      (nodes.map TableNode.bare).mapIdx fun v n => n.candidates.map (v, ·) :=
    List.ext_getElem? fun v => by simp [List.getElem?_mapIdx, TableNode.bare, Function.comp_def]
  rw [candidates, candidates, hmap, hmap g.nodes]
  exact congrArg (fun nodes => (nodes.mapIdx fun v n => n.candidates.map (v, ·)).flatten) h

/-- The search answers the requests of the filters, and then it goes through the candidates of all nodes. -/
theorem findLookups_eq (est : Estimator) (limit : Nat) (hnone : ∀ n ∈ g.nodes, n.lookups = []) :
    ∃ nodes, Answer ((List.range g.numFilters).flatMap g.filterRequests) nodes ∧
      (g.findLookups est limit).value = g.candidates.foldl
        (fun g x => (JoinGraph.addJoinLookups est limit g x.1 x.2).value) { g with nodes := nodes } := by
  simp only [findLookups, Traced.value_bind, Traced.value_foldlM]
  obtain ⟨nodes, heq, hanswer⟩ := answer_foldl_addFilterLookups (.nil hnone) (List.range g.numFilters)
  have hsteps : ReflTransGen (LookupStep limit) g _ :=
    steps_foldl (fun _ place => steps_addFilterLookups place) (List.range g.numFilters) g
  rw [heq] at hsteps ⊢
  have hcandidates : candidates { g with nodes := nodes } = g.candidates :=
    candidates_congr (bare_of_steps hsteps)
  exact ⟨nodes, hanswer, by rw [← hcandidates, candidates]⟩

/-- All requests are answered in the end. -/
theorem searched_findLookups (est : Estimator) (limit : Nat) (hnone : ∀ n ∈ g.nodes, n.lookups = [])
    (hself : ∀ x ∈ g.candidates, x.2.same x.2 = true) :
    (g.findLookups est limit).value.Searched limit ((List.range g.numFilters).flatMap g.filterRequests)
      g.candidates := by
  obtain ⟨nodes, hanswer, heq⟩ := findLookups_eq est limit hnone
  rw [heq]
  refine searched_foldl_addJoinLookups ⟨?_, nofun⟩ est hself
  rwa [List.flatMap_nil, List.append_nil]

/-! ### Predicates -/

/-- A candidate may become a predicate. -/
theorem mem_predicates_addJoinLookups {est : Estimator} {limit v : Nat} {c : Expr} {p : Predicate}
    (h : p ∈ (JoinGraph.addJoinLookups est limit g v c).value.predicates) :
    p ∈ g.predicates ∨ p.cond = c := by
  have hplaced : ∀ p ∈ (placeLookup est limit g c).value.1.predicates,
      p ∈ g.predicates ∨ p.cond = c := by
    rw [value_placeLookup]
    split
    next => exact fun _ => .inl
    next =>
      split
      next => exact fun _ => .inl
      next =>
        exact fun p hp => (List.mem_append.1 hp).imp_right fun hp =>
          congrArg Predicate.cond (List.mem_singleton.1 hp)
  rw [JoinGraph.addJoinLookups, Traced.value_bind] at h
  generalize (placeLookup est limit g c).value = placed at hplaced h
  obtain ⟨g', place?⟩ := placed
  cases place? with
  | none => exact hplaced p h
  | some place =>
    obtain ⟨nodes, heq⟩ := g'.addLookups_eq c (some v) place
    exact hplaced p (by rwa [heq] at h)

/-- The predicates for lookups are candidates. -/
theorem mem_predicates_findLookups {est : Estimator} {limit : Nat} (hnone : ∀ n ∈ g.nodes, n.lookups = [])
    {p : Predicate} (h : p ∈ (g.findLookups est limit).value.predicates) :
    p ∈ g.predicates ∨ ∃ x ∈ g.candidates, p.cond = x.2 := by
  obtain ⟨nodes, -, heq⟩ := findLookups_eq est limit hnone
  rw [heq] at h
  generalize g.candidates = xs at h ⊢
  induction xs using List.reverseRecOn with
  | nil => exact .inl h
  | append_singleton xs x ih =>
    rw [List.foldl_append] at h
    rcases mem_predicates_addJoinLookups h with h | h
    · exact (ih h).imp_right fun ⟨y, hy, heq⟩ => ⟨y, List.mem_append_left _ hy, heq⟩
    · exact .inr ⟨x, List.mem_append_right _ List.mem_cons_self, h⟩

theorem mem_candidates {x : Nat × Expr} :
    x ∈ g.candidates ↔ ∃ n, g.nodes[x.1]? = some n ∧ x.2 ∈ n.candidates := by
  simp only [candidates, List.mem_flatten, List.mem_mapIdx]
  constructor
  · rintro ⟨_, ⟨v, hv, rfl⟩, hx⟩
    obtain ⟨c, hc, rfl⟩ := List.mem_map.1 hx
    exact ⟨_, List.getElem?_eq_getElem hv, hc⟩
  · rintro ⟨n, hn, hc⟩
    obtain ⟨hv, rfl⟩ := List.getElem?_eq_some_iff.1 hn
    exact ⟨_, ⟨x.1, hv, rfl⟩, List.mem_map.2 ⟨x.2, hc, rfl⟩⟩

theorem candidates_filtered (g : JoinGraph) (ps : List Predicate) :
    (g.withPredicates ps).countFilters.candidates = g.candidates := rfl

end JoinGraph

namespace QueryBlock

theorem nodes_unfiltered (s : Settings) (q : QueryBlock) :
    (q.unfiltered s).nodes = (q.placed s.finisher).tree.leaves.map fun x => x.2.tableNode :=
  (nodes_addTree s.estimator _ {}).trans (List.nil_append _)

/-- The candidates are the lookups that pushing down has left at the tables. -/
theorem exists_lookup_of_mem_candidates {s : Settings} {q : QueryBlock} {ps : List Predicate}
    {x : Nat × Expr} (h : x ∈ ((q.unfiltered s).withPredicates ps).countFilters.candidates) :
    ∃ y ∈ (q.placed s.finisher).tree.leaves, x.2 ∈ y.2.lookups := by
  rw [JoinGraph.candidates_filtered] at h
  obtain ⟨n, hn, hx⟩ := JoinGraph.mem_candidates.1 h
  rw [nodes_unfiltered] at hn
  obtain ⟨y, hy, rfl⟩ := List.mem_map.1 (List.mem_of_getElem? hn)
  exact ⟨y, hy, hx⟩

end QueryBlock

end QueryGraph
