import QueryGraph.Proofs.Hypergraph.Mirroring
import QueryGraph.Proofs.Planning.Predicates
import QueryGraph.Proofs.Planning.Search
import QueryGraph.Proofs.Relabeling.Canonical

/-!
# Which lookups a graph has

The lookups of a graph, told from the graph alone: from its predicates, the tables at its nodes and the
candidates that pushing down has left there.

## The model

A lookup refers to a condition, and the search met it by its place among the predicates (`JoinGraph.Asks`).
For a filter this is the condition at the place itself. A candidate gets the place of the first candidate
that is written like it, so the condition at its place need not be the candidate but is written alike, and
what the lookup takes from the candidate is written like what the predicate says. That conditions are
written like themselves is needed as well, or a candidate that is met again gets one more place; this is so
without a not-a-number.

## What is proved

* `LookupsAdded.exists_of_lookupPredicate?`, `LookupsAdded.lookupPredicate?_of_same` — the places of the
  candidates.
* `same_of_mem_candidates` — candidates are written like themselves.
* `exists_request_iff` — for which lookups the conditions ask.
* `predicate_of_mem_lookups`, `exists_lookup_of_serves` — a lookup is for the predicate at its place, and what a
  predicate allows has been found.
* `Planned.bare_nodes` — the search leaves tables and candidates alone.
* `lookups_found` — the lookups told from the graph.
-/

namespace QueryGraph

open BitSet

/-! ### Equations -/

/-- The expressions are equal or written alike. An expression with a not-a-number is not written like
itself. -/
def Expr.Alike (c d : Expr) : Prop := c = d ∨ c.same d = true

theorem Expr.Alike.symm {c d : Expr} (h : c.Alike d) : d.Alike c :=
  h.imp Eq.symm fun hsame => Expr.same_comm _ _ ▸ hsame

/-- The condition is the equality of the column with the other side, whichever of them stands first. -/
def Expr.Equates (c : Expr) (field : Column) (other : Expr) : Prop :=
  c = (column field).equals other ∨ c = other.equals (column field)

namespace Expr.Equates

variable {c d o o' : Expr} {field : Column}

/-- What the column is equal to is known from the condition. -/
theorem unique (h : c.Equates field o) (h' : c.Equates field o') : o = o' := by
  rcases h with rfl | rfl <;> rcases h' with h' | h' <;> cases h' <;> rfl

/-- A condition that is written like the equality of a column is such an equality, with another side that is
written alike. -/
theorem of_same (h : c.Equates field o) (hsame : d.same c = true) :
    ∃ o', d.Equates field o' ∧ o'.same o = true := by
  have hcolumn {e : Expr} (he : e.same (column field) = true) : e = column field := by
    cases e with
    | column f => exact congrArg column (of_decide_eq_true he)
    | _ => cases he
  cases d with
  | compare op l r =>
    rcases h with rfl | rfl
    all_goals
      rw [equals, same, Bool.and_eq_true, Bool.and_eq_true, decide_eq_true_iff] at hsame
      obtain ⟨⟨rfl, hl⟩, hr⟩ := hsame
    · obtain rfl := hcolumn hl
      exact ⟨r, .inl rfl, hr⟩
    · obtain rfl := hcolumn hr
      exact ⟨l, .inr rfl, hl⟩
  | _ => rcases h with rfl | rfl <;> cases hsame

theorem of_alike (h : c.Equates field o) (halike : d.Alike c) {other : Expr} (hother : o.same other = true) :
    ∃ o', d.Equates field o' ∧ o'.same other = true := by
  obtain rfl | hsame := halike
  · exact ⟨o, h, hother⟩
  · obtain ⟨o', h', ho'⟩ := h.of_same hsame
    exact ⟨o', h', same_trans ho' hother⟩

end Expr.Equates

/-- The lookups for which a condition asks: those on a column that it equates with something that does not
read the column's table. -/
theorem exists_asksFor_iff {c : Expr} {node? : Option Nat} {place v : Nat} {nodes : List TableNode}
    {l : Lookup} : (∃ r ∈ requestsOf c node? place, r.AsksFor nodes v l) ↔
      c.Equates l.field l.other ∧ place = l.predicate ∧ nodeOf? nodes l.field.table = some v ∧
        node?.any (· ≠ v) = false ∧ l.other.tables.overlaps {l.field.table} = false := by
  constructor
  · rintro ⟨r, hr, hasks⟩
    unfold requestsOf at hr
    split at hr
    next left right =>
      obtain ⟨hside, hother, hplace, hnode, hallowed, hapart⟩ := hasks
      rcases List.mem_cons.1 hr with rfl | hr
      · exact ⟨.inl (by rw [← hside, ← hother]; rfl), hplace, hnode, hallowed, hapart⟩
      · obtain rfl := List.mem_singleton.1 hr
        exact ⟨.inr (by rw [← hside, ← hother]; rfl), hplace, hnode, hallowed, hapart⟩
    next => cases hr
  · rintro ⟨rfl | rfl, hplace, hnode, hallowed, hapart⟩
    · exact ⟨⟨_, _, node?, place⟩, List.mem_cons_self, rfl, rfl, hplace, hnode, hallowed, hapart⟩
    · exact ⟨⟨_, _, node?, place⟩, List.mem_cons_of_mem _ List.mem_cons_self, rfl, rfl, hplace, hnode,
        hallowed, hapart⟩

namespace JoinGraph

variable {limit : Nat} {base g : JoinGraph} {more : List Predicate}

/-! ### Places -/

/-- At the place of a candidate is a predicate that is written alike. -/
theorem LookupsAdded.exists_of_lookupPredicate? (h : LookupsAdded limit base more g) {c : Expr}
    {place : Nat} (hplace : g.lookupPredicate? c = some place) :
    base.predicates.length ≤ place ∧ ∃ p, g.predicates[place]? = some p ∧ p.cond.same c = true := by
  obtain ⟨⟨d, i⟩, hfound, rfl⟩ := Option.map_eq_some_iff.1 hplace
  have hsame : d.same c = true := List.find?_some (p := fun q : Expr × Nat => q.1.same c) hfound
  have hmem := List.mem_of_find?_eq_some hfound
  rw [h.listed] at hmem
  obtain ⟨k, hk, heq⟩ := List.mem_mapIdx.1 hmem
  obtain ⟨rfl, rfl⟩ := Prod.mk.inj heq
  refine ⟨Nat.le_add_right _ k, more[k], ?_, hsame⟩
  rw [h.predicates_eq, List.getElem?_append_right (Nat.le_add_right _ k), Nat.add_sub_cancel_left,
    List.getElem?_eq_getElem hk]

/-- What is written like a predicate for lookups has its place. -/
theorem LookupsAdded.lookupPredicate?_of_same (h : LookupsAdded limit base more g) {c : Expr} {place : Nat}
    {p : Predicate} (hge : base.predicates.length ≤ place) (hp : g.predicates[place]? = some p)
    (hsame : p.cond.same c = true) : g.lookupPredicate? c = some place := by
  obtain ⟨k, rfl⟩ := Nat.exists_eq_add_of_le hge
  rw [h.predicates_eq, List.getElem?_append_right hge, Nat.add_sub_cancel_left] at hp
  obtain ⟨hk, rfl⟩ := List.getElem?_eq_some_iff.1 hp
  have hlength : k < g.lookupPredicates.length := by rwa [h.listed, List.length_mapIdx]
  have hfound : g.lookupPredicates.find? (fun q => q.1.same c) =
      some (more[k].cond, base.predicates.length + k) := by
    refine List.find?_eq_some_iff_getElem.2 ⟨hsame, k, hlength, ?_, fun j hj => ?_⟩
    · simp only [h.listed, List.getElem_mapIdx]
    · -- an earlier predicate that is written like `c` would be written like this one
      have hapart := List.pairwise_iff_getElem.1 h.distinct j k (hj.trans hk) hk hj
      simp only [h.listed, List.getElem_mapIdx, Bool.not_eq_true']
      refine Bool.eq_false_iff.2 fun hearlier => Bool.eq_false_iff.1 hapart ?_
      exact Expr.same_trans hearlier (Expr.same_comm _ _ ▸ hsame)
  rw [lookupPredicate?, hfound]
  rfl

/-! ### Conditions that lookups are for -/

/-- The search looks for lookups at the node numbered `v` that the condition allows, on account of a place
among the predicates. -/
def Asks (g : JoinGraph) (v place : Nat) (c : Expr) : Prop :=
  (place < g.numFilters ∧
      ∃ p, g.predicates[place]? = some p ∧ p.eligibility.isSingleton = true ∧ p.cond = c) ∨
    g.lookupPredicate? c = some place ∧ ∃ n, g.nodes[v]? = some n ∧ c ∈ n.candidates

/-- The requests of the whole search. -/
def requests (g : JoinGraph) : List LookupRequest :=
  (List.range g.numFilters).flatMap g.filterRequests ++ g.candidates.flatMap g.candidateRequests

/-- The requests are those of the conditions that lookups are for. -/
theorem exists_request_iff {v : Nat} {l : Lookup} : (∃ r ∈ g.requests, r.AsksFor g.nodes v l) ↔
    ∃ c, g.Asks v l.predicate c ∧ c.Equates l.field l.other ∧ nodeOf? g.nodes l.field.table = some v ∧
      l.other.tables.overlaps {l.field.table} = false := by
  constructor
  · rintro ⟨r, hr, hasks⟩
    rcases List.mem_append.1 hr with hr | hr
    · obtain ⟨place, hplace, hr⟩ := List.mem_flatMap.1 hr
      unfold filterRequests at hr
      split at hr
      next p hp =>
        rw [List.mem_ite_nil_right] at hr
        obtain ⟨hequates, rfl, hnode, -, hapart⟩ := exists_asksFor_iff.1 ⟨r, hr.2, hasks⟩
        exact ⟨p.cond, .inl ⟨List.mem_range.1 hplace, p, hp, hr.1, rfl⟩, hequates, hnode, hapart⟩
      next => cases hr
    · obtain ⟨⟨u, c⟩, hc, hr⟩ := List.mem_flatMap.1 hr
      unfold candidateRequests at hr
      split at hr
      next place hplace =>
        obtain ⟨hequates, rfl, hnode, hallowed, hapart⟩ := exists_asksFor_iff.1 ⟨r, hr, hasks⟩
        obtain rfl : u = v := by simpa using hallowed
        exact ⟨c, .inr ⟨hplace, mem_candidates.1 hc⟩, hequates, hnode, hapart⟩
      next => cases hr
  · rintro ⟨c, ⟨hplace, p, hp, hsingle, rfl⟩ | ⟨hplace, hc⟩, hequates, hnode, hapart⟩
    · obtain ⟨r, hr, hasks⟩ := exists_asksFor_iff.2 ⟨hequates, rfl, hnode, Option.any_none, hapart⟩
      refine ⟨r, List.mem_append_left _ (List.mem_flatMap.2 ⟨_, List.mem_range.2 hplace, ?_⟩), hasks⟩
      simpa [filterRequests, hp, hsingle] using hr
    · obtain ⟨r, hr, hasks⟩ := exists_asksFor_iff.2
        ⟨hequates, rfl, hnode, show (some v).any (· ≠ v) = false by simp, hapart⟩
      refine ⟨r, List.mem_append_right _ (List.mem_flatMap.2 ⟨(v, c), mem_candidates.2 hc, ?_⟩), hasks⟩
      simpa only [candidateRequests, hplace] using hr

/-- The requests of the search are known from the graph at its end. -/
theorem requests_eq (h : LookupsAdded limit base more g) (hcount : base.numFilters = base.predicates.length) :
    (List.range base.numFilters).flatMap base.filterRequests ++
      base.candidates.flatMap g.candidateRequests = g.requests := by
  have hfilters : ∀ place ∈ List.range base.numFilters,
      base.filterRequests place = g.filterRequests place := fun place hplace => by
    rw [filterRequests, filterRequests, h.predicates_eq,
      List.getElem?_append_left (hcount ▸ List.mem_range.1 hplace)]
  have hcandidates : g.candidates = base.candidates := candidates_congr h.nodes_eq
  rw [requests, h.numFilters_eq, List.flatMap_congr hfilters, hcandidates]

/-- Lookups at the node may evaluate the predicate at the place: it is a filter on a single node, or written
like a candidate of the node. -/
def Serves (g : JoinGraph) (node : TableNode) (place : Nat) (p : Predicate) : Prop :=
  (place < g.numFilters ∧ p.eligibility.isSingleton = true) ∨
    (g.numFilters ≤ place ∧ node.candidates.any (·.same p.cond) = true)

/-- A condition that lookups are for is the predicate at the place, or written like it. -/
theorem exists_predicate_of_asks (h : LookupsAdded limit base more g)
    (hcount : base.numFilters = base.predicates.length) {v place : Nat} {node : TableNode} {c : Expr}
    (hnode : g.nodes[v]? = some node) (hasks : g.Asks v place c) : ∃ p, g.predicates[place]? = some p ∧
      g.Serves node place p ∧ p.cond.Alike c := by
  obtain ⟨hplace, p, hp, hsingle, hc⟩ | ⟨hplace, n, hn, hc⟩ := hasks
  · exact ⟨p, hp, .inl ⟨hplace, hsingle⟩, .inl hc⟩
  · obtain rfl : node = n := Option.some.inj (hnode.symm.trans hn)
    obtain ⟨hge, p, hp, hsame⟩ := h.exists_of_lookupPredicate? hplace
    rw [← hcount, ← h.numFilters_eq] at hge
    exact ⟨p, hp, .inr ⟨hge, List.any_eq_true.2 ⟨c, hc, Expr.same_comm _ _ ▸ hsame⟩⟩, .inr hsame⟩

/-- For a predicate that lookups at the node may evaluate there is a condition. -/
theorem exists_asks_of_serves (h : LookupsAdded limit base more g)
    (hcount : base.numFilters = base.predicates.length) {v place : Nat} {node : TableNode} {p : Predicate}
    (hnode : g.nodes[v]? = some node) (hp : g.predicates[place]? = some p) (hserves : g.Serves node place p) :
    ∃ c, g.Asks v place c ∧ p.cond.Alike c := by
  obtain ⟨hplace, hsingle⟩ | ⟨hge, hany⟩ := hserves
  · exact ⟨p.cond, .inl ⟨hplace, p, hp, hsingle, rfl⟩, .inl rfl⟩
  · obtain ⟨c, hc, hsame⟩ := List.any_eq_true.1 hany
    rw [Expr.same_comm] at hsame
    rw [h.numFilters_eq, hcount] at hge
    exact ⟨c, .inr ⟨h.lookupPredicate?_of_same hge hp hsame, node, hnode, hc⟩, .inr hsame⟩

/-- The lookups of the graph are those that its predicates allow. -/
structure LookupsFound (limit : Nat) (g : JoinGraph) : Prop where
  /-- A node has a lookup just if the predicate at its place equates a column of the node's table with
  something that does not read this table, and lookups at the node may evaluate it. -/
  exact : ∀ {v : Nat} {node : TableNode}, g.nodes[v]? = some node → ∀ place field other,
    (∃ l ∈ node.lookups, l.predicate = place ∧ l.field = field ∧ l.other.same other = true) ↔
      ∃ p, g.predicates[place]? = some p ∧ (∃ o, p.cond.Equates field o ∧ o.same other = true) ∧
        field.table = node.table.number ∧ field.table ∉ other.tables ∧ g.Serves node place p
  /-- No node has two lookups on one column for one predicate. -/
  distinct : ∀ n ∈ g.nodes,
    n.lookups.Pairwise fun l l' => ¬ (l.predicate = l'.predicate ∧ l.field = l'.field)
  /-- A candidate has no place among the predicates only if there is no room. -/
  missed : ∀ n ∈ g.nodes, ∀ c ∈ n.candidates, g.lookupPredicate? c = none →
    g.predicates.length = limit

section

variable (h : LookupsAdded limit base more g) (hcount : base.numFilters = base.predicates.length)
  (hanswer : Answer g.requests g.nodes) (hnodup : (g.nodes.map (·.table.number)).Nodup)
  {v : Nat} {node : TableNode} (hnode : g.nodes[v]? = some node) (hlt : node.table.number < 64)

include h hcount hanswer hnodup hnode

/-- A lookup is on a column of the node's table, and its predicate equates the column with the other side. -/
theorem predicate_of_mem_lookups {l : Lookup} (hl : l ∈ node.lookups) : ∃ p,
    g.predicates[l.predicate]? = some p ∧ g.Serves node l.predicate p ∧
      (∃ c, p.cond.Alike c ∧ c.Equates l.field l.other) ∧ l.field.table = node.table.number ∧
      l.other.tables.overlaps {l.field.table} = false := by
  obtain ⟨c, hasks, hequates, hfound, hapart⟩ := exists_request_iff.1 (hanswer.sound hnode l hl)
  obtain ⟨p, hp, hserves, halike⟩ := exists_predicate_of_asks h hcount hnode hasks
  refine ⟨p, hp, hserves, ⟨c, halike, hequates⟩, ?_, hapart⟩
  rw [nodeOf?_eq_some_iff hnodup, List.getElem?_map, hnode] at hfound
  exact (Option.some.inj hfound).symm

include hlt

/-- A lookup that the predicate at a place allows has been found. -/
theorem exists_lookup_of_serves {place : Nat} {p : Predicate} (hp : g.predicates[place]? = some p)
    (hserves : g.Serves node place p) {field : Column} {o other : Expr} (hequates : p.cond.Equates field o)
    (hother : o.same other = true) (hfield : field.table = node.table.number)
    (hapart : field.table ∉ other.tables) :
    ∃ l ∈ node.lookups, l.predicate = place ∧ l.field = field ∧ l.other.same other = true := by
  obtain ⟨c, hasks, halike⟩ := exists_asks_of_serves h hcount hnode hp hserves
  obtain ⟨o', hequates', hother'⟩ := hequates.of_alike halike.symm hother
  have hnodeOf : nodeOf? g.nodes field.table = some v := by
    rw [nodeOf?_eq_some_iff hnodup, List.getElem?_map, hnode, hfield]
    rfl
  have hapart' : o'.tables.overlaps {field.table} = false := by
    rw [overlaps_singleton_eq_false_iff (hfield ▸ hlt), Expr.tables_of_same hother']
    exact hapart
  obtain ⟨r, hr, hrasks⟩ := (exists_request_iff (l := ⟨place, field, o'⟩)).2
    ⟨c, hasks, hequates', hnodeOf, hapart'⟩
  obtain ⟨n, hn, l, hl, hplace, hlfield⟩ := hanswer.complete hr hrasks
  obtain rfl : node = n := Option.some.inj (hnode.symm.trans hn)
  -- the lookup may have been taken from another candidate that is written alike
  obtain ⟨p', hp', -, ⟨d, hd, hdequates⟩, -⟩ :=
    predicate_of_mem_lookups h hcount hanswer hnodup hnode hl
  rw [hplace, hp] at hp'
  obtain rfl := Option.some.inj hp'
  obtain ⟨o'', hequates'', hother''⟩ := hequates.of_alike hd.symm hother
  obtain rfl := (hlfield ▸ hdequates).unique hequates''
  exact ⟨l, hl, hplace, hlfield, hother''⟩

end

/-- The answer to the requests of the search consists of the lookups that the predicates allow. -/
theorem lookupsFound (h : LookupsAdded limit base more g)
    (hcount : base.numFilters = base.predicates.length) (hanswer : Answer g.requests g.nodes)
    (hnodup : (g.nodes.map (·.table.number)).Nodup) (hlt : ∀ n ∈ g.nodes, n.table.number < 64)
    (hmissed : ∀ n ∈ g.nodes, ∀ c ∈ n.candidates, g.lookupPredicate? c = none →
      g.predicates.length = limit) : g.LookupsFound limit where
  exact := by
    intro v node hnode place field other
    have hnodelt := hlt node (List.mem_of_getElem? hnode)
    constructor
    · rintro ⟨l, hl, rfl, rfl, hother⟩
      obtain ⟨p, hp, hserves, ⟨c, halike, hequates⟩, hfield, hapart⟩ :=
        predicate_of_mem_lookups h hcount hanswer hnodup hnode hl
      rw [overlaps_singleton_eq_false_iff (hfield ▸ hnodelt), Expr.tables_of_same hother] at hapart
      exact ⟨p, hp, hequates.of_alike halike hother, hfield, hapart, hserves⟩
    · rintro ⟨p, hp, ⟨o, hequates, hother⟩, hfield, hapart, hserves⟩
      exact exists_lookup_of_serves h hcount hanswer hnodup hnode hnodelt hp hserves hequates hother hfield
        hapart
  distinct := hanswer.distinct
  missed := hmissed

end JoinGraph

namespace QueryBlock

variable {s : Settings} {q : QueryBlock} {ps : List Predicate} {g : JoinGraph}

/-- Candidates are written like themselves if there is no not-a-number in the block. -/
theorem same_of_mem_candidates (hdefault : s.finisher = .default)
    (hnan : q.AllLabels (fun _ => True) fun v => v.isNaN = false) {x : Nat × Expr}
    (hx : x ∈ ((q.unfiltered s).withPredicates ps).countFilters.candidates) : x.2.same x.2 = true := by
  have hplaced (q : QueryBlock) : ((q.relabel .canonical).placed s.finisher).tree =
      (q.placed s.finisher).tree.relabel .canonical :=
    congrArg Placed.tree (q.placed_relabel (hdefault ▸ Finisher.respects_default))
  have htree : ((q.placed s.finisher).tree.relabel .canonical).relabel .canonical =
      (q.placed s.finisher).tree.relabel .canonical := by
    rw [← hplaced, ← hplaced, relabel_canonical hnan]
  have hleaves := congrArg Tree.leaves htree
  rw [Tree.leaves_relabel, map_eq_self_iff, Tree.leaves_relabel] at hleaves
  obtain ⟨y, hy, hc⟩ := exists_lookup_of_mem_candidates hx
  have hleaf := congrArg (fun z => z.2.lookups) (hleaves _ (List.mem_map_of_mem hy))
  exact Expr.same_of_relabel_eq rfl (map_eq_self_iff.1 hleaf _ (List.mem_map_of_mem hc))

/-- The search has gone through all candidates. -/
theorem searched_of_build {trace? : Option String} (hdefault : s.finisher = .default)
    (hfind : s.findLookups = true) (hnan : q.AllLabels (fun _ => True) fun v => v.isNaN = false)
    (h : (q.build s trace?).result = .ok g) : ∃ base more, base.numFilters = base.predicates.length ∧
      base.predicates.length ≤ s.predicateLimit ∧ JoinGraph.LookupsAdded s.predicateLimit base more g ∧
      g.Searched s.predicateLimit ((List.range base.numFilters).flatMap base.filterRequests)
        base.candidates := by
  obtain ⟨-, -, ps, -, hroom, rfl⟩ := build_eq_ok_iff.1 h
  obtain ⟨more, hmore⟩ := q.lookupsAdded_searched s ps
  refine ⟨_, more, rfl, hroom, hmore, ?_⟩
  rw [JoinGraph.searched, if_pos hfind]
  exact JoinGraph.searched_findLookups s.estimator s.predicateLimit (q.lookups_filtered s ps)
    fun x => same_of_mem_candidates hdefault hnan

/-- The nodes are the tables with the candidates that pushing down has left there, whatever the search has
added. -/
theorem Planned.bare_nodes {left filters more : List Predicate} (h : q.Planned s left filters more g) :
    g.nodes.map TableNode.bare = (q.placed s.finisher).tree.leaves.map fun x => x.2.tableNode := by
  rw [h.lookupsAdded.nodes_eq]
  change (q.unfiltered s).nodes.map TableNode.bare = _
  rw [nodes_unfiltered, List.map_map]
  rfl

/-- **The search for lookups is sound and complete.** If the tables of a block are distinct, there is no
not-a-number in it, and there is a graph, made with the default final forms and with lookups looked for, then
the graph has the lookups that its predicates allow and no others, none of them twice, and only for lack of
room there is a candidate without a place. The tables and the candidates themselves are those that pushing
down has left. -/
theorem lookups_found (s : Settings) (q : QueryBlock) (trace? : Option String) (g : JoinGraph)
    (hdistinct : q.DistinctTables) (hnan : q.AllLabels (fun _ => True) fun v => v.isNaN = false)
    (hdefault : s.finisher = .default) (hfind : s.findLookups = true)
    (h : (q.build s trace?).result = .ok g) : g.LookupsFound s.predicateLimit ∧
      g.nodes.map TableNode.bare = (q.placed s.finisher).tree.leaves.map fun x => x.2.tableNode := by
  obtain ⟨left, filters, _, hplanned⟩ := planned_of_build h
  obtain ⟨base, more, hcount, hroom, hadded, hsearched⟩ := searched_of_build hdefault hfind hnan h
  have hanswer : Answer g.requests g.nodes := by
    rw [← JoinGraph.requests_eq hadded hcount]
    exact hsearched.answer
  refine ⟨JoinGraph.lookupsFound hadded hcount hanswer ?_ ?_ ?_, hplanned.bare_nodes⟩
  · rw [hplanned.numbers_nodes]
    exact hdistinct
  · intro n hn
    refine numbers_lt hplanned.tableCount_le _ ?_
    rw [← hplanned.numbers_nodes]
    exact List.mem_map_of_mem hn
  · intro n hn c hc hnone
    obtain ⟨v, hv⟩ := List.mem_iff_getElem?.1 hn
    have hcandidate : (v, c) ∈ base.candidates :=
      JoinGraph.candidates_congr hadded.nodes_eq ▸ JoinGraph.mem_candidates.2 ⟨n, hv, hc⟩
    refine Nat.le_antisymm ?_ (hsearched.full _ hcandidate hnone)
    exact hadded.length_predicates_le hroom

/-- The filter on `t0.x` and the condition of the join are lookups, the latter on the table that is joined. -/
theorem lookups_found_sample : ∃ g, (sample.build {} none).result = .ok g ∧ sample.DistinctTables ∧
    (g.nodes.map fun n => n.lookups.map fun l => (l.predicate, l.field)) =
      [[(1, ⟨0, "t", "x", .int⟩)], [(2, ⟨1, "t", "x", .int⟩)], []] ∧
    g.LookupsFound 64 ∧
    g.nodes.map TableNode.bare = (sample.placed .default).tree.leaves.map fun x => x.2.tableNode := by
  obtain ⟨g, h⟩ := exists_build_sample
  have hdistinct : sample.DistinctTables := by decide
  have hnan : sample.AllLabels (fun _ => True) fun v => v.isNaN = false := by
    simp [AllLabels, FromList.AllLabels, FromItem.AllLabels, Expr.AllLabels, Expr.equals, sample, Value.isNaN]
  have hlookups : (sample.build {} none).result.toOption.map (fun g =>
      g.nodes.map fun n => n.lookups.map fun l => (l.predicate, l.field)) =
        some [[(1, ⟨0, "t", "x", .int⟩)], [(2, ⟨1, "t", "x", .int⟩)], []] := by decide +kernel
  rw [h] at hlookups
  exact ⟨g, h, hdistinct, Option.some.inj hlookups, lookups_found {} sample none g hdistinct hnan rfl rfl h⟩

end QueryBlock

end QueryGraph
