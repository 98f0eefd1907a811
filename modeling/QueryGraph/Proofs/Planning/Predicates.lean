import QueryGraph.Proofs.Eligibility.Closure
import QueryGraph.Proofs.Planning.Graph

/-!
# The list of predicates

How the predicates of a graph are laid out: first those of the conditions left for WHERE, each waiting for
its eligibility set, then those of the filters of the tables, then those that only serve index lookups.

A filter of a table waits for the node of this table and no other. This is so because pushing down puts
nothing among the filters of a table that reads another table of the block, and because simplifying adds
no tables and final forms read the same ones.

## What is proved

* `Expr.same_comm` — whether two expressions are written alike does not depend on their order.
* `Planned.reads_eligibility`, `Planned.filter_eligibility` — what predicates wait for.
* `predicates_laid_out` — the whole list.
-/

namespace QueryGraph

open BitSet Planning

/-! ### Expressions that are written alike -/

theorem Double.equal_comm (x y : Double) : x.equal y = y.equal x := by
  have hkeys : compare x.key y.key = .eq ↔ compare y.key x.key = .eq := by
    rw [compare_eq_iff_eq, compare_eq_iff_eq, eq_comm]
  unfold equal compare?
  rw [Bool.or_comm y.isNaN]
  split
  · rfl
  · simp only [Option.some.injEq, hkeys]

theorem Value.same_comm (v w : Value) : v.same w = w.same v := by
  cases v <;> cases w <;> first
    | rfl
    | exact Double.equal_comm _ _
    | exact decide_eq_decide.2 eq_comm

/-- Whether two expressions are written alike does not depend on their order. -/
theorem Expr.same_comm (e f : Expr) : e.same f = f.same e := by
  have hlist {es : List Expr} (ih : ∀ e ∈ es, ∀ f, e.same f = f.same e) (fs : List Expr) :
      same.list es fs = same.list fs es := by
    induction es generalizing fs with
    | nil => cases fs <;> rfl
    | cons e es ihes =>
      cases fs with
      | nil => rfl
      | cons f fs =>
        rw [same.list, same.list, ih e List.mem_cons_self f,
          ihes (fun d hd => ih d (List.mem_cons_of_mem e hd)) fs]
  induction e generalizing f with
  | column c => cases f <;> first | rfl | exact decide_eq_decide.2 eq_comm
  | literal v => cases f <;> first | rfl | exact Value.same_comm v _
  | compare op l r ihl ihr =>
    cases f <;> first | rfl | rw [same, same, ihl, ihr, decide_eq_decide.2 eq_comm]
  | rowEq l r ihl ihr => cases f <;> first | rfl | rw [same, same, hlist ihl, hlist ihr]
  | allEqual ms ih | and ms ih | or ms ih => cases f <;> first | rfl | exact hlist ih _
  | not e ih | isNull e ih | cached e ih => cases f <;> first | rfl | exact ih _
  | call g args t ih =>
    cases f <;> first
      | rfl
      | rw [same, same, hlist ih, decide_eq_decide.2 (eq_comm (a := g)),
          decide_eq_decide.2 (eq_comm (a := t))]
  | cast e t ih =>
    cases f <;> first | rfl | rw [same, same, ih, decide_eq_decide.2 (eq_comm (a := t))]

/-! ### The layout -/

/-- The predicates of a graph are laid out as they should be, where the given conditions were left for WHERE
and there may be `limit` predicates. -/
structure JoinGraph.LaidOut (fin : Finisher) (remaining : List Expr) (limit : Nat) (g : JoinGraph) :
    Prop where
  /-- There are no more of them than there may be. -/
  length_le : g.predicates.length ≤ limit
  /-- Filters are among them. -/
  numFilters_le : g.numFilters ≤ g.predicates.length
  /-- Every predicate waits for the nodes of all tables that it reads. -/
  reads : ∀ p ∈ g.predicates, g.nodeSet p.cond.tables ⊆ p.eligibility
  /-- The first filters are the final forms of the conditions left for WHERE, each waiting for its eligibility
  set. The last filters are the final forms of those of the tables, from left to right, each waiting for the
  node of its table and nothing else. -/
  filters : ∃ left filters, g.predicates.take g.numFilters = left ++ filters ∧
    List.Forall₂ (fun c p => fin.apply c = .ok p.cond ∧
      p.eligibility = g.nodeSet (g.tree.eligibility c.tables)) remaining left ∧
    List.Forall₂ (fun x p => fin.apply x.2 = .ok p.cond ∧
      ∃ v, nodeOf? g.nodes x.1.table.number = some v ∧ p.eligibility = {v})
      g.tree.filtersByLeaf filters
  /-- A predicate for lookups waits for the nodes of the tables that it reads and nothing else. -/
  lookups : ∀ p ∈ g.predicates.drop g.numFilters, p.eligibility = g.nodeSet p.cond.tables
  /-- The predicates for lookups are listed with their places. -/
  listed : g.lookupPredicates =
    (g.predicates.drop g.numFilters).mapIdx fun k p => (p.cond, g.numFilters + k)
  /-- No two of these are written alike. -/
  distinct : g.lookupPredicates.Pairwise fun p q => p.1.same q.1 = false ∧ q.1.same p.1 = false

namespace QueryBlock

variable {s : Settings} {q : QueryBlock} {left filters more : List Predicate} {g : JoinGraph}

theorem within_filters (hfin : s.finisher.KeepsTables) :
    (q.unfiltered s).tree.Within (Tree.ofList q.source).tables .filter := by
  refine within_unfiltered nofun hfin ?_
  refine Tree.within_filter_iff.2 fun x hx c hc => ?_
  rw [Tree.filters_ofListFrom 0 q.source x hx] at hc
  cases hc

namespace Planned

/-- The conditions left for WHERE have become predicates. -/
theorem left_made (h : q.Planned s left filters more g) :
    List.Forall₂ (fun c p => p.Made s.finisher c (g.nodeSet (g.tree.eligibility c.tables)))
      q.pushed.2 left := by
  simp only [h.tree_eq, h.nodeSet_eq]
  exact h.filtersMade.left_made

/-- The filters of the tables have become predicates. -/
theorem filters_made (h : q.Planned s left filters more g) :
    List.Forall₂ (fun x p => p.Made s.finisher x.2 (g.nodeSet x.2.tables ∪ x.1.nodes))
      g.tree.filtersByLeaf filters := by
  simp only [h.tree_eq, h.nodeSet_eq]
  exact h.filtersMade.filters_made

theorem predicates_eq (h : q.Planned s left filters more g) :
    g.predicates = left ++ filters ++ more := h.lookupsAdded.predicates_eq

theorem numFilters_eq (h : q.Planned s left filters more g) :
    g.numFilters = (left ++ filters).length := h.lookupsAdded.numFilters_eq

theorem nodeSet_mono (h : q.Planned s left filters more g) (hdistinct : q.DistinctTables)
    {ts us : TableSet} (hsub : ts ⊆ us) : g.nodeSet ts ⊆ g.nodeSet us := by
  refine subset_iff.2 fun v hv => ?_
  obtain ⟨i, hi, hfound⟩ := (h.mem_nodeSet hdistinct).1 hv
  exact (h.mem_nodeSet hdistinct).2 ⟨i, subset_iff.1 hsub i hi, hfound⟩

/-- A predicate waits for the nodes of all tables that it reads. -/
theorem reads_eligibility (h : q.Planned s left filters more g) (hdistinct : q.DistinctTables)
    (hfin : s.finisher.KeepsTables) :
    ∀ p ∈ g.predicates, g.nodeSet p.cond.tables ⊆ p.eligibility := by
  rw [h.predicates_eq]
  refine List.forall_mem_append.2 ⟨List.forall_mem_append.2 ⟨fun p hp => ?_, fun p hp => ?_⟩,
    fun p hp => ?_⟩
  · obtain ⟨c, -, hmade⟩ := exists_of_mem_forall₂ h.filtersMade.left_made hp
    rw [hmade.eligibility_eq, ← h.nodeSet_eq, hfin hmade.finished]
    exact h.nodeSet_mono hdistinct (Tree.subset_eligibility _ _)
  · obtain ⟨x, -, hmade⟩ := exists_of_mem_forall₂ h.filtersMade.filters_made hp
    rw [hmade.eligibility_eq, ← h.nodeSet_eq, hfin hmade.finished]
    exact subset_union_left _ _
  · rw [h.lookupsAdded.eligibility_eq p hp, h.nodeSet_eq]
    exact Subset.refl _

/-- A filter of a table waits for the node of the table and no other. -/
theorem filter_eligibility (h : q.Planned s left filters more g) (hdistinct : q.DistinctTables)
    (hfin : s.finisher.KeepsTables) {x : Leaf × Expr}
    (hx : x ∈ g.tree.filtersByLeaf) :
    ∃ v, nodeOf? g.nodes x.1.table.number = some v ∧ g.nodeSet x.2.tables ∪ x.1.nodes = {v} := by
  obtain ⟨y, hy, hxy⟩ := List.mem_flatMap.1 hx
  obtain ⟨c, hc, rfl⟩ := List.mem_map.1 hxy
  obtain ⟨hlt, v, hv, hnodes, hfound⟩ := h.placed_tree hdistinct y hy
  have hreads := Tree.within_filter_iff.1 (h.tree_eq ▸ within_filters hfin) y hy c hc
  refine ⟨v, hfound, Subset.antisymm (union_subset (subset_iff.2 fun w hw => ?_) ?_) ?_⟩
  · obtain ⟨i, hi, hfound'⟩ := (h.mem_nodeSet hdistinct).1 hw
    have hknown := h.mem_tables_of_mem_numbers (mem_numbers_of_nodeOf? hfound')
    obtain rfl := (mem_singleton hlt).1 (hreads i hi hknown)
    obtain rfl : v = w := Option.some.inj (hfound.symm.trans hfound')
    exact (mem_singleton hv).2 rfl
  · exact hnodes ▸ Subset.refl _
  · exact hnodes ▸ subset_union_right _ _

end Planned

/-- **The list of predicates is laid out and bounded.** If the tables of a block are distinct and there is
a graph, made with the default final forms, then its predicates are laid out as they should be, and there
are no more of them than the settings and the size of a word allow. -/
theorem predicates_laid_out (s : Settings) (q : QueryBlock) (trace? : Option String) (g : JoinGraph)
    (hdistinct : q.DistinctTables) (hdefault : s.finisher = .default)
    (h : (q.build s trace?).result = .ok g) : g.LaidOut s.finisher q.pushed.2 s.predicateLimit := by
  have hfin : s.finisher.KeepsTables := hdefault ▸ Finisher.keepsTables_default
  obtain ⟨left, filters, more, hplanned⟩ := planned_of_build h
  have hdrop : g.predicates.drop g.numFilters = more := by
    rw [hplanned.predicates_eq, hplanned.numFilters_eq, List.drop_left]
  have hlisted : g.lookupPredicates = more.mapIdx fun k p => (p.cond, g.numFilters + k) := by
    rw [hplanned.lookupsAdded.listed, hplanned.numFilters_eq]
    rfl
  constructor
  case length_le => exact hplanned.lookupsAdded.length_predicates_le hplanned.length_le
  case numFilters_le =>
    rw [hplanned.predicates_eq, hplanned.numFilters_eq]
    exact (List.prefix_append (left ++ filters) more).length_le
  case reads => exact hplanned.reads_eligibility hdistinct hfin
  case filters =>
    refine ⟨left, filters, ?_, ?_, ?_⟩
    · rw [hplanned.predicates_eq, hplanned.numFilters_eq, List.take_left]
    · exact hplanned.left_made.imp fun c p hmade => ⟨hmade.finished, hmade.eligibility_eq⟩
    · have hnodes := (List.forall₂_and_left _ _).2
        ⟨fun x hx => hplanned.filter_eligibility hdistinct hfin hx, hplanned.filters_made⟩
      refine hnodes.imp fun x p ⟨⟨v, hfound, hv⟩, hmade⟩ => ⟨hmade.finished, v, hfound, ?_⟩
      rw [hmade.eligibility_eq, hv]
  case lookups =>
    intro p hp
    rw [hplanned.nodeSet_eq]
    exact hplanned.lookupsAdded.eligibility_eq p (hdrop ▸ hp)
  case listed => rw [hdrop, hlisted]
  case distinct =>
    rw [hlisted, List.pairwise_iff_getElem]
    intro i j hi hj hij
    rw [List.getElem_mapIdx, List.getElem_mapIdx]
    rw [List.length_mapIdx] at hi hj
    have hapart := List.pairwise_iff_getElem.1 hplanned.lookupsAdded.distinct i j hi hj hij
    exact ⟨hapart, Expr.same_comm _ _ ▸ hapart⟩

theorem predicates_laid_out_sample :
    ∃ g, (sample.build {} none).result = .ok g ∧ sample.DistinctTables ∧
      g.LaidOut .default sample.pushed.2 64 := by
  obtain ⟨g, h⟩ := exists_build_sample
  have hdistinct : sample.DistinctTables := by decide
  exact ⟨g, h, hdistinct, predicates_laid_out {} sample none g hdistinct rfl h⟩

/-- One predicate comes from WHERE, one from a filter of `t0`, and the join condition is one for
lookups. -/
example : (sample.build {} none).result.toOption.map
    (fun g => (g.numFilters, g.predicates.map Predicate.eligibility)) =
      some (2, [{0, 1}, {0}, {0, 1}]) := by decide +kernel

end QueryBlock

end QueryGraph
