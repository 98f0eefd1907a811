import QueryGraph.Proofs.Hypergraph.Shuffled

/-!
# The order of the conjuncts

The conditions of WHERE may be written in any order.

## The model

The blocks compared here differ in the order of the conjuncts of WHERE. Their graphs then differ in the
order of conditions at most (`Rearranged`), and that up to how constants are written: where two conditions
are written alike, which of them is kept depends on their order.

First all constants are brought into canonical form. Then what is written alike is equal, and the stages of
planning respect the order of conditions as `Shuffled` says. Planning commutes with the change of
constants, so the result carries over.

## What is proved

* `shuffled_pushed`, `build_shuffled` — a canonical block with its conjuncts in another order.
* `build_conjuncts_perm` — any block without a not-a-number.
-/

namespace QueryGraph

/-! ### Conditions that are alike -/

/-- The lists have members that belong together, in another order. -/
def PermBy {α : Type} (R : α → α → Prop) (xs ys : List α) : Prop := ∃ zs, List.Forall₂ R xs zs ∧ zs.Perm ys

/-- What has the same images in another order belongs together in another order. -/
theorem permBy_of_map {α β : Type} {R : α → α → Prop} {P : α → Prop} {f : α → β} {xs ys : List α}
    (hxs : ∀ x ∈ xs, P x) (hR : ∀ x y, P x → f x = f y → R x y) (h : (xs.map f).Perm (ys.map f)) :
    PermBy R xs ys := by
  have hys : List.Forall₂ (fun b y => b = f y) (ys.map f) ys := by
    rw [List.forall₂_map_left_iff, List.forall₂_same]
    exact fun _ _ => rfl
  obtain ⟨zs, hzs, hperm⟩ := List.perm_comp_forall₂ h hys
  have hpairs := (List.forall₂_and_left xs zs).2 ⟨hxs, List.forall₂_map_left_iff.1 hzs⟩
  exact ⟨zs, hpairs.imp fun x z hxz => hR x z hxz.1 hxz.2, hperm⟩

/-- The node has candidates that are written alike, in another order. -/
structure TableNode.Rearranged (n n' : TableNode) : Prop where
  /-- The table is the same. -/
  table_eq : n.table = n'.table
  /-- The candidates are alike. -/
  candidates : PermBy (fun c d => c.same d = true) n.candidates n'.candidates

/-- The predicates have conditions that are written alike and wait for the same nodes. -/
structure Predicate.Alike (p p' : Predicate) : Prop where
  /-- The conditions are written alike. -/
  cond_same : p.cond.same p'.cond = true
  /-- They wait for the same nodes. -/
  eligibility_eq : p.eligibility = p'.eligibility
  /-- They let through the same fraction of rows. -/
  selectivity_eq : p.selectivity = p'.selectivity

/-- The graphs differ at most in the order of conditions, in how constants are written, and in what comes
of lookups. -/
structure JoinGraph.Rearranged (g g' : JoinGraph) : Prop where
  /-- The nodes with their neighbors are the same, and so are the edges in their order. -/
  shape_eq : g.shape = g'.shape
  /-- The nodes stand for the same tables and have the same candidates for lookups. -/
  nodes : List.Forall₂ TableNode.Rearranged g.nodes g'.nodes
  /-- The edges belong to the same joins. -/
  joins_eq : g.joins.map JoinEdge.join = g'.joins.map JoinEdge.join
  /-- The same rules stay on every join. -/
  rules_eq : g.tree.joins.map (fun n => (n.id, n.info.rules)) =
    g'.tree.joins.map fun n => (n.id, n.info.rules)
  /-- As many predicates are filters. -/
  numFilters_eq : g.numFilters = g'.numFilters
  /-- The filters are alike. -/
  filters : PermBy Predicate.Alike (g.predicates.take g.numFilters) (g'.predicates.take g'.numFilters)

/-! ### Canonical blocks -/

/-- The graphs are shuffled, and their filters are permuted. -/
structure JoinGraph.FiltersPermuted (g g' : JoinGraph) : Prop extends g.Shuffled g' where
  /-- As many predicates are filters. -/
  numFilters_eq : g.numFilters = g'.numFilters
  /-- The filters are permuted. -/
  filters : (g.predicates.take g.numFilters).Perm (g'.predicates.take g'.numFilters)

namespace QueryBlock

variable {s : Settings} {q q' : QueryBlock} {trace? : Option String}

/-- The conjuncts of a canonical block, once simplified, are canonical. -/
theorem canonical_simplifyAll (hq : q.relabel .canonical = q) :
    ∀ c ∈ Expr.simplifyAll (Expr.conjunctsOf q.filter), c.Canonical := by
  have hfilter : q.filter.map (Expr.relabel .canonical) = q.filter := congrArg QueryBlock.filter hq
  have hmap : Expr.simplifyAll ((Expr.conjunctsOf q.filter).map (Expr.relabel .canonical)) =
      (Expr.simplifyAll (Expr.conjunctsOf q.filter)).map (Expr.relabel .canonical) :=
    Expr.simplifyAll_relabel _
  rw [← Expr.conjunctsOf_relabel, hfilter] at hmap
  exact map_eq_self_iff.1 hmap.symm

/-- The conjuncts of a canonical block get the same places in any order. -/
theorem shuffled_pushed (hq : q.relabel .canonical = q) (hsource : q.source = q'.source)
    (hperm : (Expr.conjunctsOf q.filter).Perm (Expr.conjunctsOf q'.filter)) :
    q.pushed.1.Shuffled q'.pushed.1 ∧ q.pushed.2.Perm q'.pushed.2 := by
  have hjoined : q.joined = q'.joined := by rw [joined, joined, hsource]
  rw [pushed, pushed, ← hjoined]
  exact Tree.shuffled_pushDownAll false (Expr.simplifyAll_perm hperm) (canonical_simplifyAll hq) q.joined

/-- If there is a graph for a canonical block, there is one for the block with its conjuncts in another
order, and it has the same filters in another order. -/
theorem build_shuffled (hq : q.relabel .canonical = q) (hsource : q.source = q'.source)
    (hperm : (Expr.conjunctsOf q.filter).Perm (Expr.conjunctsOf q'.filter)) {g : JoinGraph}
    (h : (q.build s trace?).result = .ok g) :
    ∃ g', (q'.build s trace?).result = .ok g' ∧ g.FiltersPermuted g' := by
  obtain ⟨hpushed, hremaining⟩ := shuffled_pushed hq hsource hperm
  obtain ⟨hcount, herror, ps, hps, hroom, rfl⟩ := build_eq_ok_iff.1 h
  have hcount' : q'.tableCount = q.tableCount := by rw [tableCount, tableCount, hsource]
  obtain ⟨u, hu⟩ : ∃ u, q.pushed.1.finishConds s.finisher = ⟨u, none⟩ := ⟨_, by rw [← herror]⟩
  obtain ⟨u', hu', hfinished⟩ := Tree.shuffled_finishConds hpushed hu
  have hplaced : (q.placed s.finisher).tree.Shuffled (q'.placed s.finisher).tree := by
    rw [placed, placed, hu, hu']
    exact Tree.shuffled_divideKeys (Tree.shuffled_recordUsedTables hfinished)
  have hunfiltered : (q.unfiltered s).Shuffled (q'.unfiltered s) :=
    JoinGraph.shuffled_ofTree s.estimator hplaced
  obtain ⟨ps', hps', hpreds⟩ := mapM_perm (hunfiltered.filterSources hremaining) hps
  have hbuild : (q'.build s trace?).result = .ok _ :=
    build_eq_ok_iff.2 ⟨hcount' ▸ hcount, by rw [hu'], ps', hps', hpreds.length_eq ▸ hroom, rfl⟩
  obtain ⟨more, hmore⟩ := q.lookupsAdded_searched s ps
  obtain ⟨more', hmore'⟩ := q'.lookupsAdded_searched s ps'
  have hbase : ((q.unfiltered s).withPredicates ps).countFilters.Shuffled
      ((q'.unfiltered s).withPredicates ps').countFilters :=
    ⟨hunfiltered.shape_eq, hunfiltered.nodes, hunfiltered.joins_eq, hunfiltered.tree⟩
  refine ⟨_, hbuild, { hbase.lookupsAdded hmore hmore' with numFilters_eq := ?_, filters := ?_ }⟩
  · rw [hmore.numFilters_eq, hmore'.numFilters_eq]
    exact hpreds.length_eq
  · rw [hmore.filters_eq rfl, hmore'.filters_eq rfl]
    exact hpreds

/-! ### Any blocks -/

theorem tableCount_relabel_canonical (q : QueryBlock) : (q.relabel .canonical).tableCount = q.tableCount := by
  have htables : (q.relabel .canonical).source.tables = q.source.tables :=
    (FromList.tables_relabel q.source).trans (List.map_id' _)
  rw [tableCount, tableCount, htables]

/-- Planning with canonical constants has the same outcome with canonical constants. -/
theorem build_relabel_canonical (hfin : s.finisher = .default) (hest : s.estimator = .default)
    (hcount : q.tableCount ≤ s.tableLimit) (trace? : Option String) :
    ((q.relabel .canonical).build s trace?).result =
      Except.bimap (PlanError.relabel .canonical) (JoinGraph.relabel .canonical)
        (q.build s trace?).result := by
  refine build_relabel (hfin ▸ Finisher.respects_default) (hest ▸ Estimator.respects_default) hcount ?_ _
  rw [tableCount_relabel_canonical]
  exact hcount

end QueryBlock

theorem TableNode.rearranged_of_relabel {n n' : TableNode}
    (hn : (n.relabel .canonical).relabel .canonical = n.relabel .canonical)
    (h : (n.relabel .canonical).Shuffled (n'.relabel .canonical)) : n.Rearranged n' := by
  have hcanonical : ∀ c ∈ n.candidates, (c.relabel .canonical).Canonical :=
    List.forall_mem_map.1 (map_eq_self_iff.1 (congrArg TableNode.candidates hn))
  exact ⟨h.table_eq, permBy_of_map hcanonical (fun c d hc hcd => Expr.same_of_relabel_eq hcd hc) h.candidates⟩

theorem Predicate.alike_of_relabel {p p' : Predicate}
    (hp : (p.relabel .canonical).relabel .canonical = p.relabel .canonical)
    (h : p.relabel .canonical = p'.relabel .canonical) : p.Alike p' where
  cond_same := Expr.same_of_relabel_eq (congrArg Predicate.cond h) (congrArg Predicate.cond hp)
  eligibility_eq := (Predicate.mk.inj h).2.1
  selectivity_eq := (Predicate.mk.inj h).2.2

/-- Graphs are rearranged if they are shuffled once their constants are in canonical form. -/
theorem JoinGraph.rearranged_of_relabel {g g' : JoinGraph}
    (hg : (g.relabel .canonical).relabel .canonical = g.relabel .canonical)
    (h : (g.relabel .canonical).FiltersPermuted (g'.relabel .canonical)) : g.Rearranged g' where
  shape_eq := h.shape_eq
  nodes := by
    have hnodes := List.forall_mem_map.1 (map_eq_self_iff.1 (congrArg JoinGraph.nodes hg))
    have hshuffled := List.forall₂_map_left_iff.1 (List.forall₂_map_right_iff.1 h.nodes)
    have hpairs := (List.forall₂_and_left g.nodes g'.nodes).2 ⟨hnodes, hshuffled⟩
    exact hpairs.imp fun n n' hn => TableNode.rearranged_of_relabel hn.1 hn.2
  joins_eq := h.joins_eq
  rules_eq := by
    have hrules (t : Tree) : (t.relabel .canonical).joins.map (fun n => (n.id, n.info.rules)) =
        t.joins.map fun n => (n.id, n.info.rules) := by
      rw [Tree.joins_relabel, List.map_map]
      rfl
    exact (hrules g.tree).symm.trans (h.tree.rules_eq.trans (hrules g'.tree))
  numFilters_eq := h.numFilters_eq
  filters := by
    have hpredicates := List.forall_mem_map.1 (map_eq_self_iff.1 (congrArg JoinGraph.predicates hg))
    have hperm : ((g.predicates.take g.numFilters).map (Predicate.relabel .canonical)).Perm
        ((g'.predicates.take g'.numFilters).map (Predicate.relabel .canonical)) := by
      rw [List.map_take, List.map_take]
      exact h.filters
    exact permBy_of_map (fun p hp => hpredicates p (List.mem_of_mem_take hp))
      (fun p p' hp hpp' => Predicate.alike_of_relabel hp hpp') hperm

namespace QueryBlock

variable {s : Settings} {q q' : QueryBlock} {trace? : Option String}

/-- If there is a graph for a block without a not-a-number, there is one for the block with its conjuncts
in another order, and it is rearranged at most. -/
theorem build_rearranged (hfin : s.finisher = .default) (hest : s.estimator = .default)
    (hnan : q.AllLabels (fun _ => True) fun v => v.isNaN = false) (hsource : q.source = q'.source)
    (hperm : (Expr.conjunctsOf q.filter).Perm (Expr.conjunctsOf q'.filter)) {g : JoinGraph}
    (h : (q.build s trace?).result = .ok g) :
    ∃ g', (q'.build s trace?).result = .ok g' ∧ g.Rearranged g' := by
  have hcount := (build_eq_ok_iff.1 h).1
  have hcount' : q'.tableCount ≤ s.tableLimit := by
    rw [tableCount, ← hsource]
    exact hcount
  have hcanonical := relabel_canonical hnan
  have hbuild := build_relabel_canonical hfin hest hcount trace?
  rw [h] at hbuild
  have hcount_canonical : (q.relabel .canonical).tableCount ≤ s.tableLimit := by
    rw [tableCount_relabel_canonical]
    exact hcount
  have hstays := build_relabel_canonical hfin hest hcount_canonical trace?
  rw [hcanonical, hbuild] at hstays
  have hfilters : (Expr.conjunctsOf (q.relabel .canonical).filter).Perm
      (Expr.conjunctsOf (q'.relabel .canonical).filter) := by
    simp only [relabel, Expr.conjunctsOf_relabel]
    exact hperm.map _
  have hsources : (q.relabel .canonical).source = (q'.relabel .canonical).source :=
    congrArg (FromList.relabel .canonical) hsource
  obtain ⟨g₀, hg₀, hpermuted⟩ := build_shuffled hcanonical hsources hfilters hbuild
  rw [build_relabel_canonical hfin hest hcount'] at hg₀
  cases hresult : (q'.build s trace?).result with
  | error e =>
    rw [hresult] at hg₀
    cases hg₀
  | ok g' =>
    rw [hresult] at hg₀
    cases hg₀
    exact ⟨g', rfl, JoinGraph.rearranged_of_relabel (Except.ok.inj hstays).symm hpermuted⟩

/-- **The order of the conjuncts does not matter.** If the conditions of WHERE are written in another order
and no constant is a not-a-number, there is a graph for both blocks or for none. The graphs have the same
nodes, edges and rules, and the same conditions wait for the same nodes as filters. -/
theorem build_conjuncts_perm (s : Settings) (hfin : s.finisher = .default) (hest : s.estimator = .default)
    (source : FromList) (conjuncts conjuncts' : List Expr) (hperm : conjuncts.Perm conjuncts')
    (hnan : AllLabels (fun _ => True) (fun v => v.isNaN = false) ⟨source, some (.and conjuncts)⟩)
    (trace? : Option String) :
    (∀ g, (build s ⟨source, some (.and conjuncts)⟩ trace?).result = .ok g →
      ∃ g', (build s ⟨source, some (.and conjuncts')⟩ trace?).result = .ok g' ∧ g.Rearranged g') ∧
    ∀ g', (build s ⟨source, some (.and conjuncts')⟩ trace?).result = .ok g' →
      ∃ g, (build s ⟨source, some (.and conjuncts)⟩ trace?).result = .ok g := by
  have hconjuncts {cs cs' : List Expr} (h : cs.Perm cs') :
      (Expr.conjunctsOf (some (.and cs))).Perm (Expr.conjunctsOf (some (.and cs'))) := by
    simp only [Expr.conjunctsOf, Expr.conjuncts, Expr.conjuncts.list_eq_flatMap]
    exact h.flatMap_right _
  have hnan' : AllLabels (fun _ => True) (fun v => v.isNaN = false) ⟨source, some (.and conjuncts')⟩ := by
    simp only [AllLabels, Option.mem_some_iff, forall_eq', Expr.AllLabels, Expr.AllLabels.list_iff] at hnan ⊢
    exact ⟨hnan.1, fun c hc => hnan.2 c (hperm.mem_iff.2 hc)⟩
  let q : QueryBlock := ⟨source, some (.and conjuncts)⟩
  let q' : QueryBlock := ⟨source, some (.and conjuncts')⟩
  have hsource : q.source = q'.source := rfl
  refine ⟨fun g h => build_rearranged hfin hest hnan hsource (hconjuncts hperm) h, fun g' h => ?_⟩
  obtain ⟨g, hg, -⟩ := build_rearranged hfin hest hnan' hsource.symm (hconjuncts hperm.symm) h
  exact ⟨g, hg⟩

/-- Tests for zero in both ways to write it, and a test for NULL. -/
def zeroTests : List Expr :=
  let x (i : Nat) : Expr := .column ⟨i, "t", "x", .int⟩
  [(x 0).equals (.literal (.double .zero)), (x 0).equals (.literal (.double Double.zero.negate)),
    .isNull (x 1)]

theorem build_conjuncts_perm_zeroTests : ∃ g g',
    (build {} ⟨sample.source, some (.and zeroTests)⟩ none).result = .ok g ∧
      (build {} ⟨sample.source, some (.and zeroTests.reverse)⟩ none).result = .ok g' ∧ g.Rearranged g' := by
  have hnan : AllLabels (fun _ => True) (fun v => v.isNaN = false)
      ⟨sample.source, some (.and zeroTests)⟩ := by
    have hzero : Double.zero.isNaN = false ∧ Double.zero.negate.isNaN = false := by decide
    simp [AllLabels, FromList.AllLabels, FromItem.AllLabels, Expr.AllLabels, Expr.equals, sample, zeroTests,
      Value.isNaN, hzero]
  have hok : (build {} ⟨sample.source, some (.and zeroTests)⟩ none).result.isOk = true := by
    decide +kernel
  obtain ⟨g, hg⟩ := Except.exists_of_isOk hok
  obtain ⟨g', hg', hrearranged⟩ := (build_conjuncts_perm {} rfl rfl sample.source zeroTests zeroTests.reverse
    (List.reverse_perm zeroTests).symm hnan none).1 g hg
  exact ⟨g, g', hg, hg', hrearranged⟩

end QueryBlock

end QueryGraph
