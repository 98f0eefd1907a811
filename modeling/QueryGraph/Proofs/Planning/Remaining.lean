import QueryGraph.Proofs.Eligibility.Closure
import QueryGraph.Proofs.Planning.Graph

/-!
# What is left of WHERE

A condition of WHERE that has not found a place further down waits for two nodes at least. It is no
condition on a single table, and no index lookup refers to it.

A condition is given back for one of two reasons. It reads tables of both sides of a join; then it waits
for these. Or it reads the right side of a left join or an antijoin, which it may not enter; then its
eligibility set has a table of the left side as well. Full outer joins also give conditions back, but
there are none in a query block.

## What is proved

* `exists_two_of_remains` — the two reasons, by induction on the tree.
* `remaining_spans_nodes` — what this means for the graph of a query block.
-/

namespace QueryGraph

open BitSet Planning

namespace Tree

theorem opensLeft_of_ne_full {k : JoinKind} (h : k ≠ .full) : k.opensLeft false = true := by
  cases k with
  | full => exact absurd rfl h
  | _ => rfl

theorem guardsRight_of_not_opensRight {k : JoinKind} (h : k ≠ .full)
    (hclosed : ¬ k.opensRight false = true) : guardsRight k = true := by
  cases k with
  | full => exact absurd rfl h
  | left | anti => rfl
  | inner | semi => exact absurd rfl hclosed

/-- A condition that remains reads a table and waits for another one. -/
theorem exists_two_of_remains {t : Tree} {c : Expr} (hsep : t.Separate)
    (hkinds : ∀ k ∈ t.kinds, k ≠ .full) (hc : c.tables ⊆ t.tables)
    (hremains : (t.route c false ∅).remains = true) :
    ∃ i ∈ c.tables, ∃ j ∈ t.tables, i ≠ j ∧ j ∈ t.eligibility c.tables := by
  induction t using inductSides with
  | leaf i l => cases hremains
  | join n ih =>
    have hkind : n.info.kind ≠ .full :=
      hkinds _ (List.mem_map_of_mem (mem_joins_tree.2 (.inl rfl)))
    have hside (s : Side) (hcs : c.tables ⊆ (n.side s).tables)
        (hremains : ((n.side s).route c false ∅).remains = true) :
        ∃ i ∈ c.tables, ∃ j ∈ n.tree.tables, i ≠ j ∧ j ∈ n.tree.eligibility c.tables := by
      have hkinds' : ∀ k ∈ (n.side s).kinds, k ≠ .full := by
        refine List.forall_mem_map.2 fun a ha => ?_
        exact hkinds _ (List.mem_map_of_mem (mem_joins_tree.2 (.inr ⟨s, ha⟩)))
      obtain ⟨i, hi, j, hj, hne, hwaits⟩ := ih s (separate_side hsep s) hkinds' hcs hremains
      have hreads : c.tables.overlaps (n.side s).tables = true :=
        overlaps_iff.2 ⟨i, hi, subset_iff.1 hcs i hi⟩
      exact ⟨i, hi, j, mem_tables_tree.2 ⟨s, hj⟩, hne,
        subset_iff.1 (eligibility_side_subset hreads) j hwaits⟩
    rw [JoinNode.tree, route_join, union_empty, union_empty] at hremains
    by_cases hl : c.tables ⊆ n.left.tables
    · rw [if_pos hl, if_pos (opensLeft_of_ne_full hkind)] at hremains
      exact hside .left hl hremains
    obtain ⟨i, hi, hil⟩ := not_subset_iff.1 hl
    by_cases hr : c.tables ⊆ n.right.tables
    · rw [if_neg hl, if_pos hr] at hremains
      split_ifs at hremains with hopen
      · exact hside .right hr hremains
      -- the join does not let the condition into its right side
      have hir := subset_iff.1 hr i hi
      have hready := readyIn_eligibility_tree (guardsRight_of_not_opensRight hkind hopen)
        (overlaps_iff.2 ⟨i, hi, hir⟩)
      obtain ⟨j, hj, hjl⟩ := overlaps_iff.1 hready.overlaps_left
      exact ⟨i, hi, j, mem_tables_tree.2 ⟨.left, hjl⟩, fun hij => hil (hij ▸ hjl), hj⟩
    · -- the condition reads both sides
      obtain ⟨j, hj, hjr⟩ := not_subset_iff.1 hr
      have hir : i ∈ n.right.tables := (mem_union.1 (subset_iff.1 hc i hi)).resolve_left hil
      exact ⟨i, hi, j, subset_iff.1 hc j hj, fun hij => hjr (hij ▸ hir),
        subset_iff.1 (subset_eligibility c.tables n.tree) j hj⟩

end Tree

namespace QueryBlock

variable {s : Settings} {q : QueryBlock} {left filters more : List Predicate} {g : JoinGraph}

/-- What is left of WHERE are conditions on the tables of the block that could not be pushed down. -/
theorem mem_remaining (hwhere : ∀ c ∈ q.filter, ∀ i ∈ c.tables, i ∈ q.source.tables.map Table.number)
    {c : Expr} (hc : c ∈ q.pushed.2) :
    (q.joined.route c false ∅).remains = true ∧
      ∀ i ∈ c.tables, i ∈ q.source.tables.map Table.number := by
  rw [pushed, Tree.remaining_pushDownAll, List.mem_filter] at hc
  refine ⟨hc.2, fun i hi => ?_⟩
  obtain ⟨d, hd, hid⟩ := Expr.mem_tablesOf.1 (subset_iff.1 (Expr.tables_simplifyAll_subset hc.1) i hi)
  cases hfilter : q.filter with
  | none =>
    rw [hfilter] at hd
    cases hd
  | some e =>
    rw [hfilter] at hd
    exact hwhere e hfilter i (subset_iff.1 (Expr.tables_subset_of_conjunct hd) i hid)

/-- A condition that is left waits for two nodes. -/
theorem Planned.exists_two_nodes (h : q.Planned s left filters more g) (hdistinct : q.DistinctTables)
    (hwhere : ∀ c ∈ q.filter, ∀ i ∈ c.tables, i ∈ q.source.tables.map Table.number)
    {c : Expr} (hc : c ∈ q.pushed.2) :
    ∃ v w, v ≠ w ∧ v ∈ g.nodeSet (g.tree.eligibility c.tables) ∧
      w ∈ g.nodeSet (g.tree.eligibility c.tables) := by
  obtain ⟨hremains, hreads⟩ := mem_remaining hwhere hc
  have hroute := Tree.route_of_outline (h.outline_tree.trans q.outline_joined.symm) c false ∅
  have hlt : ∀ i ∈ g.tree.numbers, i < 64 := h.numbers_tree ▸ numbers_lt h.tableCount_le
  have hsep := Tree.separate_of_nodup hlt (h.numbers_tree ▸ hdistinct)
  have hkinds : ∀ k ∈ g.tree.kinds, k ≠ .full := by
    rw [Tree.kinds_of_outline h.outline_tree]
    exact Tree.kinds_ofList q.source
  have htables : c.tables ⊆ g.tree.tables := subset_iff.2 fun i hi =>
    (Tree.mem_tables_iff hlt).2 (h.numbers_tree ▸ hreads i hi)
  obtain ⟨i, hi, j, hj, hne, hwaits⟩ :=
    Tree.exists_two_of_remains hsep hkinds htables (hroute ▸ hremains)
  obtain ⟨v, hv⟩ := h.exists_nodeOf hdistinct (subset_iff.1 htables i hi)
  obtain ⟨w, hw⟩ := h.exists_nodeOf hdistinct hj
  refine ⟨v, w, ?_, (h.mem_nodeSet hdistinct).2 ⟨i, ?_, hv⟩, (h.mem_nodeSet hdistinct).2 ⟨j, hwaits, hw⟩⟩
  · rintro rfl
    obtain ⟨n, hn, rfl⟩ := number_of_nodeOf? hv
    obtain ⟨n', hn', rfl⟩ := number_of_nodeOf? hw
    rw [hn] at hn'
    cases hn'
    exact hne rfl
  · exact subset_iff.1 (Tree.subset_eligibility c.tables g.tree) i hi

/-- **What is left of WHERE is never a condition on a single table.** If the tables of a block are
distinct, WHERE reads no others and there is a graph, then the first predicates of the graph are those of
the conditions that were left for WHERE. Each of them waits for two nodes at least, and no index lookup
of any node refers to it. -/
theorem remaining_spans_nodes (s : Settings) (q : QueryBlock) (trace? : Option String) (g : JoinGraph)
    (hdistinct : q.DistinctTables)
    (hwhere : ∀ c ∈ q.filter, ∀ i ∈ c.tables, i ∈ q.source.tables.map Table.number)
    (h : (q.build s trace?).result = .ok g) :
    ∃ p, result (q.placeConditions s) = .ok p ∧ ∀ k c, p.remaining[k]? = some c →
      (∃ pred, g.predicates[k]? = some pred ∧ s.finisher.apply c = .ok pred.cond ∧
        ∃ v w, v ≠ w ∧ v ∈ pred.eligibility ∧ w ∈ pred.eligibility) ∧
      ∀ node ∈ g.nodes, ∀ l ∈ node.lookups, l.predicate ≠ k := by
  obtain ⟨left, filters, more, hplanned⟩ := planned_of_build h
  refine ⟨q.placed s.finisher, hplanned.placed_eq, fun k c hc => ?_⟩
  obtain ⟨pred, hpred, hmade⟩ := exists_of_forall₂ hplanned.filtersMade.left_made hc
  have hlt : k < left.length := (List.getElem?_eq_some_iff.1 hpred).1
  have hbase : (left ++ filters)[k]? = some pred := by
    rw [List.getElem?_append_left hlt, hpred]
  have hlength : k < (left ++ filters).length := (List.getElem?_eq_some_iff.1 hbase).1
  have hspans : ∃ v w, v ≠ w ∧ v ∈ pred.eligibility ∧ w ∈ pred.eligibility := by
    rw [hmade.eligibility_eq, ← hplanned.nodeSet_eq, ← hplanned.tree_eq]
    exact hplanned.exists_two_nodes hdistinct hwhere (List.mem_of_getElem? hc)
  refine ⟨⟨pred, ?_, hmade.finished, hspans⟩, fun node hnode l hl hk => ?_⟩
  · rw [hplanned.lookupsAdded.predicates_eq]
    exact (List.getElem?_append_left hlength).trans hbase
  · -- lookups refer to filters on a single node or to predicates that come later
    rcases hplanned.lookupsAdded.refers node hnode l hl with hge | ⟨p, hp, hsingle⟩
    · rw [hk] at hge
      exact absurd hlength (Nat.not_lt.2 hge)
    · rw [hk] at hp
      obtain rfl := Option.some.inj (hbase.symm.trans hp)
      obtain ⟨v, w, hne, hv, hw⟩ := hspans
      exact hne (eq_of_isSingleton hsingle hv hw)

theorem remaining_spans_nodes_sample :
    ∃ g, (sample.build {} none).result = .ok g ∧ sample.DistinctTables ∧
      (∀ c ∈ sample.filter, ∀ i ∈ c.tables, i ∈ sample.source.tables.map Table.number) ∧
      ∃ p, result (sample.placeConditions {}) = .ok p ∧ p.remaining.length = 1 ∧
        ∀ k c, p.remaining[k]? = some c →
          (∃ pred, g.predicates[k]? = some pred ∧ Finisher.default.apply c = .ok pred.cond ∧
            ∃ v w, v ≠ w ∧ v ∈ pred.eligibility ∧ w ∈ pred.eligibility) ∧
          ∀ node ∈ g.nodes, ∀ l ∈ node.lookups, l.predicate ≠ k := by
  obtain ⟨g, h⟩ := exists_build_sample
  have hdistinct : sample.DistinctTables := by decide
  have hwhere : ∀ c ∈ sample.filter, ∀ i ∈ c.tables, i ∈ sample.source.tables.map Table.number := by
    rintro c ⟨⟩ i hi
    exact (mem_ofList (by decide)).1 (subset_iff.1 (by decide) i hi)
  obtain ⟨p, hp, hall⟩ := remaining_spans_nodes {} sample none g hdistinct hwhere h
  refine ⟨g, h, hdistinct, hwhere, p, hp, ?_, hall⟩
  obtain ⟨-, rfl⟩ := placeConditions_eq_ok.1 hp
  decide +kernel

end QueryBlock

end QueryGraph
