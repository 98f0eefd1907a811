import QueryGraph.Proofs.Reordering.Assembly

/-!
# What admitted plans return

The graph of a tree over distinct tables has what is needed to reorder the joins of the tree, and the
tree in the graph returns what the tree itself does. So the plans that the graph admits return that as
well, as long as the verdicts on the joins are right.

## What is proved

* `addedEdges_ofTree` — the edges of the graph are those of the joins, in their order.
* `rows_of_judgedRightly` — with right verdicts, every admitted plan returns what the tree does.
-/

namespace QueryGraph

open BitSet

variable {R : Type} {m : Meaning R}

namespace Tree

/-- The tables of a tree are distinct. -/
theorem nodup_numbers {t : Tree} (hsep : t.Separate) (hnumbers : ∀ i ∈ t.numbers, i < 64) :
    t.numbers.Nodup := by
  induction t with
  | leaf i l => exact List.nodup_singleton _
  | join i info l r ihl ihr =>
    rw [numbers_join] at hnumbers ⊢
    obtain ⟨hl, hr⟩ := List.forall_mem_append.1 hnumbers
    have hmem {t : Tree} (ht : ∀ i ∈ t.numbers, i < 64) {j : Nat} (hj : j ∈ t.numbers) :
        j ∈ t.tables := by
      obtain ⟨x, hx, rfl⟩ := List.mem_map.1 hj
      exact mem_tables_leaves.2 ⟨x, hx, (mem_singleton (ht _ hj)).2 rfl⟩
    refine List.nodup_append.2 ⟨ihl hsep.2.1 hl, ihr hsep.2.2 hr, fun j hj k hk hjk => ?_⟩
    exact not_mem_of_separate hsep j (hmem hl hj) (hmem hr (hjk ▸ hk))

/-- There are no more than 64 tables. -/
theorem length_numbers_le {t : Tree} (hsep : t.Separate) (hnumbers : ∀ i ∈ t.numbers, i < 64) :
    t.numbers.length ≤ 64 := by
  have hsub : t.numbers ⊆ List.range 64 := fun i hi => List.mem_range.2 (hnumbers i hi)
  have hle := ((nodup_numbers hsep hnumbers).subperm hsub).length_le
  rwa [List.length_range] at hle

end Tree

namespace JoinGraph

variable {est : Estimator}

/-- Distinct tables can get one node each. -/
theorem fresh_of_separate {t : Tree} (hsep : t.Separate) (hnumbers : ∀ i ∈ t.numbers, i < 64) :
    Fresh {} t := by
  have hroom := Tree.length_numbers_le hsep hnumbers
  exact ⟨hnumbers, by rwa [List.length_nil, Nat.zero_add], Tree.nodup_numbers hsep hnumbers⟩

/-- What is true of the graph of a tree. -/
theorem assembled_ofTree (est : Estimator) {t : Tree} (hsep : t.Separate)
    (hnumbers : ∀ i ∈ t.numbers, i < 64) :
    Assembled {} (ofTree est t).value.tree (Assembly.addTree est t {}).value.2 :=
  assembled_addTree est (fresh_of_separate hsep hnumbers)

/-- The edges of the graph are those of its joins. -/
theorem addedEdges_ofTree (est : Estimator) {t : Tree} (hsep : t.Separate)
    (hnumbers : ∀ i ∈ t.numbers, i < 64) :
    (ofTree est t).value.shape.addedEdges = (ofTree est t).value.tree.joins.map JoinNode.edge := by
  have hedges := (assembled_ofTree est hsep hnumbers).edges_eq
  rw [List.nil_append] at hedges
  change Hypergraph.addedEdges.everyOther (Assembly.addTree est t {}).value.2.shape.edges = _
  rw [hedges, Hypergraph.everyOther_flatMap]

theorem bare_ofTree (est : Estimator) (t : Tree) : (ofTree est t).value.tree.bare = t.bare :=
  Tree.bare_addTree est t {}

/-- An admitted plan returns what the tree does, if the verdicts on its joins are right. -/
theorem rows_of_judgedRightly {t : Tree} (hsep : t.Separate) (hnumbers : ∀ i ∈ t.numbers, i < 64)
    (hscoped : t.Scoped) (hjudged : t.JudgedRightly m) {p : Plan}
    (h : p.Admitted (ofTree est t).value) (db : Contents R) : p.rows m db = t.rows m db := by
  have hmade := assembled_ofTree est hsep hnumbers
  have hbare := bare_ofTree est t
  have hregular : (ofTree est t).value.tree.Regular := by
    refine ⟨hmade.numbered, hmade.oneEach, ?_, ?_⟩
    · rw [← Tree.separate_bare, hbare, Tree.separate_bare]
      exact hsep
    · rw [← Tree.scoped_bare, hbare, Tree.scoped_bare]
      exact hscoped
  have hjudged' : (ofTree est t).value.tree.JudgedRightly m := by
    rw [← Tree.judgedRightly_bare, hbare, Tree.judgedRightly_bare]
    exact hjudged
  rw [← Tree.rows_bare m db t, ← hbare, Tree.rows_bare]
  exact Plan.rows_of_admitted hregular hjudged' hmade.ruled
    (addedEdges_ofTree est hsep hnumbers) h

end JoinGraph

end QueryGraph
