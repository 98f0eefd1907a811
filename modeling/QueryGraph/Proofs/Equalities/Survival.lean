import QueryGraph.Proofs.Equalities.Occurrences
import QueryGraph.Proofs.Passes.Carried
import QueryGraph.Proofs.Planning.Graph
import QueryGraph.Proofs.Planning.Search

/-!
# When equalities of several members survive

In which lists of conditions, and in which graphs, equalities of several members are left.

Simplifying the conditions of a block leaves those that stand in the operands of a comparison or among the
members of another equality (`Expr.simplifiesToPlain`). The later stages neither add nor remove any: they
put conditions and parts of them somewhere else, and insert casts and marks. So a graph is free of them just
if all lists of conditions of its block are when they have been simplified.

## What is proved

* `plain_of_leavesPlain` — if none is left, the graph has none.
* `leavesPlain_of_plain` — if one is left, the graph has it.
* `plain_exact` — simplified conditions, and the graphs made of them.
-/

namespace QueryGraph

open Planning

/-- Expressions that are written alike are plain together. -/
theorem Expr.plain_of_same {e e' : Expr} (h : e.same e' = true) : e.plain = e'.plain := by
  rw [← plain_relabel .canonical e, (labels_of_same h).1, plain_relabel]

/-- No equality of several members is left when a list of conditions has been simplified. -/
def Expr.leavesPlain (conds : List Expr) : Bool := contradictory conds || conds.all simplifiesToPlain

theorem Expr.leavesPlain_iff {conds : List Expr} :
    leavesPlain conds = true ↔ ∀ c ∈ simplifyAll conds, c.plain = true := by
  rw [plain_simplifyAll_iff, leavesPlain, Bool.or_eq_true, List.all_eq_true]

/-- No equality of several members is in a join condition, a filter of a table or a predicate. -/
structure JoinGraph.Plain (g : JoinGraph) : Prop where
  /-- None is in a join condition. -/
  joins : ∀ n ∈ g.tree.joins, ∀ c ∈ n.info.allConds, c.plain = true
  /-- None is in a filter of a table. -/
  filters : ∀ x ∈ g.tree.leaves, ∀ c ∈ x.2.filters, c.plain = true
  /-- None is in a predicate. -/
  predicates : ∀ p ∈ g.predicates, p.cond.plain = true

namespace QueryBlock

/-- No equality of several members is left of the conditions of the block. -/
def LeavesPlain (q : QueryBlock) : Prop :=
  (∀ n ∈ (Tree.ofList q.source).joins, Expr.leavesPlain n.info.conds = true) ∧
    Expr.leavesPlain (Expr.conjunctsOf q.filter) = true

instance (q : QueryBlock) : Decidable q.LeavesPlain := inferInstanceAs (Decidable (_ ∧ _))

variable {s : Settings} {q : QueryBlock} {left filters more : List Predicate} {g : JoinGraph}

theorem keptByParts_plain : Expr.KeptByParts fun c => c.plain = true := Expr.plain_restrict

theorem keeps_plain : Finisher.default.Keeps fun c => c.plain = true := fun hc h =>
  (Expr.seesThrough_plain.apply_default h).trans hc

theorem keeps_not_plain : Finisher.default.Keeps fun c => ¬ c.plain = true := fun hc h hd =>
  hc ((Expr.seesThrough_plain.apply_default h).symm.trans hd)

/-- Where nothing is left, the tree of the graph carries nothing of it, and no condition is left for WHERE. -/
theorem plain_pushed (h : q.LeavesPlain) :
    q.pushed.1.Carries (fun c => c.plain = true) ∧ ∀ c ∈ q.pushed.2, c.plain = true := by
  have hjoined : q.joined.Carries fun c => c.plain = true := by
    refine Tree.carries_pushDownJoins keptByParts_plain (Tree.carries_simplifyConds ?_ ?_)
    · intro x hx
      rw [Tree.filters_ofListFrom 0 q.source x hx, (Tree.bare_ofListFrom 0 q.source).1 x hx]
      exact ⟨nofun, nofun⟩
    · intro n hn
      rw [(Tree.bare_ofListFrom 0 q.source).2 n hn]
      exact ⟨nofun, Expr.leavesPlain_iff.1 (h.1 n hn)⟩
  have hconds := Expr.leavesPlain_iff.1 h.2
  refine ⟨Tree.carries_pushDownAll keptByParts_plain false hconds hjoined, fun c hc => ?_⟩
  rw [pushed, Tree.remaining_pushDownAll] at hc
  exact hconds c (List.mem_of_mem_filter hc)

/-- Where something is left, it is evaluated by the tree or left for WHERE. -/
theorem exists_pushed_of_not_leavesPlain (h : ¬ q.LeavesPlain) :
    (∃ c ∈ q.pushed.2, ¬ c.plain = true) ∨ q.pushed.1.Evaluates fun c => ¬ c.plain = true := by
  have hcopies : Expr.KeptByCopies fun c => ¬ c.plain = true := fun hc hsame h =>
    hc (Expr.plain_of_same hsame ▸ h)
  have hsome {conds : List Expr} (h : ¬ Expr.leavesPlain conds = true) :
      ∃ c ∈ Expr.simplifyAll conds, ¬ c.plain = true := by
    rw [Expr.leavesPlain_iff] at h
    simpa only [not_forall, exists_prop] using h
  refine Tree.evaluates_pushDownAll hcopies false ?_
  rw [LeavesPlain, not_and_or, not_forall] at h
  obtain ⟨n, hn⟩ | hfilter := h
  · rw [Classical.not_imp] at hn
    exact .inr ((Tree.evaluates_simplifyConds ⟨n, hn.1, hsome hn.2⟩).pushDownJoins hcopies)
  · exact .inl (hsome hfilter)

/-- The conditions have final forms if there is a graph. -/
theorem finishConds_of_build {trace? : Option String} (h : (q.build s trace?).result = .ok g) :
    ∃ u, q.pushed.1.finishConds s.finisher = ⟨u, none⟩ ∧
      (q.placed s.finisher).tree = u.recordUsedTables.divideKeys := by
  obtain ⟨-, herror, -⟩ := build_eq_ok_iff.1 h
  rw [placed]
  generalize q.pushed.1.finishConds s.finisher = finished at herror ⊢
  obtain ⟨u, error?⟩ := finished
  obtain rfl := herror
  exact ⟨u, rfl, rfl⟩

/-- A predicate is the final form of what is left for WHERE or of a filter, or it is a lookup of a table. -/
theorem predicate_of_build {trace? : Option String} (h : (q.build s trace?).result = .ok g) {p : Predicate}
    (hp : p ∈ g.predicates) :
    (∃ c, s.finisher.apply c = .ok p.cond ∧
        (c ∈ q.pushed.2 ∨ ∃ x ∈ (q.unfiltered s).tree.leaves, c ∈ x.2.filters)) ∨
      ∃ x ∈ (q.placed s.finisher).tree.leaves, p.cond ∈ x.2.lookups := by
  obtain ⟨-, -, ps, hps, -, rfl⟩ := build_eq_ok_iff.1 h
  obtain ⟨left, filters, rfl, hmade⟩ := JoinGraph.filtersMade_of_mapM hps
  have hfilter (hp : p ∈ left ++ filters) : ∃ c, s.finisher.apply c = .ok p.cond ∧
      (c ∈ q.pushed.2 ∨ ∃ x ∈ (q.unfiltered s).tree.leaves, c ∈ x.2.filters) := by
    rcases List.mem_append.1 hp with hp | hp
    · obtain ⟨c, hc, hcp⟩ := exists_of_mem_forall₂ hmade.left_made hp
      exact ⟨c, hcp.finished, .inl hc⟩
    · obtain ⟨x, hx, hxp⟩ := exists_of_mem_forall₂ hmade.filters_made hp
      obtain ⟨y, hy, hxy⟩ := List.mem_flatMap.1 hx
      obtain ⟨c, hc, rfl⟩ := List.mem_map.1 hxy
      exact ⟨c, hxp.finished, .inr ⟨y, hy, hc⟩⟩
  have hnone := q.lookups_filtered s (left ++ filters)
  rw [JoinGraph.searched] at hp
  split at hp
  · rcases JoinGraph.mem_predicates_findLookups hnone hp with hp | ⟨x, hx, heq⟩
    · exact .inl (hfilter hp)
    · exact .inr (heq ▸ exists_lookup_of_mem_candidates hx)
  · exact .inl (hfilter hp)

/-- If nothing is left, the graph is plain. -/
theorem plain_of_leavesPlain {trace? : Option String} (hdefault : s.finisher = .default)
    (h : (q.build s trace?).result = .ok g) (hleft : q.LeavesPlain) : g.Plain := by
  obtain ⟨left, filters, more, hplanned⟩ := planned_of_build h
  obtain ⟨u, hu, hplaced⟩ := finishConds_of_build h
  rw [hdefault] at hu
  obtain ⟨hpushed, hremaining⟩ := plain_pushed hleft
  have htree : (q.placed s.finisher).tree.Carries fun c => c.plain = true := by
    rw [hplaced]
    have hfinished := Tree.carries_finishConds keeps_plain hpushed hu
    exact Tree.carries_divideKeys (Tree.carries_recordUsedTables hfinished)
  have hgraph : g.tree.Carries fun c => c.plain = true := by
    rw [hplanned.tree_eq]
    exact Tree.carries_addTree s.estimator {} htree
  refine ⟨hgraph.of_mem_joins, fun x hx => (hgraph.of_mem_leaves x hx).1, fun p hp => ?_⟩
  rcases predicate_of_build h hp with ⟨c, hfinal, hc⟩ | ⟨x, hx, hp⟩
  · rw [hdefault] at hfinal
    refine keeps_plain ?_ hfinal
    rcases hc with hc | ⟨x, hx, hc⟩
    · exact hremaining c hc
    · exact (hgraph.of_mem_leaves x (hplanned.tree_eq ▸ hx)).1 c hc
  · exact (htree.of_mem_leaves x hx).2 _ hp

/-- If something is left, it is in the graph. -/
theorem leavesPlain_of_plain {trace? : Option String} (hdefault : s.finisher = .default)
    (h : (q.build s trace?).result = .ok g) (hplain : g.Plain) : q.LeavesPlain := by
  obtain ⟨left, filters, more, hplanned⟩ := planned_of_build h
  obtain ⟨u, hu, hplaced⟩ := finishConds_of_build h
  rw [hdefault] at hu
  have hbare : g.tree.bare = (q.placed s.finisher).tree.bare := by
    rw [hplanned.tree_eq]
    exact Tree.bare_addTree s.estimator _ {}
  by_contra hleft
  rcases exists_pushed_of_not_leavesPlain hleft with ⟨c, hc, hcplain⟩ | hevaluates
  case inl =>
    -- a condition left for WHERE has become a predicate
    obtain ⟨p, hp, hmade⟩ := exists_of_mem_forall₂ hplanned.filtersMade.left_made.flip hc
    have hfinal := hdefault ▸ hmade.finished
    refine keeps_not_plain hcplain hfinal (hplain.predicates p ?_)
    rw [hplanned.lookupsAdded.predicates_eq]
    exact List.mem_append_left _ (List.mem_append_left _ hp)
  case inr =>
    have hrecorded := (hevaluates.finishConds keeps_not_plain hu).recordUsedTables
    refine Tree.not_evaluates_of_divideKeys ?_ ?_ hrecorded
    · have hfilters := Tree.forall_filters_bare.2 hplain.filters
      rw [hbare, Tree.forall_filters_bare, hplaced] at hfilters
      exact fun x hx c hc hnot => hnot (hfilters x hx c hc)
    · have hjoins := Tree.forall_allConds_bare.2 hplain.joins
      rw [hbare, Tree.forall_allConds_bare, hplaced] at hjoins
      exact fun n hn c hc hnot => hnot (hjoins n hn c hc)

/-- **Which equalities of several members are left.** What is left of a list of conditions are no
conjunctions, no constants and no such equalities as a whole, unless the conditions contradict each other
and FALSE is all that is left. Inside of them such equalities are left unless `Expr.leavesPlain` holds, and
the graph of a block is free of them just if none is left of any list of conditions of the block. -/
theorem plain_exact (conds : List Expr) :
    (Expr.simplifyAll conds = [Expr.never] ∨ ∀ c ∈ Expr.simplifyAll conds, c.standsAlone = true) ∧
      ((∀ c ∈ Expr.simplifyAll conds, c.plain = true) ↔ Expr.leavesPlain conds = true) ∧
      ∀ (s : Settings) (q : QueryBlock) (trace? : Option String) (g : JoinGraph), s.finisher = .default →
        (q.build s trace?).result = .ok g → (g.Plain ↔ q.LeavesPlain) := by
  refine ⟨?_, Expr.leavesPlain_iff.symm, fun s q trace? g hdefault h => ?_⟩
  · cases hnever : Expr.contradictory conds with
    | true => exact .inl (if_pos hnever)
    | false => exact .inr (Expr.standsAlone_of_mem_simplifyAll hnever)
  · exact ⟨leavesPlain_of_plain hdefault h, plain_of_leavesPlain hdefault h⟩

theorem plain_exact_sample : ∃ g, (sample.build {} none).result = .ok g ∧ g.Plain := by
  obtain ⟨g, h⟩ := exists_build_sample
  have hexact := plain_exact (Expr.conjunctsOf sample.filter)
  exact ⟨g, h, (hexact.2.2 {} sample none g rfl h).2 (by decide)⟩

/-- `(t0.x and t1.x are equal) = TRUE`: the equality is an operand of a comparison. -/
def comparedEquality : Expr :=
  let x (i : Nat) : Expr := .column ⟨i, "t", "x", .int⟩
  (Expr.allEqual [x 0, x 1]).equals (.literal (.bool true))

/-- An equality that is an operand of a comparison is left. -/
theorem not_plain_comparedEquality :
    ¬ ∀ c ∈ Expr.simplifyAll [comparedEquality], c.plain = true := by decide

end QueryBlock

end QueryGraph
