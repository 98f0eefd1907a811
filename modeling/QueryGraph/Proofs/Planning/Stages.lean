import Mathlib.Data.List.Forall2
import QueryGraph.Planning
import QueryGraph.Proofs.Passes.Tables
import QueryGraph.Proofs.Planning.Lookups
import QueryGraph.Proofs.Planning.Telling

/-!
# The stages of planning

What has happened when the join graph of a query block has been made.

## The model

Planning is handed a trace, if there is one, and may fail. What a stage returns and what it adds to the trace
are told together (`Planning.Tells`), since a failure ends both. The conditions that become filters are known
before the first of them does, each with the nodes that it waits for: `filterSources`. The first one without
a final form ends the work, and after that their number may.

If there is a graph, then every stage has succeeded, and the graph comes from the tree of the block in the
steps that `Planned` tells.

## What is proved

* `tells_placeConditions`, `tells_addFilters`, `tells_complete` — what the stages return and tell.
* `tells_plan` — what all of planning returns and tells.
* `result_build`, `build_eq_ok_iff` — what a request returns, and when there is a graph.
* `filtersMade_of_mapM` — one predicate for every condition that is left, then one for every filter of a
  table, in their order and in their final form.
* `planned_of_build` — all stages together.
-/

namespace QueryGraph

open Relation

theorem Except.ok_bind {ε α β : Type} (a : α) (f : α → Except ε β) :
    (.ok a : Except ε α) >>= f = f a := rfl

theorem Except.exists_of_isOk {ε α : Type} {x : Except ε α} (h : x.isOk = true) : ∃ a, x = .ok a := by
  cases x with
  | error e => cases h
  | ok a => exact ⟨a, rfl⟩

open Planning

/-! ### Placing conditions -/

theorem Tree.value_finish (fin : Finisher) (t : Tree) : (t.finish fin).value = t.finishConds fin := by
  unfold finish
  dsimp only
  split <;> rfl

namespace QueryBlock

/-- The tree of the block with the conditions of its joins pushed down. -/
def joined (q : QueryBlock) : Tree := (Tree.ofList q.source).simplifyConds.value.pushDownJoins.value

/-- The tree with the conditions of WHERE pushed down as well, and those that are left. -/
def pushed (q : QueryBlock) : Tree × List Expr :=
  (q.joined.pushDownAll false (Expr.simplifyAll (Expr.conjunctsOf q.filter))).value

/-- The tree with all its conditions in their final form, and the conditions that are left. -/
def placed (fin : Finisher) (q : QueryBlock) : Placed :=
  ⟨(q.pushed.1.finishConds fin).tree.recordUsedTables.divideKeys, q.pushed.2⟩

/-- The tree has every condition in its place, if all of them have a final form. While they get there, nothing
is written. -/
theorem tells_placeConditions (s : Settings) (q : QueryBlock) : Tells (q.placeConditions s)
    (match (q.pushed.1.finishConds s.finisher).error? with
      | some e => .error (.unfinished e)
      | none => .ok (q.placed s.finisher)) "" := by
  have hunless {c : Prop} [Decidable c] {e : Event} {x : Planning Placed} {r : Except PlanError Placed}
      (hx : Tells x r "") : Tells (if c then event e >>= fun _ => x else x) r "" := by
    split
    · exact (tells_event e).silent_bind hx
    · exact hx
  refine (tells_lift _).silent_bind ((tells_lift _).silent_bind (hunless ?_))
  refine (tells_lift _).silent_bind ((tells_lift _).silent_bind ?_)
  change Tells (match (q.pushed.1.finish s.finisher).value.error? with
    | some e => throw (.unfinished e)
    | none =>
      let tree := (q.pushed.1.finish s.finisher).value.tree.recordUsedTables.divideKeys
      pure (Placed.mk tree q.pushed.2)) _ _
  rw [Tree.value_finish]
  cases (q.pushed.1.finishConds s.finisher).error? with
  | some e => exact tells_throw _
  | none => exact tells_pure _

theorem placeConditions_eq_ok {s : Settings} {q : QueryBlock} {p : Placed} :
    result (q.placeConditions s) = .ok p ↔
      (q.pushed.1.finishConds s.finisher).error? = none ∧ p = q.placed s.finisher := by
  rw [(q.tells_placeConditions s).result_eq]
  cases (q.pushed.1.finishConds s.finisher).error? <;> simp [eq_comm]

end QueryBlock

/-! ### Filters -/

/-- The predicate for a condition that waits for the given nodes, if the condition has a final form. -/
def Settings.predicate (s : Settings) (source : Expr × NodeSet) : Except FinishError Predicate :=
  (s.finisher.apply source.1).map fun c => ⟨c, source.2, s.estimator.estimate c⟩

/-- What the trace says of a condition that becomes a predicate. -/
def Settings.note (s : Settings) (c : Expr) : String :=
  match s.finisher.apply c with
  | .error _ => ""
  | .ok d => s.estimator.note d

/-- What the trace says of conditions that become predicates, each with a text that comes first, up to the first
one without a final form. -/
def Settings.notes (s : Settings) : List (String × Expr × NodeSet) → String
  | [] => ""
  | (text, source) :: rest => text ++ s.note source.1 ++ match s.predicate source with
    | .error _ => ""
    | .ok _ => s.notes rest

/-- Notes on more conditions follow if all conditions before have final forms. -/
theorem Settings.notes_append (s : Settings) (xs ys : List (String × Expr × NodeSet)) :
    s.notes (xs ++ ys) = s.notes xs ++ match (xs.map Prod.snd).mapM s.predicate with
      | .error _ => ""
      | .ok _ => s.notes ys := by
  induction xs with
  | nil => exact String.empty_append.symm
  | cons x xs ih =>
    rw [List.cons_append, notes, notes, ih, List.map_cons, List.mapM_cons]
    cases s.predicate x.2 with
    | error e => exact String.append_empty.symm
    | ok p =>
      simp only [String.append_assoc, Except.ok_bind]
      cases (xs.map Prod.snd).mapM s.predicate <;> rfl

/-- The predicate is the final form of a condition and waits for the given nodes. -/
structure Predicate.Made (fin : Finisher) (c : Expr) (nodes : NodeSet) (p : Predicate) : Prop where
  /-- Its condition is the final form. -/
  finished : fin.apply c = .ok p.cond
  /-- It waits for the nodes. -/
  eligibility_eq : p.eligibility = nodes

/-- The filters of all tables with the tables, from left to right. -/
def Tree.filtersByLeaf (t : Tree) : List (Leaf × Expr) :=
  t.leaves.flatMap fun x => x.2.filters.map (x.2, ·)

namespace JoinGraph

variable {s : Settings} {g : JoinGraph}

/-- The graph with other predicates. -/
def withPredicates (g : JoinGraph) (ps : List Predicate) : JoinGraph := { g with predicates := ps }

/-- The conditions that become filters, with the nodes that they wait for: first those left for WHERE, then
the filters of the tables. -/
def filterSources (g : JoinGraph) (remaining : List Expr) : List (Expr × NodeSet) :=
  (remaining.map fun c => (c, g.nodeSet (g.tree.eligibility c.tables))) ++
    g.tree.filtersByLeaf.map fun x => (x.2, g.nodeSet x.2.tables ∪ x.1.nodes)

/-- A condition left for WHERE, with what is written before it gets its final form. -/
def remainingNote (g : JoinGraph) (c : Expr) : String × Expr × NodeSet :=
  let nodes := g.nodeSet (g.tree.eligibility c.tables)
  ("Total eligibility set for " ++ c.text ++ ": \x7b" ++ g.names nodes ++ "\x7d\n", c, nodes)

/-- A filter of a table. Nothing is written before it gets its final form. -/
def filterNote (g : JoinGraph) (x : Leaf × Expr) : String × Expr × NodeSet :=
  ("", x.2, g.nodeSet x.2.tables ∪ x.1.nodes)

/-- The conditions that become filters, with what is written before each. -/
def filterNotes (g : JoinGraph) (remaining : List Expr) : List (String × Expr × NodeSet) :=
  remaining.map g.remainingNote ++ g.tree.filtersByLeaf.map g.filterNote

theorem snd_filterNotes (remaining : List Expr) :
    (g.filterNotes remaining).map Prod.snd = g.filterSources remaining := by
  rw [filterNotes, filterSources, List.map_append, List.map_map, List.map_map]
  rfl

theorem tells_addFilter (c : Expr) (nodes : NodeSet) : Tells (g.addFilter s c nodes)
    (match s.predicate (c, nodes) with
      | .error e => .error (.unfinished e)
      | .ok p => .ok (g.withPredicates (g.predicates ++ [p]))) (s.note c) := by
  rw [addFilter, Settings.predicate, Settings.note]
  cases s.finisher.apply c with
  | error e => exact tells_throw _
  | ok d =>
    exact (tells_of_observed (s.estimator.observed d)).bind_silent (tells_pure _)

/-- A loop that adds a filter in every round makes the predicates one after the other. -/
theorem tells_foldlM_addFilter {α : Type} {round : JoinGraph → α → Planning JoinGraph}
    (note : α → String × Expr × NodeSet) (hround : ∀ ps x r text,
      Tells ((g.withPredicates ps).addFilter s (note x).2.1 (note x).2.2) r text →
      Tells (round (g.withPredicates ps) x) r ((note x).1 ++ text))
    (xs : List α) (ps : List Predicate) : Tells (xs.foldlM round (g.withPredicates ps))
      (match ((xs.map note).map Prod.snd).mapM s.predicate with
        | .error e => .error (.unfinished e)
        | .ok qs => .ok (g.withPredicates (ps ++ qs))) (s.notes (xs.map note)) := by
  induction xs generalizing ps with
  | nil =>
    rw [List.map_nil, List.map_nil, List.mapM_nil]
    change Tells _ (.ok (g.withPredicates (ps ++ []))) ""
    rw [List.append_nil]
    exact tells_pure _
  | cons x xs ih =>
    have hx := hround ps x _ _ (tells_addFilter _ _)
    rw [List.foldlM_cons, List.map_cons, List.map_cons, List.mapM_cons, Settings.notes]
    rw [show (note x).2 = ((note x).2.1, (note x).2.2) from rfl]
    cases hpredicate : s.predicate ((note x).2.1, (note x).2.2) with
    | error e =>
      rw [hpredicate] at hx
      rw [String.append_empty]
      exact hx.stop
    | ok p =>
      rw [hpredicate] at hx
      have hnext := ih (ps ++ [p])
      refine hx.bind ?_
      cases hrest : ((xs.map note).map Prod.snd).mapM s.predicate with
      | error e =>
        rw [hrest] at hnext
        exact hnext
      | ok qs =>
        rw [hrest] at hnext
        dsimp only at hnext
        rw [List.append_assoc] at hnext
        exact hnext

/-- All filters have been added, if each of them has a final form and there is room for them. What is written
are the notes on them. -/
theorem tells_addFilters (hnone : g.predicates = []) (remaining : List Expr) :
    Tells (g.addFilters s remaining)
      (match (g.filterSources remaining).mapM s.predicate with
        | .error e => .error (.unfinished e)
        | .ok ps =>
          if s.predicateLimit < ps.length then
            .error (.tooManyPredicates ps.length s.predicateLimit)
          else .ok (g.withPredicates ps).countFilters) (s.notes (g.filterNotes remaining)) := by
  have hleft : Tells (remaining.foldlM (addRemaining s) g) _ _ :=
    hnone ▸ tells_foldlM_addFilter g.remainingNote (fun _ _ _ _ h => (tells_write _).bind h) remaining []
  have hfilters (ps : List Predicate) :
      Tells (g.tree.filtersByLeaf.foldlM (fun g x => g.addTableFilter s x.1 x.2) (g.withPredicates ps)) _ _ :=
    tells_foldlM_addFilter g.filterNote (fun _ _ _ _ h => (String.empty_append).symm ▸ h) _ ps
  rw [← snd_filterNotes, filterNotes, List.map_append, List.mapM_append, Settings.notes_append]
  cases hmapM : ((remaining.map g.remainingNote).map Prod.snd).mapM s.predicate with
  | error e =>
    rw [hmapM] at hleft
    rw [String.append_empty]
    exact hleft.stop
  | ok left =>
    rw [hmapM] at hleft
    refine hleft.bind ?_
    have hfilters := hfilters left
    rw [hnone]
    dsimp only [Except.ok_bind]
    cases hmapM' : ((g.tree.filtersByLeaf.map g.filterNote).map Prod.snd).mapM s.predicate with
    | error e =>
      rw [hmapM'] at hfilters
      exact hfilters.stop
    | ok filters =>
      rw [hmapM'] at hfilters
      refine hfilters.bind_silent ?_
      change Tells (if s.predicateLimit < (left ++ filters).length then _ else _)
        (if s.predicateLimit < (left ++ filters).length then _ else _) _
      split
      · exact (tells_throw _).stop
      · exact tells_pure _

/-- The predicates `left` are those of the conditions left for WHERE, and `filters` those of the filters
of the tables. -/
structure FiltersMade (fin : Finisher) (g : JoinGraph) (remaining : List Expr)
    (left filters : List Predicate) : Prop where
  /-- A condition that is left waits for the nodes of its eligibility set. -/
  left_made : List.Forall₂ (fun c p => p.Made fin c (g.nodeSet (g.tree.eligibility c.tables)))
    remaining left
  /-- A filter of a table waits for the node of the table. -/
  filters_made : List.Forall₂ (fun x p => p.Made fin x.2 (g.nodeSet x.2.tables ∪ x.1.nodes))
    g.tree.filtersByLeaf filters

/-- Predicates are made of their conditions. -/
theorem made_of_mapM {α : Type} {source : α → Expr × NodeSet} {xs : List α} {ps : List Predicate}
    (h : (xs.map source).mapM s.predicate = .ok ps) :
    List.Forall₂ (fun x p => p.Made s.finisher (source x).1 (source x).2) xs ps := by
  refine (List.forall₂_map_left_iff.1 (mapM_eq_ok_iff.1 h)).imp fun x p hp => ?_
  obtain ⟨c, hc, rfl⟩ := Except.map_eq_ok.1 hp
  exact ⟨hc, rfl⟩

/-- The predicates for filters are those of the conditions left for WHERE and those of the filters of the
tables. -/
theorem filtersMade_of_mapM {remaining : List Expr} {ps : List Predicate}
    (h : (g.filterSources remaining).mapM s.predicate = .ok ps) :
    ∃ left filters, ps = left ++ filters ∧ g.FiltersMade s.finisher remaining left filters := by
  rw [filterSources, List.mapM_append] at h
  obtain ⟨left, hleft, h⟩ := Except.bind_eq_ok.1 h
  obtain ⟨filters, hfilters, h⟩ := Except.bind_eq_ok.1 h
  cases h
  exact ⟨left, filters, rfl, made_of_mapM hleft, made_of_mapM hfilters⟩

end JoinGraph

/-! ### All stages -/

/-- New nodes have no lookups. -/
theorem lookups_addTree (est : Estimator) (t : Tree) {a : Assembly} (h : ∀ n ∈ a.nodes, n.lookups = []) :
    ∀ n ∈ (Assembly.addTree est t a).value.2.nodes, n.lookups = [] := by
  induction t generalizing a with
  | leaf i l => exact List.forall_mem_append.2 ⟨h, List.forall_mem_singleton.2 rfl⟩
  | join i info l r ihl ihr =>
    rw [Assembly.value_addTree_join]
    exact ihr (ihl h)

/-- The graph after the search for lookups, if there is one. -/
def JoinGraph.searched (s : Settings) (g : JoinGraph) : JoinGraph :=
  if s.findLookups then (g.findLookups s.estimator s.predicateLimit).value else g

namespace QueryBlock

/-- The graph of the block before it gets any predicates. -/
def unfiltered (s : Settings) (q : QueryBlock) : JoinGraph :=
  (JoinGraph.ofTree s.estimator (q.placed s.finisher).tree).value

/-- What the trace says of the block until the graph has its nodes and edges. -/
def graphText (s : Settings) (q : QueryBlock) : String :=
  q.openingText ++ (q.placed s.finisher).text ++
    (JoinGraph.ofTree s.estimator (q.placed s.finisher).tree).trace ++ (q.unfiltered s).text s

/-- What the trace says of the filters. -/
def filtersText (s : Settings) (q : QueryBlock) : String :=
  s.notes ((q.unfiltered s).filterNotes q.pushed.2)

/-- What the trace says of the search for lookups, and of all predicates after it. -/
def lookupsText (s : Settings) (g : JoinGraph) : String :=
  (if s.findLookups then (g.findLookups s.estimator s.predicateLimit).trace else "") ++
    (g.searched s).predicateTable s.renderers

/-- What planning returns, and what it adds to the trace up to its end or its failure. -/
def account (s : Settings) (q : QueryBlock) : Except PlanError JoinGraph × String :=
  if s.tableLimit < q.tableCount then (.error (.tooManyTables q.tableCount s.tableLimit), "")
  else match (q.pushed.1.finishConds s.finisher).error? with
    | some e => (.error (.unfinished e), q.openingText)
    | none =>
      match ((q.unfiltered s).filterSources q.pushed.2).mapM s.predicate with
      | .error e => (.error (.unfinished e), q.graphText s ++ q.filtersText s)
      | .ok ps =>
        if s.predicateLimit < ps.length then
          (.error (.tooManyPredicates ps.length s.predicateLimit), q.graphText s ++ q.filtersText s)
        else
          let base := ((q.unfiltered s).withPredicates ps).countFilters
          (.ok (base.searched s), q.graphText s ++ q.filtersText s ++ lookupsText s base)

/-- The search for lookups, if there is one, and the end of the work. -/
theorem tells_complete (s : Settings) (g : JoinGraph) :
    Tells (g.complete s) (.ok (g.searched s)) (lookupsText s g) := by
  have hend (g : JoinGraph) : Tells (Planning.write (g.predicateTable s.renderers) >>= fun _ =>
      Planning.event (.predicates g.predicates.length g.numFilters) >>= fun _ => pure g) (.ok g) _ :=
    (tells_write _).bind_silent ((tells_event _).silent_bind (tells_pure g))
  rw [JoinGraph.complete, lookupsText, JoinGraph.searched]
  split
  · exact (tells_of_observed (JoinGraph.observed_findLookups _ _ g)).bind (hend _)
  · exact (tells_pure g).bind (hend g)

/-- If the tables have small numbers and the tree has its conditions in their places, then the trace tells of
the graph, and the filters come next. -/
theorem tells_plan_of_placed {s : Settings} {q : QueryBlock} {r : Except PlanError JoinGraph} {text : String}
    (hcount : ¬ s.tableLimit < q.tableCount) (herror : (q.pushed.1.finishConds s.finisher).error? = none)
    (h : Tells ((q.unfiltered s).addFilters s q.pushed.2 >>= fun g => g.complete s) r text) :
    Tells (q.plan s) r (q.graphText s ++ text) := by
  have hplaced := q.tells_placeConditions s
  rw [herror] at hplaced
  rw [plan, if_neg hcount, graphText]
  simp only [String.append_assoc]
  refine (tells_write _).bind (hplaced.silent_bind ((tells_event _).silent_bind ((tells_write _).bind ?_)))
  refine (tells_of_observed (JoinGraph.observed_ofTree s.estimator _)).bind ?_
  exact (tells_event _).silent_bind ((tells_write _).bind h)

/-- **All of planning**, with every trace and without one. -/
theorem tells_plan (s : Settings) (q : QueryBlock) : Tells (q.plan s) (q.account s).1 (q.account s).2 := by
  rw [account]
  by_cases hcount : s.tableLimit < q.tableCount
  · rw [plan, if_pos hcount, if_pos hcount]
    exact (tells_throw _).stop
  rw [if_neg hcount]
  cases herror : (q.pushed.1.finishConds s.finisher).error? with
  | some e =>
    have hplaced := q.tells_placeConditions s
    rw [herror] at hplaced
    rw [plan, if_neg hcount]
    exact (tells_write _).bind_silent hplaced.stop
  | none =>
    have hfilters := JoinGraph.tells_addFilters (s := s) (g := q.unfiltered s) rfl q.pushed.2
    cases hmapM : ((q.unfiltered s).filterSources q.pushed.2).mapM s.predicate with
    | error e =>
      rw [hmapM] at hfilters
      exact tells_plan_of_placed hcount herror hfilters.stop
    | ok ps =>
      rw [hmapM] at hfilters
      by_cases hroom : s.predicateLimit < ps.length
      · simp only [if_pos hroom] at hfilters ⊢
        exact tells_plan_of_placed hcount herror hfilters.stop
      · simp only [if_neg hroom] at hfilters ⊢
        rw [String.append_assoc]
        exact tells_plan_of_placed hcount herror (hfilters.bind (tells_complete s _))

/-- What a request returns, whatever trace is handed in. -/
theorem result_build (s : Settings) (q : QueryBlock) (trace? : Option String) :
    (q.build s trace?).result =
      if s.tableLimit < q.tableCount then .error (.tooManyTables q.tableCount s.tableLimit)
      else match (q.pushed.1.finishConds s.finisher).error? with
        | some e => .error (.unfinished e)
        | none =>
          match ((q.unfiltered s).filterSources q.pushed.2).mapM s.predicate with
          | .error e => .error (.unfinished e)
          | .ok ps =>
            if s.predicateLimit < ps.length then
              .error (.tooManyPredicates ps.length s.predicateLimit)
            else .ok (((q.unfiltered s).withPredicates ps).countFilters.searched s) := by
  obtain ⟨log, htells⟩ := q.tells_plan s
  rw [build, htells, account]
  split
  · rfl
  · cases (q.pushed.1.finishConds s.finisher).error? with
    | some e => rfl
    | none =>
      cases ((q.unfiltered s).filterSources q.pushed.2).mapM s.predicate with
      | error e => rfl
      | ok ps => exact apply_ite Prod.fst ..

/-- There is a graph if the tables have small numbers, all conditions have final forms, and there is room for
the filters. -/
theorem build_eq_ok_iff {s : Settings} {q : QueryBlock} {trace? : Option String} {g : JoinGraph} :
    (q.build s trace?).result = .ok g ↔ q.tableCount ≤ s.tableLimit ∧
      (q.pushed.1.finishConds s.finisher).error? = none ∧
      ∃ ps, ((q.unfiltered s).filterSources q.pushed.2).mapM s.predicate = .ok ps ∧
        ps.length ≤ s.predicateLimit ∧ g = ((q.unfiltered s).withPredicates ps).countFilters.searched s := by
  rw [result_build]
  by_cases hcount : s.tableLimit < q.tableCount
  · simp [hcount]
  rw [if_neg hcount]
  cases (q.pushed.1.finishConds s.finisher).error? with
  | some e => simp
  | none =>
    cases ((q.unfiltered s).filterSources q.pushed.2).mapM s.predicate with
    | error e => simp
    | ok ps =>
      by_cases hroom : s.predicateLimit < ps.length
      · simp [hroom]
      · simp [hroom, Nat.le_of_not_lt hcount, Nat.le_of_not_lt hroom, eq_comm]

/-- The graph comes from the tree of the block in the stages of planning. Its predicates are those of the
conditions left for WHERE, those of the filters of the tables, and `more` for index lookups. -/
structure Planned (s : Settings) (q : QueryBlock) (left filters more : List Predicate)
    (g : JoinGraph) : Prop where
  /-- The tables have small numbers. -/
  tableCount_le : q.tableCount ≤ s.tableLimit
  /-- The conditions have got their places. -/
  placed_eq : result (q.placeConditions s) = .ok (q.placed s.finisher)
  /-- What is left of WHERE and the filters of the tables have become predicates. -/
  filtersMade : (q.unfiltered s).FiltersMade s.finisher q.pushed.2 left filters
  /-- There is room for them. -/
  length_le : (left ++ filters).length ≤ s.predicateLimit
  /-- Index lookups have been added. -/
  lookupsAdded : JoinGraph.LookupsAdded s.predicateLimit
    ((q.unfiltered s).withPredicates (left ++ filters)).countFilters more g

/-- Before the search no node has a lookup. -/
theorem lookups_filtered (s : Settings) (q : QueryBlock) (ps : List Predicate) :
    ∀ n ∈ ((q.unfiltered s).withPredicates ps).countFilters.nodes, n.lookups = [] :=
  lookups_addTree s.estimator _ fun _ hn => absurd hn List.not_mem_nil

/-- What the search for lookups does to the graph with its filters. -/
theorem lookupsAdded_searched (s : Settings) (q : QueryBlock) (ps : List Predicate) :
    ∃ more, JoinGraph.LookupsAdded s.predicateLimit ((q.unfiltered s).withPredicates ps).countFilters more
      (((q.unfiltered s).withPredicates ps).countFilters.searched s) := by
  let base := ((q.unfiltered s).withPredicates ps).countFilters
  have hsteps : ReflTransGen (JoinGraph.LookupStep s.predicateLimit) base (base.searched s) := by
    rw [JoinGraph.searched]
    split
    · exact JoinGraph.steps_findLookups s.estimator s.predicateLimit base
    · exact .refl
  exact JoinGraph.lookupsAdded rfl (q.lookups_filtered s ps) hsteps

/-- If there is a graph, every stage of planning has succeeded. -/
theorem planned_of_build {s : Settings} {q : QueryBlock} {trace? : Option String} {g : JoinGraph}
    (h : (q.build s trace?).result = .ok g) : ∃ left filters more, q.Planned s left filters more g := by
  obtain ⟨hcount, herror, ps, hps, hroom, rfl⟩ := build_eq_ok_iff.1 h
  obtain ⟨left, filters, rfl, hmade⟩ := JoinGraph.filtersMade_of_mapM hps
  obtain ⟨more, hmore⟩ := q.lookupsAdded_searched s (left ++ filters)
  exact ⟨left, filters, more, hcount, placeConditions_eq_ok.2 ⟨herror, rfl⟩, hmade, hroom, hmore⟩

end QueryBlock

end QueryGraph
