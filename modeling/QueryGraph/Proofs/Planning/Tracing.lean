import QueryGraph.Proofs.Planning.Stages

/-!
# What the trace says

A trace that is handed in is only added to, and asking for it changes nothing else.

## The model

The trace goes through all of planning as a text that each step may read and change, and a step may find
that there is none. So two requests for the same block, one with a trace and one without, are two runs that
could part at every step. That they do not is what the steps tell (`Planning.Tells`), and from them what all
of planning tells (`tells_plan`).

What comes from outside is part of the settings. An estimator gets the trace as well and brings the proof that
its estimates do not depend on it (`Estimator.observed`), as the default one does. Renderers do not get the
trace, and whatever they make of a table or a graph is added where the account has it.

## What is proved

* `told_account` — what is added, stage by stage: nothing if a table number is too large, the opening alone if
  a condition of the tree has no final form, and the filters up to the one without a final form.
* `build_observed` — a request with a trace and one without.
-/

namespace QueryGraph

namespace QueryBlock

/-- What a request tells, by its result. -/
structure Told (s : Settings) (q : QueryBlock) (result : Except PlanError JoinGraph) (text : String) :
    Prop where
  /-- Nothing is told if a table number is too large. -/
  refused : ∀ found limit, result = .error (.tooManyTables found limit) → text = ""
  /-- Otherwise the opening comes first. It is all if a condition of the tree has no final form. -/
  unplaced : q.tableCount ≤ s.tableLimit → (q.pushed.1.finishConds s.finisher).error?.isSome →
    text = q.openingText
  /-- If all of them have one and there is no graph in the end, then the filters come last. -/
  unfinished : q.tableCount ≤ s.tableLimit → (q.pushed.1.finishConds s.finisher).error? = none →
    ∀ e, result = .error e → text = q.graphText s ++ q.filtersText s
  /-- If there is a graph, everything is told. -/
  finished : ∀ g, result = .ok g → ∃ base : JoinGraph, g = base.searched s ∧
    text = q.graphText s ++ q.filtersText s ++ lookupsText s base

/-- The account is what a request tells. -/
theorem told_account (s : Settings) (q : QueryBlock) : q.Told s (q.account s).1 (q.account s).2 := by
  rw [account]
  by_cases hcount : s.tableLimit < q.tableCount
  · rw [if_pos hcount]
    have hnot : ¬ q.tableCount ≤ s.tableLimit := Nat.not_le.2 hcount
    constructor
    case refused => exact fun _ _ _ => rfl
    case unplaced => exact fun h => absurd h hnot
    case unfinished => exact fun h => absurd h hnot
    case finished => rintro g ⟨⟩
  rw [if_neg hcount]
  cases herror : (q.pushed.1.finishConds s.finisher).error? with
  | some e =>
    constructor
    case refused => rintro found limit ⟨⟩
    case unplaced => exact fun _ _ => rfl
    case unfinished => exact fun _ h => absurd (herror.symm.trans h) (Option.some_ne_none e)
    case finished => rintro g ⟨⟩
  | none =>
    have hplaced {P : Prop} (h : (q.pushed.1.finishConds s.finisher).error?.isSome) : P := by
      rw [herror] at h
      cases h
    have hfailed {e : PlanError} (he : ∀ found limit, e ≠ .tooManyTables found limit) :
        q.Told s (.error e) (q.graphText s ++ q.filtersText s) := by
      constructor
      case refused => exact fun found limit h => absurd (Except.error.inj h) (he found limit)
      case unplaced => exact fun _ => hplaced
      case unfinished => exact fun _ _ _ _ => rfl
      case finished => rintro g ⟨⟩
    cases ((q.unfiltered s).filterSources q.pushed.2).mapM s.predicate with
    | error e => exact hfailed (by rintro found limit ⟨⟩)
    | ok ps =>
      dsimp only
      split
      · exact hfailed (by rintro found limit ⟨⟩)
      · constructor
        case refused => rintro found limit ⟨⟩
        case unplaced => exact fun _ => hplaced
        case unfinished => rintro _ _ e ⟨⟩
        case finished =>
          rintro g ⟨⟩
          exact ⟨_, rfl, rfl⟩

/-- **Asking for a trace changes nothing else.** A block has the same result and the same log with a trace
and without one. The trace afterwards is the one that was handed in with the account of this request at its
end, and the account does not depend on what was handed in. -/
theorem build_observed (s : Settings) (q : QueryBlock) : ∃ text, q.Told s (q.build s none).result text ∧
    (q.build s none).trace? = none ∧ ∀ trace,
      q.build s (some trace) = ⟨(q.build s none).result, some (trace ++ text), (q.build s none).log⟩ := by
  obtain ⟨log, htells⟩ := q.tells_plan s
  have hbuild (trace? : Option String) :
      q.build s trace? = ⟨(q.account s).1, trace?.map (· ++ (q.account s).2), log⟩ := by
    rw [build, htells]
  refine ⟨(q.account s).2, ?_, ?_, fun trace => ?_⟩
  · rw [hbuild]
    exact q.told_account s
  · rw [hbuild]
    rfl
  · rw [hbuild, hbuild]
    rfl

end QueryBlock

end QueryGraph
