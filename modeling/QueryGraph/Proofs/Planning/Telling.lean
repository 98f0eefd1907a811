import QueryGraph.Planning

/-!
# What a computation tells

A computation that gets the trace could read it and go another way. What is shown here is that those of
planning do not.

## The model

`Planning.Tells` says of a computation what it returns and what it adds to the trace, whatever the trace is and
even if there is none. One that follows on another gets the trace that the first has left, and one that fails
leaves the trace as it is at that time, so what two computations tell is put together from what each of them
does (`Tells.bind`, `Tells.stop`).

The passes that get the trace are those that make nodes and edges and those that look for lookups. Each round
of their recursions and loops writes or estimates, and neither depends on the trace.

## What is proved

* `Tells.bind`, `Tells.stop` — a computation and what follows on it.
* `observed_addTree`, `observed_ofTree` — making the nodes and edges.
* `observed_findLookups` — looking for lookups.
-/

namespace QueryGraph

open Traced

/-! ### Computations that may fail -/

namespace Planning

variable {α β : Type} {x : Planning α} {f : α → Planning β} {a : α} {r : Except PlanError α}
  {r' : Except PlanError β} {e : PlanError} {text text' : String}

/-- The result of a computation without a trace. -/
def result (x : Planning α) : Except PlanError α := x.run.value

/-- Whatever trace is handed in, and if none is, the computation has the result and adds the text at the end of
the trace. What it reports to the log does not depend on the trace either. -/
def Tells (x : Planning α) (r : Except PlanError α) (text : String) : Prop :=
  ∃ log, x.run.Tells r log text

theorem Tells.result_eq (h : Tells x r text) : result x = r := by
  obtain ⟨log, h⟩ := h
  exact h.value_eq

theorem tells_pure (a : α) : Tells (pure a) (.ok a) "" := ⟨[], Traced.tells_pure _⟩

theorem tells_throw (e : PlanError) : Tells (throw e : Planning α) (.error e) "" := ⟨[], Traced.tells_pure _⟩

theorem tells_write (s : String) : Tells (write s) (.ok ()) s := ⟨[], (Traced.tells_write s).map⟩

/-- A computation that does not get the trace leaves it alone. -/
theorem tells_lift (y : Reported α) : Tells (lift y) (.ok y.value) "" := ⟨y.log, (Traced.tells_lift y).map⟩

theorem tells_event (e : Event) : Tells (event e) (.ok ()) "" := tells_lift _

/-- A computation that gets the trace and does not depend on it. -/
theorem tells_of_observed {y : Traced α} (h : y.Observed) : Tells (ExceptT.lift y) (.ok y.value) y.trace :=
  ⟨y.log, Traced.Tells.map h⟩

/-- What follows gets the trace that has been left. -/
theorem Tells.bind (hx : Tells x (.ok a) text) (hf : Tells (f a) r' text') :
    Tells (x >>= f) r' (text ++ text') := by
  obtain ⟨log, hx⟩ := hx
  obtain ⟨log', hf⟩ := hf
  exact ⟨log ++ log', Traced.Tells.bind (f := ExceptT.bindCont f) hx hf⟩

/-- Nothing follows on a failure. -/
theorem Tells.stop (hx : Tells x (.error e) text) : Tells (x >>= f) (.error e) text := by
  obtain ⟨log, hx⟩ := hx
  have hbind := Traced.Tells.bind (f := ExceptT.bindCont f) hx (Traced.tells_pure _)
  rw [List.append_nil, String.append_empty] at hbind
  exact ⟨log, hbind⟩

/-- What follows on a computation that leaves the trace alone tells everything. -/
theorem Tells.silent_bind (hx : Tells x (.ok a) "") (hf : Tells (f a) r' text) : Tells (x >>= f) r' text := by
  have hbind := hx.bind hf
  rwa [String.empty_append] at hbind

/-- If what follows leaves the trace alone, the first computation tells everything. -/
theorem Tells.bind_silent (hx : Tells x (.ok a) text) (hf : Tells (f a) r' "") : Tells (x >>= f) r' text := by
  have hbind := hx.bind hf
  rwa [String.append_empty] at hbind

end Planning

/-! ### Making nodes and edges -/

namespace Assembly

theorem observed_estimateJoin (est : Estimator) (label : String) (conds : List Expr) :
    (estimateJoin est label conds).Observed := by
  have htotal : (conds.foldlM (fun s c => do return s * (← est.run c)) .one : Traced Double).Observed :=
    observed_foldlM (fun _ c => (est.observed c).bind fun _ => observed_pure _) conds _
  refine (observed_write _).bind fun _ => htotal.bind fun s => ?_
  dsimp only
  split
  · exact (observed_write _).bind fun _ => observed_pure s
  · exact observed_pure s

theorem observed_addTree (est : Estimator) (t : Tree) (a : Assembly) : (addTree est t a).Observed := by
  induction t generalizing a with
  | leaf i l => exact observed_pure _
  | join i info l r ihl ihr =>
    refine (ihl a).bind fun left => (ihr left.2).bind fun right => ?_
    refine (observed_lift _).bind fun detected => ?_
    exact (observed_estimateJoin est _ _).bind fun _ => observed_pure _

end Assembly

namespace JoinGraph

theorem observed_ofTree (est : Estimator) (t : Tree) : (ofTree est t).Observed :=
  (Assembly.observed_addTree est t {}).map

/-! ### Looking for lookups -/

theorem observed_addLookupOn (g : JoinGraph) (cond : Expr) (node? : Option Nat) (place : Nat)
    (side other : Expr) : (g.addLookupOn cond node? place side other).Observed := by
  unfold addLookupOn
  split
  next => exact observed_pure g
  next field _ =>
    split
    next => exact observed_pure g
    next v _ =>
      split
      next => exact observed_pure g
      next node _ =>
        split
        · exact observed_pure g
        · exact (observed_lift _).bind fun _ => (observed_write _).bind fun _ => observed_pure _

theorem observed_addLookups (g : JoinGraph) (cond : Expr) (node? : Option Nat) (place : Nat) :
    (g.addLookups cond node? place).Observed := by
  unfold addLookups
  split
  next l r =>
    exact (g.observed_addLookupOn _ node? place l r).bind fun g => g.observed_addLookupOn _ node? place r l
  next => exact observed_pure g

theorem observed_addFilterLookups (g : JoinGraph) (place : Nat) : (g.addFilterLookups place).Observed := by
  unfold addFilterLookups
  split
  next p _ =>
    split
    · exact g.observed_addLookups p.cond none place
    · exact observed_pure g
  next => exact observed_pure g

theorem observed_placeLookup (est : Estimator) (limit : Nat) (g : JoinGraph) (cond : Expr) :
    (placeLookup est limit g cond).Observed := by
  unfold placeLookup
  split
  next => exact observed_pure _
  next =>
    dsimp only
    split
    · exact (observed_lift _).bind fun _ => observed_pure _
    · exact (est.observed cond).bind fun _ => observed_pure _

theorem observed_addJoinLookups (est : Estimator) (limit : Nat) (g : JoinGraph) (v : Nat) (cond : Expr) :
    (addJoinLookups est limit g v cond).Observed := by
  refine (observed_placeLookup est limit g cond).bind fun placed => ?_
  obtain ⟨g, place?⟩ := placed
  cases place? with
  | none => exact observed_pure g
  | some place => exact g.observed_addLookups cond (some v) place

/-- The whole search is observed, round by round. -/
theorem observed_findLookups (est : Estimator) (limit : Nat) (g : JoinGraph) :
    (g.findLookups est limit).Observed :=
  (observed_foldlM observed_addFilterLookups _ g).bind fun _ =>
    observed_foldlM (fun g (x : Nat × Expr) => observed_addJoinLookups est limit g x.1 x.2) _ _

end JoinGraph

end QueryGraph
