import QueryGraph.Conflict.Rule
import QueryGraph.Expr.Printer

/-!
# Reports

What the library tells about its work beside the results: lines of a log, and a trace in prose.

## The model

`Reported α` is a value with the log of how it was reached. The log is only ever added to, so the
value of a computation is the value of its steps: the lemmas about `value` let a proof forget the
log.

A trace is a text that is handed in by whoever wants one. A `Traced α` gets this text, or nothing,
and gives back what has become of it. It may read the text and change it, and it may do one thing
with a trace and another without. A computation that does neither is `Observed`: whatever is handed
in, it does the same and adds the same at the end of the text.
-/

namespace QueryGraph

/-- How much a line of the log matters. -/
inductive Level where
  /-- A summary of a stage. -/
  | debug
  /-- A single step. -/
  | trace
  deriving DecidableEq

/-- The name of the level. -/
def Level.name : Level → String
  | debug => "DEBUG"
  | trace => "TRACE"

/-- Something that is worth a line of the log. Joins are given by their labels. -/
inductive Event where
  /-- A list of conditions contains one that never holds. -/
  | contradiction
  /-- A weaker condition is pushed into one side of a join. -/
  | partialPushdown (cond part : Expr)
  /-- A filter becomes a condition of a join. -/
  | promotion (cond : Expr) (join : String)
  /-- All join conditions below a node have their final form. -/
  | finished (node : String)
  /-- A join gets a conflict rule. -/
  | conflict (join : String) (rule : ConflictRule)
  /-- A condition can be an index lookup on a table. -/
  | lookup (cond : Expr) (table : String)
  /-- There is no room for a predicate. -/
  | tooManyPredicates (cond : Expr)
  /-- All conditions are in their places, with some left for WHERE. -/
  | pushedDown (remaining : Nat)
  /-- The graph has all its nodes and edges. -/
  | graph (nodes edges : Nat)
  /-- The graph has all its predicates, the given number of them from WHERE and table filters. -/
  | predicates (number ofFilters : Nat)

namespace Event

/-- The level of the event. -/
def level : Event → Level
  | finished _ => .debug
  | pushedDown _ => .debug
  | graph _ _ => .debug
  | predicates _ _ => .debug
  | _ => .trace

/-- The event in words. -/
def text : Event → String
  | contradiction => "Contradiction found, condition list collapses to FALSE"
  | partialPushdown c p => "Partial pushdown of " ++ c.text ++ " as " ++ p.text
  | promotion c join => "Promoting " ++ c.text ++ " to join condition of " ++ join
  | finished node => "Canonicalized join conditions below " ++ node
  | conflict join rule => "Conflict rule on " ++ join ++ ": " ++ rule.text
  | lookup c table => "Sargable condition " ++ c.text ++ " on " ++ table
  | tooManyPredicates c => "Too many predicates, skipping sargable " ++ c.text
  | pushedDown n => "Pushed down conditions, " ++ toString n ++ " WHERE conditions remain"
  | graph n m =>
    "Made hypergraph with " ++ toString n ++ " nodes and " ++ toString m ++ " edges"
  | predicates n m =>
    "Made " ++ toString n ++ " predicates, " ++ toString m ++
      " of them from WHERE or table filters"

/-- The line of the log. -/
def line (e : Event) : String := e.level.name ++ " " ++ e.text

end Event

/-! ### The log -/

/-- A value with the log of how it was reached. -/
structure Reported (α : Type) where
  /-- The value. -/
  value : α
  /-- The log, oldest event first. -/
  log : List Event

namespace Reported

/-- A value without a report. -/
protected def pure {α : Type} (a : α) : Reported α := ⟨a, []⟩

/-- The second computation after the first, with both reports. -/
protected def bind {α β : Type} (x : Reported α) (f : α → Reported β) : Reported β :=
  let y := f x.value
  ⟨y.value, x.log ++ y.log⟩

instance : Monad Reported where
  pure := Reported.pure
  bind := Reported.bind

/-- Adds an event to the log. -/
def event (e : Event) : Reported Unit := ⟨(), [e]⟩

@[simp] theorem value_pure {α : Type} (a : α) : (pure a : Reported α).value = a := rfl

@[simp] theorem value_bind {α β : Type} (x : Reported α) (f : α → Reported β) :
    (x >>= f).value = (f x.value).value := rfl

@[simp] theorem value_map {α β : Type} (f : α → β) (x : Reported α) :
    (f <$> x).value = f x.value := rfl

@[simp] theorem value_event (e : Event) : (event e).value = () := rfl

end Reported

/-! ### The trace -/

/-- A computation that is handed a trace, or none. -/
structure Traced (α : Type) where
  /-- The value and what has become of the trace. -/
  run : Option String → Reported (α × Option String)
  /-- A trace is neither taken away nor made. -/
  isSome_run : ∀ trace?, (run trace?).value.2.isSome = trace?.isSome

namespace Traced

variable {α β : Type}

/-- A value that leaves the trace alone. -/
protected def pure (a : α) : Traced α := ⟨fun trace? => pure (a, trace?), fun _ => rfl⟩

/-- The second computation after the first, with the trace that the first has left. -/
protected def bind (x : Traced α) (f : α → Traced β) : Traced β where
  run trace? := x.run trace? >>= fun r => (f r.1).run r.2
  isSome_run trace? := ((f _).isSome_run _).trans (x.isSome_run trace?)

/-- Another value made of the one that is returned. -/
protected def map (f : α → β) (x : Traced α) : Traced β where
  run trace? := Prod.map f id <$> x.run trace?
  isSome_run trace? := x.isSome_run trace?

instance : Monad Traced where
  pure := Traced.pure
  bind := Traced.bind
  map := Traced.map

/-- A computation that does not get the trace. -/
def lift (x : Reported α) : Traced α where
  run trace? := ⟨(x.value, trace?), x.log⟩
  isSome_run _ := rfl

/-- Adds an event to the log. -/
def event (e : Event) : Traced Unit := lift (Reported.event e)

/-- Adds a text at the end of the trace, if there is one. -/
def write (s : String) : Traced Unit where
  run trace? := pure ((), trace?.map (· ++ s))
  isSome_run _ := Option.isSome_map

/-- What the computation returns without a trace. -/
def value (x : Traced α) : α := (x.run none).value.1

/-- What it reports to the log without a trace. -/
def log (x : Traced α) : List Event := (x.run none).log

/-- What it leaves of an empty trace. -/
def trace (x : Traced α) : String := (x.run (some "")).value.2.getD ""

/-- Without a trace there is none for the steps that follow. -/
theorem run_none (x : Traced α) : (x.run none).value = (x.value, none) :=
  Prod.ext rfl (Option.isNone_iff_eq_none.1 (by simp [← Option.not_isSome, x.isSome_run]))

@[simp] theorem value_pure (a : α) : (pure a : Traced α).value = a := rfl

@[simp] theorem value_bind (x : Traced α) (f : α → Traced β) :
    (x >>= f).value = (f x.value).value := by
  change ((f (x.run none).value.1).run (x.run none).value.2).value.1 = _
  rw [run_none]
  rfl

@[simp] theorem value_map (f : α → β) (x : Traced α) : (f <$> x).value = f x.value := rfl

/-- The value of a loop is that of its rounds. -/
theorem value_foldlM (f : β → α → Traced β) (xs : List α) (b : β) :
    (xs.foldlM f b).value = xs.foldl (fun b x => (f b x).value) b := by
  induction xs generalizing b with
  | nil => rfl
  | cons x xs ih => rw [List.foldlM_cons, value_bind, ih, List.foldl_cons]

@[simp] theorem value_lift (x : Reported α) : (lift x).value = x.value := rfl

/-- Whatever trace is handed in, and if none is, the computation returns the value, reports the events
to the log, and adds the text at the end of the trace. -/
def Tells (x : Traced α) (a : α) (log : List Event) (text : String) : Prop :=
  ∀ trace?, x.run trace? = ⟨(a, trace?.map (· ++ text)), log⟩

/-- The computation does the same with every trace and without one, and it only adds to a trace. -/
def Observed (x : Traced α) : Prop := x.Tells x.value x.log x.trace

/-- What asks whether there is a trace is not observed. -/
example : let asks : Traced Bool := ⟨fun trace? => pure (trace?.isSome, trace?), fun _ => rfl⟩
    (asks.run none).value.1 = false ∧ (asks.run (some "")).value.1 = true := by decide

section

variable {x : Traced α} {f : α → Traced β} {a : α} {b : β} {log log' : List Event} {text text' : String}

theorem Tells.value_eq (h : x.Tells a log text) : x.value = a := by rw [value, h]

theorem Tells.log_eq (h : x.Tells a log text) : x.log = log := by rw [Traced.log, h]

theorem Tells.trace_eq (h : x.Tells a log text) : x.trace = text := by
  rw [trace, h]
  exact String.empty_append

theorem Tells.observed (h : x.Tells a log text) : x.Observed := by
  rwa [Observed, h.value_eq, h.log_eq, h.trace_eq]

theorem tells_lift (x : Reported α) : (lift x).Tells x.value x.log "" := by
  intro trace?
  have hsame : trace?.map (· ++ "") = trace? := by simp
  rw [hsame]
  rfl

theorem tells_pure (a : α) : (pure a : Traced α).Tells a [] "" := tells_lift (pure a)

theorem tells_write (s : String) : (write s).Tells () [] s := fun _ => rfl

/-- What two computations tell, one after the other. -/
theorem Tells.bind (hx : x.Tells a log text) (hf : (f a).Tells b log' text') :
    (x >>= f).Tells b (log ++ log') (text ++ text') := by
  intro trace?
  change (x.run trace? >>= fun r => (f r.1).run r.2) = _
  rw [hx]
  change (⟨((f a).run _).value, log ++ ((f a).run _).log⟩ : Reported _) = _
  rw [hf]
  cases trace? with
  | none => rfl
  | some trace => simp [String.append_assoc]

theorem Tells.map {g : α → β} (hx : x.Tells a log text) : (g <$> x).Tells (g a) log text := by
  intro trace?
  change Prod.map g id <$> x.run trace? = _
  rw [hx]
  exact congrArg (Reported.mk _) (List.append_nil log)

theorem observed_pure (a : α) : (pure a : Traced α).Observed := (tells_pure a).observed

theorem observed_lift (x : Reported α) : (lift x).Observed := (tells_lift x).observed

theorem observed_write (s : String) : (write s).Observed := (tells_write s).observed

theorem Observed.bind (hx : x.Observed) (hf : ∀ a, (f a).Observed) : (x >>= f).Observed :=
  (Tells.bind hx (hf x.value)).observed

theorem Observed.map {g : α → β} (hx : x.Observed) : (g <$> x).Observed := (Tells.map hx).observed

/-- A loop is observed if its rounds are. -/
theorem observed_foldlM {f : β → α → Traced β} (hf : ∀ b x, (f b x).Observed) (xs : List α) (b : β) :
    (xs.foldlM f b).Observed := by
  induction xs generalizing b with
  | nil => exact observed_pure b
  | cons x xs ih =>
    rw [List.foldlM_cons]
    exact (hf b x).bind ih

end

end Traced

end QueryGraph
