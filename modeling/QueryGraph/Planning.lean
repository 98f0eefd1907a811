import QueryGraph.JoinGraph.Assembly
import QueryGraph.JoinGraph.Drawing
import QueryGraph.JoinGraph.Lookups
import QueryGraph.Tree.Conditions
import QueryGraph.Tree.Eligibility
import QueryGraph.Tree.Pushdown

/-!
# From a query block to its join graph

The stages by which a query block becomes a join graph.

## The model

1. The FROM clause becomes a tree. Its conditions and those of WHERE are simplified and pushed down,
   the join conditions get their final form, and hash keys are told apart: `placeConditions`.
2. The tree becomes a graph: `JoinGraph.ofTree`.
3. What is left of WHERE and the filters of the tables become predicates: `addFilters`.
4. Index lookups are looked for, if they are asked for.

Three things can go wrong: too large a table number, a condition without a final form, and
too many predicates. A failure ends the work, and log and trace hold what was told up to then.

The trace is handed from step to step, if there is one. The stages that put conditions in their
places do not get it; the graph, its filters and the search for lookups add to it on the way.
-/

namespace QueryGraph

/-- Limits and choices. -/
structure Settings where
  /-- The largest number of tables in a block. -/
  maxTables : Nat := 61
  /-- The largest number of predicates. -/
  maxPredicates : Nat := 64
  /-- Whether index lookups are looked for. -/
  findLookups : Bool := true
  /-- Whether the trace lists the nodes of the tables. -/
  listNodes : Bool := false
  /-- The final form of conditions. -/
  finisher : Finisher := .default
  /-- The source of selectivities. -/
  estimator : Estimator := .default
  /-- How the trace draws tables and graphs. Any renderers will do. -/
  renderers : Renderers := .plain

/-- How many members a set of tables, nodes or predicates can have. -/
def wordBits : Nat := 64

/-- The number of tables that there may be, whatever the settings say. -/
def Settings.tableLimit (s : Settings) : Nat := min s.maxTables wordBits

/-- The number of predicates that there may be, whatever the settings say. -/
def Settings.predicateLimit (s : Settings) : Nat := min s.maxPredicates wordBits

/-- Why there is no graph. -/
inductive PlanError where
  /-- A table number needs more tables than there may be. -/
  | tooManyTables (found limit : Nat)
  /-- There are more predicates than there may be. -/
  | tooManyPredicates (found limit : Nat)
  /-- A condition has no final form. -/
  | unfinished (error : FinishError)

/-- The reason in words. -/
def PlanError.message : PlanError → String
  | tooManyTables found limit =>
    "hypergraph optimizer does not support more than " ++ toString limit ++
      " tables in one query block (found " ++ toString found ++ ")"
  | tooManyPredicates found limit =>
    "hypergraph optimizer does not support more than " ++ toString limit ++
      " WHERE/ON predicates (found " ++ toString found ++ ")"
  | unfinished e => "failed to rewrite condition " ++ e.condition.text

/-- A computation that may be handed a trace, reports on its way and may fail. -/
abbrev Planning := ExceptT PlanError Traced

namespace Planning

/-- A computation that neither gets the trace nor fails. -/
def lift {α : Type} (x : Reported α) : Planning α := ExceptT.lift (Traced.lift x)

/-- Adds an event to the log. -/
def event (e : Event) : Planning Unit := lift (Reported.event e)

/-- Adds a text at the end of the trace, if there is one. -/
def write (s : String) : Planning Unit := ExceptT.lift (Traced.write s)

end Planning

/-- A tree whose conditions are in their places, with the conditions left for WHERE. -/
structure Placed where
  /-- The tree. -/
  tree : Tree
  /-- The conditions left for WHERE. -/
  remaining : List Expr

namespace QueryBlock

/-- One more than the largest table number. -/
def tableCount (q : QueryBlock) : Nat :=
  (q.source.tables.map fun t => t.number + 1).foldl max 0

/-- The tree of the block with every condition in its place. -/
def placeConditions (s : Settings) (q : QueryBlock) : Planning Placed := do
  let tree ← Planning.lift (Tree.ofList q.source).simplifyConds
  let tree ← Planning.lift tree.pushDownJoins
  let conds := Expr.conjunctsOf q.filter
  if Expr.contradictory conds then Planning.event .contradiction
  let (tree, remaining) ← Planning.lift (tree.pushDownAll false (Expr.simplifyAll conds))
  let finished ← Planning.lift (tree.finish s.finisher)
  match finished.error? with
  | some e => throw (.unfinished e)
  | none => return ⟨finished.tree.recordUsedTables.divideKeys, remaining⟩

/-- What the trace says before conditions are pushed down. -/
def openingText (q : QueryBlock) : String :=
  "Join list after simplification:\n" ++ q.source.print 0 ++
    "\nMade this relational tree; WHERE condition is " ++
    Expr.listText (Expr.conjunctsOf q.filter) ++ ":\n" ++ (Tree.ofList q.source).print 2 ++
    "\nPushing conditions down.\n"

end QueryBlock

/-- What the trace says when all conditions are in their places. -/
def Placed.text (p : Placed) : String :=
  "\nAfter pushdown; remaining WHERE conditions are " ++ Expr.listText p.remaining ++
    ", table filters are " ++ Expr.listText p.tree.filters ++ ":\n" ++
    p.tree.print 2 ++ "\n"

namespace JoinGraph

/-- What the trace says of a graph without predicates. -/
def text (s : Settings) (g : JoinGraph) : String :=
  let nodes := String.join (g.nodes.mapIdx fun v n =>
    "  R" ++ toString (v + 1) ++ " = " ++ n.table.name ++ "\n")
  "\nConstructed hypergraph:\n" ++ s.renderers.graph g.drawing ++ "\n" ++
    (if s.listNodes then "Node mappings, for reference:\n" ++ nodes else "") ++ "\n"

/-- The graph with one more filter, in its final form. -/
def addFilter (s : Settings) (g : JoinGraph) (cond : Expr) (eligibility : NodeSet) :
    Planning JoinGraph := do
  match s.finisher.apply cond with
  | .error e => throw (.unfinished e)
  | .ok c =>
    let selectivity ← ExceptT.lift (s.estimator.run c)
    return g.addPredicate ⟨c, eligibility, selectivity⟩

/-- The graph with a condition that was left for WHERE. -/
def addRemaining (s : Settings) (g : JoinGraph) (cond : Expr) : Planning JoinGraph := do
  let eligibility := g.nodeSet (g.tree.eligibility cond.tables)
  Planning.write ("Total eligibility set for " ++ cond.text ++ ": \x7b" ++
    g.names eligibility ++ "\x7d\n")
  g.addFilter s cond eligibility

/-- The graph with a filter of a table. -/
def addTableFilter (s : Settings) (g : JoinGraph) (l : Leaf) (cond : Expr) : Planning JoinGraph :=
  g.addFilter s cond (g.nodeSet cond.tables ∪ l.nodes)

/-- The graph with the conditions left for WHERE and the filters of all tables as predicates. -/
def addFilters (s : Settings) (g : JoinGraph) (remaining : List Expr) : Planning JoinGraph := do
  let g ← remaining.foldlM (addRemaining s) g
  let filters := g.tree.leaves.flatMap fun (_, l) => l.filters.map (l, ·)
  let g ← filters.foldlM (fun g (l, c) => g.addTableFilter s l c) g
  let found := g.predicates.length
  if s.predicateLimit < found then throw (.tooManyPredicates found s.predicateLimit)
  return g.countFilters

/-- The graph with its index lookups, if they are asked for. The trace lists all its predicates. -/
def complete (s : Settings) (g : JoinGraph) : Planning JoinGraph := do
  let g ← if s.findLookups then ExceptT.lift (g.findLookups s.estimator s.predicateLimit) else pure g
  Planning.write (g.predicateTable s.renderers)
  Planning.event (.predicates g.predicates.length g.numFilters)
  return g

end JoinGraph

namespace QueryBlock

/-- The join graph of the block. -/
def plan (s : Settings) (q : QueryBlock) : Planning JoinGraph := do
  if s.tableLimit < q.tableCount then throw (.tooManyTables q.tableCount s.tableLimit)
  Planning.write q.openingText
  let placed ← q.placeConditions s
  Planning.event (.pushedDown placed.remaining.length)
  Planning.write placed.text
  let g ← ExceptT.lift (JoinGraph.ofTree s.estimator placed.tree)
  Planning.event (.graph g.nodes.length g.joins.length)
  Planning.write (g.text s)
  let g ← g.addFilters s placed.remaining
  g.complete s

end QueryBlock

/-- The answer to a request for a join graph. -/
structure Outcome where
  /-- The graph, or why there is none. -/
  result : Except PlanError JoinGraph
  /-- What has become of the trace that was handed in, if one was. -/
  trace? : Option String
  /-- The log of this request. -/
  log : List Event

/-- The join graph of a block, planned with the trace that is handed in, if one is. -/
def QueryBlock.build (s : Settings) (q : QueryBlock) (trace? : Option String) : Outcome :=
  let planned := (q.plan s).run.run trace?
  ⟨planned.value.1, planned.value.2, planned.log⟩

end QueryGraph
