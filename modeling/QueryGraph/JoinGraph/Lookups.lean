import QueryGraph.JoinGraph.Basic
import QueryGraph.Report
import QueryGraph.Selectivity

/-!
# Index lookups

Equalities that could be evaluated as a lookup in an index of a table.

## The model

A filter is a candidate when it can be applied at a single node. A join condition is one on the
tables where pushing down has left a copy of it; it then becomes a predicate of its own, so that the
lookup can refer to it, as long as there is room for more predicates. A candidate is an index lookup
on a column if it equates the column with something that does not read the column's table.
-/

namespace QueryGraph.JoinGraph

/-- The graph with the lookup of a column, if the equality of `side` with `other` is one. With a node
given, only that node is considered. -/
def addLookupOn (g : JoinGraph) (cond : Expr) (node? : Option Nat) (predicate : Nat)
    (side other : Expr) : Traced JoinGraph :=
  match side.column? with
  | none => pure g
  | some field => match nodeOf? g.nodes field.table with
    | none => pure g
    | some v => match g.nodes[v]? with
      | none => pure g
      | some node =>
        if node?.any (· ≠ v) || other.tables.overlaps {field.table} ||
            node.lookups.any (fun p => p.predicate = predicate && p.field = field) then pure g
        else do
          Traced.event (.lookup cond node.table.name)
          Traced.write ("Found sargable condition " ++ cond.text ++ "\n")
          let node := { node with lookups := node.lookups ++ [⟨predicate, field, other⟩] }
          return { g with nodes := g.nodes.set v node }

/-- The graph with the lookups of the columns that a condition compares for equality. -/
def addLookups (g : JoinGraph) (cond : Expr) (node? : Option Nat) (predicate : Nat) :
    Traced JoinGraph :=
  match cond with
  | .compare .eq l r => do
    let g ← g.addLookupOn cond node? predicate l r
    g.addLookupOn cond node? predicate r l
  | _ => pure g

/-- The graph with the lookups among the filters at the given places. -/
def addFilterLookups (g : JoinGraph) (place : Nat) : Traced JoinGraph :=
  match g.predicates[place]? with
  | some p => if p.eligibility.isSingleton then g.addLookups p.cond none place else pure g
  | none => pure g

/-- The graph with a join condition as a predicate for lookups, and its place. A condition that has
a place keeps it; for a new one there may be no room. -/
def placeLookup (est : Estimator) (maxPredicates : Nat) (g : JoinGraph) (cond : Expr) :
    Traced (JoinGraph × Option Nat) :=
  match g.lookupPredicate? cond with
  | some place => pure (g, some place)
  | none =>
    let place := g.predicates.length
    if maxPredicates ≤ place then do
      Traced.event (.tooManyPredicates cond)
      return (g, none)
    else do
      let selectivity ← est.run cond
      let g := g.addPredicate ⟨cond, g.nodeSet cond.tables, selectivity⟩
      return ({ g with lookupPredicates := g.lookupPredicates ++ [(cond, place)] }, some place)

/-- The graph with the lookups at a node that a join condition allows. -/
def addJoinLookups (est : Estimator) (maxPredicates : Nat) (g : JoinGraph) (v : Nat)
    (cond : Expr) : Traced JoinGraph := do
  let (g, place) ← placeLookup est maxPredicates g cond
  match place with
  | some place => g.addLookups cond (some v) place
  | none => return g

/-- The graph with all its index lookups: those of filters first, then those of join conditions, node
by node. -/
def findLookups (est : Estimator) (maxPredicates : Nat) (g : JoinGraph) : Traced JoinGraph := do
  let g ← (List.range g.numFilters).foldlM addFilterLookups g
  let candidates := (g.nodes.mapIdx fun v n => n.candidates.map (v, ·)).flatten
  candidates.foldlM (fun g (v, cond) => addJoinLookups est maxPredicates g v cond) g

end QueryGraph.JoinGraph
