import QueryGraph.Expr.Equalities
import QueryGraph.Expr.FinalForm
import QueryGraph.Report
import QueryGraph.Tree.Basic

/-!
# The conditions of a tree

Passes that look at the conditions of each node by itself: plain equalities, the final
form, and the division of join conditions into hash keys and others.

## The model

Bringing conditions into their final form can fail. The pass visits the nodes in postorder and stops
at the first condition that is refused, so `Finished` holds the tree in the state in which it was
left: nodes before the failure have their new conditions, the node of the failure has none, and nodes
after it have their old ones.
-/

namespace QueryGraph

namespace Tree

/-- The tree with plain equalities in the conditions of all joins. -/
def simplifyConds : Tree → Reported Tree
  | leaf i l => pure (leaf i l)
  | join i info l r => do
    let l ← l.simplifyConds
    let r ← r.simplifyConds
    if Expr.contradictory info.conds then Reported.event .contradiction
    return join i { info with conds := Expr.simplifyAll info.conds } l r

end Tree

/-- Every condition of a list in its final form; or the error of the first one that is refused. -/
def Finisher.applyAll (fin : Finisher) : List Expr → Except FinishError (List Expr)
  | [] => .ok []
  | c :: cs => do
    let c ← fin.apply c
    let cs ← fin.applyAll cs
    .ok (c :: cs)

/-- A tree with the final forms of its conditions, and the error that ended the pass, if one did. -/
structure Finished where
  /-- The tree as it was left. -/
  tree : Tree
  /-- Why the pass stopped before the end. -/
  error? : Option FinishError

namespace Tree

/-- The tree with the conditions of all joins and the lookups of all tables in their final form. -/
def finishConds (fin : Finisher) : Tree → Finished
  | leaf i l => match fin.applyAll l.lookups with
    | .ok cs => ⟨leaf i { l with lookups := cs }, none⟩
    | .error e => ⟨leaf i { l with lookups := [] }, some e⟩
  | join i info l r => match l.finishConds fin with
    | ⟨l, some e⟩ => ⟨join i info l r, some e⟩
    | ⟨l, none⟩ => match r.finishConds fin with
      | ⟨r, some e⟩ => ⟨join i info l r, some e⟩
      | ⟨r, none⟩ => match fin.applyAll info.conds with
        | .ok cs => ⟨join i { info with conds := cs } l r, none⟩
        | .error e => ⟨join i { info with conds := [] } l r, some e⟩

/-- The tree with all its conditions in their final form, reported when the pass reaches the end. -/
def finish (fin : Finisher) (t : Tree) : Reported Finished := do
  let finished := t.finishConds fin
  if finished.error?.isNone then Reported.event (.finished finished.tree.label)
  return finished

/-- The tree with the tables that the conditions of each join read recorded on it. -/
def recordUsedTables : Tree → Tree
  | leaf i l => leaf i l
  | join i info l r =>
    join i { info with usedTables := Expr.tablesOf info.conds }
      l.recordUsedTables r.recordUsedTables

/-- The conditions of a join between two sets of tables, divided into hash keys and others. A join
without conditions to divide keeps the keys it has. -/
def divideConds (left right : TableSet) (info : JoinInfo) : JoinInfo :=
  if info.conds.isEmpty then info
  else { info with
    keys := info.conds.filter (Expr.isHashKey left right)
    conds := info.conds.filter fun c => !Expr.isHashKey left right c }

/-- The tree with the conditions of each join divided into hash keys and others. -/
def divideKeys : Tree → Tree
  | leaf i l => leaf i l
  | join i info l r => join i (divideConds l.tables r.tables info) l.divideKeys r.divideKeys

end Tree

end QueryGraph
