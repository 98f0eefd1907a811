import QueryGraph.Tree.Basic

/-!
# Eligibility

Which tables have to be joined before a condition may be evaluated.

These are the tables that the condition reads, and more where it reads the right side of a left join
or an antijoin: such a join pads its right side with NULL or drops rows of it, so the condition
waits until the join has been applied, that is, for all tables that its conditions read. If they
read no table of the left side, the whole left side is taken, so that the condition is never
evaluated within the right side.
-/

namespace QueryGraph.Tree

/-- Whether the join pads or drops rows of its right side. -/
def guardsRight : JoinKind → Bool
  | .left => true
  | .anti => true
  | _ => false

/-- The tables to be joined before a condition that reads the tables `used`. -/
def eligibility (used : TableSet) : Tree → TableSet
  | leaf _ _ => used
  | join _ info l r =>
    let fromLeft := if used.overlaps l.tables then used ∪ eligibility used l else used
    if used.overlaps r.tables then
      let both := fromLeft ∪ eligibility used r
      if guardsRight info.kind then
        let waiting := both ∪ Expr.tablesOf info.allConds
        if waiting.overlaps l.tables then waiting else waiting ∪ l.tables
      else both
    else fromLeft

end QueryGraph.Tree
