/-!
# Kinds of joins
-/

namespace QueryGraph

/-- What a join does with rows that find no partner, and with those that do. -/
inductive JoinKind where
  /-- Pairs of matching rows. -/
  | inner
  /-- Pairs of matching rows, and left rows without a partner, padded with NULL. -/
  | left
  /-- Left rows with a partner. -/
  | semi
  /-- Left rows without a partner. -/
  | anti
  /-- Pairs of matching rows, and rows of both sides without a partner, padded with NULL. -/
  | full
  deriving DecidableEq, Inhabited

namespace JoinKind

/-- The name of the join in the picture of a tree. -/
def name : JoinKind → String
  | inner => "Inner join"
  | left => "Left join"
  | semi => "Semijoin"
  | anti => "Antijoin"
  | full => "Full outer join"

/-- The symbol of the join in labels. -/
def symbol : JoinKind → String
  | inner => "⋈"
  | left => "⟕"
  | semi => "⋉"
  | anti => "▷"
  | full => "⟗"

/-- Joins through which a condition may be pushed into either side. -/
def innerLike : JoinKind → Bool
  | inner => true
  | semi => true
  | _ => false

/-- Joins that pad with NULL or drop matching rows, so that a filter above them is not one of their
conditions. -/
def outerLike (k : JoinKind) : Bool := !k.innerLike

/-- Whether a condition may be pushed into the left side: from anywhere through an inner join or a
semijoin, and otherwise only a filter from above the join, never into a full outer join. -/
def opensLeft (own : Bool) (k : JoinKind) : Bool :=
  k.innerLike || (!own && k ≠ full)

/-- Whether a condition may be pushed into the right side: from anywhere through an inner join or a
semijoin, and otherwise only the join's own condition, never into a full outer join. -/
def opensRight (own : Bool) (k : JoinKind) : Bool :=
  k.innerLike || (own && k ≠ full)

end JoinKind

end QueryGraph
