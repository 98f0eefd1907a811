import QueryGraph.BitSet.Basic

/-!
# Conflict rules

Rules that a set of nodes has to obey before a join may be applied to it, and how they are folded
into the set of nodes that the join waits for.

## The model

A rule says: with any node of `activates`, all nodes of `requires`. `saturate` enlarges a set of nodes
by what the active rules require, and drops the rules that are then met for good, until the set does
not grow any more. It ends because a set that grows is larger as a number as well.
-/

namespace QueryGraph

/-- A set of nodes with a member of `activates` has to contain all of `requires`. -/
structure ConflictRule where
  /-- The nodes that make the rule active. -/
  activates : NodeSet
  /-- The nodes that an active rule asks for. -/
  requires : NodeSet
  deriving DecidableEq, Inhabited

namespace ConflictRule

/-- The rule in words. -/
def text (r : ConflictRule) : String := r.activates.binary ++ " -> " ++ r.requires.binary

/-- Whether a set of nodes obeys the rule. -/
def Obeyed (r : ConflictRule) (s : NodeSet) : Prop := r.activates.overlaps s → r.requires ⊆ s

/-- The set of nodes with what the rule requires, if the rule is active in it. -/
def fire (s : NodeSet) (r : ConflictRule) : NodeSet :=
  if r.activates.overlaps s then s ∪ r.requires else s

/-- The set of nodes after all rules have been looked at once, from left to right. -/
def fireAll (rules : List ConflictRule) (s : NodeSet) : NodeSet := rules.foldl fire s

/-- The rules that a set of nodes does not meet for good. -/
def unmet (rules : List ConflictRule) (s : NodeSet) : List ConflictRule :=
  rules.filter fun r => ¬ r.requires ⊆ s

theorem le_fire (s : NodeSet) (r : ConflictRule) : s.word.toNat ≤ (fire s r).word.toNat := by
  unfold fire
  split
  · show s.word.toNat ≤ (s.word ||| r.requires.word).toNat
    rw [UInt64.toNat_or]
    exact Nat.left_le_or
  · exact Nat.le_refl _

theorem le_fireAll (rules : List ConflictRule) (s : NodeSet) :
    s.word.toNat ≤ (fireAll rules s).word.toNat := by
  induction rules generalizing s with
  | nil => exact Nat.le_refl _
  | cons r rules ih => exact Nat.le_trans (le_fire s r) (ih (fire s r))

/-- The set of nodes enlarged by the active rules, and the rules that are left. -/
def saturate (rules : List ConflictRule) (s : NodeSet) : NodeSet × List ConflictRule :=
  let grown := fireAll rules s
  let left := unmet rules grown
  if _h : grown = s ∨ left = [] then (grown, left) else saturate left grown
  termination_by UInt64.size - s.word.toNat
  decreasing_by
    have hne : (fireAll rules s).word.toNat ≠ s.word.toNat := by
      intro h
      refine _h (Or.inl ?_)
      have hw := UInt64.toNat_inj.1 h
      show fireAll rules s = s
      generalize fireAll rules s = g at hw
      cases g; cases s; cases hw; rfl
    have hle := le_fireAll rules s
    have hlt := (fireAll rules s).word.toNat_lt_size
    omega

end ConflictRule

end QueryGraph
