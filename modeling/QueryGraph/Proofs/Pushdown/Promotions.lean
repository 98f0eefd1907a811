import QueryGraph.Proofs.Pushdown.Arrivals

/-!
# What a condition is promoted to

On its way down, a condition and its parts become conditions of inner joins and semijoins: the condition where
it stops, and every part that it leaves there on the way of the part.

## The model

`promotions` are the conditions that arrive at a join as conditions of that join. The join promotes what has
arrived once more, now as its own conditions. Since an inner join or a semijoin lets its own conditions and all
others go to the same sides, this promotes again what has been promoted there already (`of_mem_promotions`).

## What is proved

* `promotions_of_side_cons`, `promotions_of_both_cons` and so on — promotions on the way through a join.
* `of_mem_promotions` — where a condition has been promoted, it has tables on both sides, and from there on it
  is promoted to what the first one is promoted to.
-/

namespace QueryGraph

open BitSet

/-- Inner joins and semijoins are open for all conditions. -/
theorem JoinKind.opens_of_not_outerLike {k : JoinKind} (h : k.outerLike = false) (own : Bool) (s : Side) :
    k.opens own s = true := by
  cases k <;> cases own <;> cases s <;> first | rfl | cases h

namespace Tree

variable {c d : Expr} {own : Bool} {t : Tree} {path : List Side} {n : JoinNode}

/-- What arrives at the end of a path as a join condition if a condition is pushed down. -/
def promotions (c : Expr) (own : Bool) (path : List Side) (t : Tree) : List Expr :=
  arrivals .joinCond path (t.route c own ∅).steps

theorem promotions_of_outline {t' : Tree} (h : t'.outline = t.outline) :
    t'.promotions c own path = t.promotions c own path := by
  rw [promotions, promotions, route_of_outline h]

/-- Tables have no join conditions. -/
theorem promotions_leaf (i : Nat) (l : Leaf) : (leaf i l).promotions c own path = [] := by
  simp [promotions, route, arrivals, Step.arrival?]

section

variable {s : Side} (hside : c.tables ⊆ (n.side s).tables ∪ ∅)
  (hfirst : s = .right → ¬ c.tables ⊆ n.left.tables ∪ ∅)

include hside hfirst

/-- A condition on one side alone is not promoted to the join. -/
theorem promotions_of_side_nil : n.tree.promotions c own [] = [] := arrivals_of_side_nil hside hfirst

/-- It is promoted on that side, if this is open. -/
theorem promotions_of_side_cons (s' : Side) : n.tree.promotions c own (s' :: path) =
    if s' = s ∧ n.info.kind.opens own s = true then (n.side s).promotions c false path else [] :=
  arrivals_of_side_cons hside hfirst s'

end

section

variable (hboth : ∀ s, ¬ c.tables ⊆ (n.side s).tables ∪ ∅)

include hboth

/-- A condition on both sides is promoted to an inner join or a semijoin, unless it is its own. -/
theorem promotions_of_both_nil : n.tree.promotions c own [] =
    if (own || n.info.kind.outerLike) = false then [c] else [] := by
  rw [promotions, arrivals_of_both_nil hboth]
  simp

/-- Below the join its parts are promoted, on the sides that are open. -/
theorem promotions_of_both_cons (s : Side) : n.tree.promotions c own (s :: path) =
    if n.info.kind.opens own s then
      (c.restrict (n.side s).tables).elim [] fun p => (n.side s).promotions p false path
    else [] := by
  have hlookups : arrivals .joinCond path
      ((n.side s).route c false (lookupParams c ∅ (n.side s.other).tables)).steps = [] := by
    refine List.eq_nil_iff_forall_not_mem.2 fun d hd => ?_
    have hlookup := isLookup_route (lookupParams_ne_empty c (.inr (n.side s.other).tables_ne_empty)) _ _
      (mem_arrivals.1 hd)
    cases hlookup
  rw [promotions, arrivals_of_both_cons hboth, arrivals_copies_cons, hlookups, List.append_nil]
  rfl

end

/-- A join promotes no condition of its own to itself. -/
theorem promotions_own_nil (c : Expr) (t : Tree) : t.promotions c true [] = [] := by
  cases t using inductSides with
  | leaf i l => exact promotions_leaf i l
  | join n =>
    rcases exists_side_or_both n c ∅ with ⟨s, hside, hfirst⟩ | hboth
    · exact promotions_of_side_nil hside hfirst
    · exact promotions_of_both_nil hboth

/-- **What has been promoted is promoted alike.** A condition that has been promoted to a join is on both
sides of it, and as a condition of this join it is promoted to the same as before, further down. -/
theorem of_mem_promotions (h : d ∈ t.promotions c own path) : ∃ n : JoinNode,
    t.descend? path = some n.tree ∧ (∀ s, ¬ d.tables ⊆ (n.side s).tables) ∧
      ∀ s rest, t.promotions c own (path ++ s :: rest) = n.tree.promotions d true (s :: rest) := by
  induction t using inductSides generalizing c own path with
  | leaf i l =>
    rw [promotions_leaf] at h
    cases h
  | join n ih =>
    rcases exists_side_or_both n c ∅ with ⟨s, hside, hfirst⟩ | hboth
    · cases path with
      | nil =>
        rw [promotions_of_side_nil hside hfirst] at h
        cases h
      | cons s' path =>
        rw [promotions_of_side_cons hside hfirst] at h
        split at h
        next hs =>
          obtain ⟨m, hm, hspans, hbelow⟩ := ih s h
          obtain ⟨rfl, hopen⟩ := hs
          refine ⟨m, (descend?_cons n s' path).trans hm, hspans, fun s rest => ?_⟩
          rw [List.cons_append, promotions_of_side_cons hside hfirst, if_pos ⟨rfl, hopen⟩, hbelow]
        next => cases h
    · cases path with
      | nil =>
        rw [promotions_of_both_nil hboth] at h
        split at h
        next hstops =>
          obtain rfl := List.mem_singleton.1 h
          rw [Bool.or_eq_false_iff] at hstops
          refine ⟨n, rfl, fun s => union_empty (n.side s).tables ▸ hboth s, fun s rest => ?_⟩
          rw [List.nil_append, promotions_of_both_cons hboth, promotions_of_both_cons hboth,
            JoinKind.opens_of_not_outerLike hstops.2, JoinKind.opens_of_not_outerLike hstops.2]
        next => cases h
      | cons s path =>
        rw [promotions_of_both_cons hboth] at h
        split at h
        next hopen =>
          cases hpart : c.restrict (n.side s).tables with
          | none =>
            rw [hpart] at h
            cases h
          | some p =>
            rw [hpart] at h
            obtain ⟨m, hm, hspans, hbelow⟩ := ih s h
            refine ⟨m, (descend?_cons n s path).trans hm, hspans, fun s' rest => ?_⟩
            rw [List.cons_append, promotions_of_both_cons hboth, if_pos hopen, hpart, Option.elim_some, hbelow]
        next => cases h

end Tree

end QueryGraph
