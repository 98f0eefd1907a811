import QueryGraph.Proofs.Forest.Recording
import QueryGraph.Proofs.Planning.Findings
import QueryGraph.Proofs.Pushdown.Growth

/-!
# Where a condition is put

The place of a condition is the lowest node with all of its tables, if the joins on the way there let it
through and the node is one that takes conditions.

## The model

`Lowest` tells the node from the tables alone. A condition that reads no tables is taken to the leftmost
leaf. `Passable` looks at the joins on the way there: no condition goes into a full outer join, and of a left
join or an antijoin its own condition goes into the right side and any other one into the left side. A
condition is at most one of the join that it starts from, so that makes a difference for the first step only.
`Settles` says which nodes keep a condition for themselves.

Apart from the condition itself, only lookups and conditions on one side of the lowest node are put down. The
condition is not on one side of it, so no other node takes it.

## What is proved

* `exists_lowest` — there is a lowest node.
* `route_of_passable`, `route_of_not_passable` — the way of a condition leads there, or nowhere.
* `placed_of_stops`, `placed_of_lowest` — what becomes of that node, and of the tree.
* `pushDown_places` — all of it for a node of a forest.
-/

namespace QueryGraph

open BitSet

/-- Expressions that are written alike read the same tables. -/
theorem Expr.Alike.tables_eq {c d : Expr} (h : c.Alike d) : c.tables = d.tables :=
  h.elim (congrArg Expr.tables) Expr.tables_of_same

/-! ### Sides that are open -/

/-- Whether a condition may be pushed into a side. -/
def JoinKind.opens (own : Bool) (k : JoinKind) : Side → Bool
  | .left => k.opensLeft own
  | .right => k.opensRight own

/-- Full outer joins are closed. Left joins and antijoins are open on the right for their own conditions and
on the left for all others. -/
theorem JoinKind.opens_iff {own : Bool} {k : JoinKind} {s : Side} :
    k.opens own s = true ↔ k ≠ .full ∧ (k = .left ∨ k = .anti → (s = .right ↔ own = true)) := by
  cases k <;> cases s <;> cases own <;> decide

namespace Tree

/-! ### Paths -/

theorem descend?_cons (n : JoinNode) (s : Side) (path : List Side) :
    n.tree.descend? (s :: path) = (n.side s).descend? path := by cases s <;> rfl

/-- Only joins have sides to descend to. -/
theorem exists_join_of_descend? {t u : Tree} {s : Side} {path : List Side}
    (h : t.descend? (s :: path) = some u) :
    ∃ n : JoinNode, t = n.tree ∧ (n.side s).descend? path = some u := by
  cases t with
  | leaf i l => cases s <;> cases h
  | join i info l r => exact ⟨⟨i, info, l, r⟩, rfl, descend?_cons ⟨i, info, l, r⟩ s path ▸ h⟩

theorem tables_subset_of_descend? {t u : Tree} {path : List Side} (h : t.descend? path = some u) :
    u.tables ⊆ t.tables := by
  induction path generalizing t with
  | nil =>
    cases h
    exact Subset.refl _
  | cons s path ih =>
    obtain ⟨n, rfl, hu⟩ := exists_join_of_descend? h
    exact Subset.trans (ih hu) (tables_side_subset (mem_joins_tree.2 (.inl rfl)) s)

theorem descend?_append {t u : Tree} {path : List Side} (h : t.descend? path = some u) (path' : List Side) :
    t.descend? (path ++ path') = u.descend? path' := by
  induction path generalizing t with
  | nil =>
    cases h
    rfl
  | cons s path ih =>
    obtain ⟨n, rfl, hu⟩ := exists_join_of_descend? h
    exact (descend?_cons n s _).trans (ih hu)

theorem descend?_updateAt {t u : Tree} {path : List Side} (h : t.descend? path = some u)
    (f : Tree → Tree) : (t.updateAt f path).descend? path = some (f u) := by
  induction path generalizing t with
  | nil =>
    cases h
    rfl
  | cons s path ih =>
    obtain ⟨n, rfl, hu⟩ := exists_join_of_descend? h
    cases s with
    | left => exact ih hu
    | right => exact ih hu

/-! ### The lowest node -/

variable {ts : TableSet} {t u : Tree} {path : List Side}

/-- The path leads to the lowest node of the tree with all these tables below it. Without tables this is the
leftmost leaf. -/
structure Lowest (ts : TableSet) (t : Tree) (path : List Side) (u : Tree) : Prop where
  /-- The path leads to the node. -/
  reached : t.descend? path = some u
  /-- All the tables are below the node. -/
  covers : ts ⊆ u.tables
  /-- It is below all other nodes with these tables. -/
  lowest : ts ≠ ∅ → ∀ path' u', t.descend? path' = some u' → ts ⊆ u'.tables → path' <+: path
  /-- Without tables it is the leftmost leaf. -/
  leftmost : ts = ∅ → (∃ i l, u = leaf i l) ∧ ∀ s ∈ path, s = .left

namespace Lowest

theorem subset (h : Lowest ts t path u) : ts ⊆ t.tables :=
  Subset.trans h.covers (tables_subset_of_descend? h.reached)

/-- In a table alone this is the table. -/
theorem of_leaf {i : Nat} {l : Leaf} (h : ts ⊆ (leaf i l).tables) : Lowest ts (leaf i l) [] (leaf i l) where
  reached := rfl
  covers := h
  lowest := by
    intro _ path' u' hu' _
    cases path' with
    | nil => exact List.prefix_rfl
    | cons s path' => cases s <;> cases hu'
  leftmost := fun _ => ⟨⟨i, l, rfl⟩, nofun⟩

/-- If no side of the join has all the tables, it is the join. -/
theorem of_spanning {n : JoinNode} (h : ts ⊆ n.tree.tables) (hsides : ∀ s, ¬ ts ⊆ (n.side s).tables) :
    Lowest ts n.tree [] n.tree where
  reached := rfl
  covers := h
  lowest := by
    intro _ path' u' hu' hcovers
    cases path' with
    | nil => exact List.prefix_rfl
    | cons s path' =>
      rw [descend?_cons] at hu'
      exact absurd (Subset.trans hcovers (tables_subset_of_descend? hu')) (hsides s)
  leftmost := by
    rintro rfl
    exact absurd (empty_subset _) (hsides .left)

/-- If a side of the join has all the tables, it is in the side; without tables, in the left one. -/
theorem of_side {n : JoinNode} {s : Side} (h : Lowest ts (n.side s) path u) (hsep : n.tree.Separate)
    (hfirst : s = .right → ¬ ts ⊆ n.left.tables) : Lowest ts n.tree (s :: path) u where
  reached := (descend?_cons n s path).trans h.reached
  covers := h.covers
  lowest := by
    intro hne path' u' hu' hcovers
    cases path' with
    | nil => exact List.nil_prefix
    | cons s' path' =>
      rw [descend?_cons] at hu'
      obtain rfl | rfl := Side.eq_or_eq_other s' s
      · exact List.cons_prefix_cons.2 ⟨rfl, h.lowest hne path' u' hu' hcovers⟩
      · -- a table cannot be on both sides
        obtain ⟨i, hi⟩ := ne_empty_iff.1 hne
        have hin := subset_iff.1 h.subset i hi
        have hout := subset_iff.1 (Subset.trans hcovers (tables_subset_of_descend? hu')) i hi
        exact absurd hout (not_mem_tables_other hsep hin)
  leftmost := by
    rintro rfl
    obtain ⟨hleaf, hpath⟩ := h.leftmost rfl
    refine ⟨hleaf, List.forall_mem_cons.2 ⟨?_, hpath⟩⟩
    cases s with
    | left => rfl
    | right => exact absurd (empty_subset _) (hfirst rfl)

/-- Below the first join on the path it is the same node. The path goes to the right only if it has to. -/
theorem of_cons {n : JoinNode} {s : Side} (h : Lowest ts n.tree (s :: path) u) :
    Lowest ts (n.side s) path u ∧ (s = .right → ¬ ts ⊆ n.left.tables) := by
  refine ⟨⟨(descend?_cons n s path).symm.trans h.reached, h.covers, ?_, ?_⟩, ?_⟩
  · intro hne path' u' hu' hcovers
    have hprefix := h.lowest hne (s :: path') u' ((descend?_cons n s path').trans hu') hcovers
    exact (List.cons_prefix_cons.1 hprefix).2
  · exact fun hempty => (h.leftmost hempty).imp_right fun hpath => (List.forall_mem_cons.1 hpath).2
  · rintro rfl hleft
    by_cases hempty : ts = ∅
    · cases (h.leftmost hempty).2 .right List.mem_cons_self
    · have hprefix := h.lowest hempty [.left] n.left rfl hleft
      cases (List.cons_prefix_cons.1 hprefix).1

/-- No side of the lowest node has all the tables. -/
theorem not_subset_side {n : JoinNode} (h : Lowest ts t path n.tree) (s : Side) :
    ¬ ts ⊆ (n.side s).tables := by
  intro hside
  by_cases hempty : ts = ∅
  · obtain ⟨i, l, hleaf⟩ := (h.leftmost hempty).1
    cases hleaf
  · have hreached : t.descend? (path ++ [s]) = some (n.side s) := by
      rw [descend?_append h.reached, descend?_cons]
      rfl
    have hlength := (h.lowest hempty _ _ hreached hside).length_le
    rw [List.length_append, List.length_singleton] at hlength
    omega

end Lowest

/-- If the tree has all the tables, there is such a node. -/
theorem exists_lowest (hsep : t.Separate) (hts : ts ⊆ t.tables) : ∃ path u, Lowest ts t path u := by
  induction t using inductSides with
  | leaf i l => exact ⟨[], leaf i l, .of_leaf hts⟩
  | join n ih =>
    by_cases hl : ts ⊆ n.left.tables
    · obtain ⟨path, u, h⟩ := ih .left (separate_side hsep .left) hl
      exact ⟨.left :: path, u, h.of_side hsep nofun⟩
    by_cases hr : ts ⊆ n.right.tables
    · obtain ⟨path, u, h⟩ := ih .right (separate_side hsep .right) hr
      exact ⟨.right :: path, u, h.of_side hsep fun _ => hl⟩
    · exact ⟨[], n.tree, .of_spanning hts (Side.forall_side.2 ⟨hl, hr⟩)⟩

/-! ### The way there -/

variable {own : Bool}

/-- The path goes from a join, where it has got to by `before`, into a side of it. -/
def Enters (t : Tree) (path before : List Side) (n : JoinNode) (s : Side) : Prop :=
  t.descend? before = some n.tree ∧ before ++ [s] <+: path

theorem enters_cons {n a : JoinNode} {s s' : Side} {before : List Side} :
    n.tree.Enters (s :: path) before a s' ↔
      (before = [] ∧ a = n ∧ s' = s) ∨ ∃ rest, before = s :: rest ∧ (n.side s).Enters path rest a s' := by
  cases before with
  | nil =>
    have htree : some n.tree = some a.tree ↔ a = n :=
      ⟨fun h => by cases n; cases a; cases h; rfl, fun h => h ▸ rfl⟩
    simp [Enters, descend?, htree, List.cons_prefix_cons]
  | cons s₀ rest =>
    simp only [Enters, List.cons_append, List.cons_prefix_cons, descend?_cons]
    constructor
    · rintro ⟨hreached, rfl, hprefix⟩
      exact .inr ⟨rest, rfl, hreached, hprefix⟩
    · rintro (⟨⟨⟩, -⟩ | ⟨_, ⟨⟩, hreached, hprefix⟩)
      exact ⟨hreached, rfl, hprefix⟩

/-- The joins on the path let a condition pass. If `own` is set, it is one of the join that the path starts
from. -/
structure Passable (own : Bool) (t : Tree) (path : List Side) : Prop where
  /-- The path enters no side of a full outer join. -/
  full : ∀ before n s, t.Enters path before n s → n.info.kind ≠ .full
  /-- It enters the right side of a left join or an antijoin only in its first step, if the condition is one
  of that join. -/
  right : ∀ before n, t.Enters path before n .right → n.info.kind = .left ∨ n.info.kind = .anti →
    before = [] ∧ own = true
  /-- It enters the left side of a left join or an antijoin, but not in its first step if the condition is one
  of that join. -/
  left : ∀ before n, t.Enters path before n .left → n.info.kind = .left ∨ n.info.kind = .anti →
    ¬ (before = [] ∧ own = true)

theorem passable_iff : t.Passable own path ↔
    ∀ before n s, t.Enters path before n s → n.info.kind.opens (own && before.isEmpty) s = true := by
  have hown (before : List Side) : (own && before.isEmpty) = true ↔ before = [] ∧ own = true := by
    rw [Bool.and_eq_true, List.isEmpty_iff, and_comm]
  constructor
  · intro h before n s hs
    rw [JoinKind.opens_iff, hown]
    refine ⟨h.full before n s hs, fun hkind => ?_⟩
    cases s with
    | left => exact iff_of_false nofun (h.left before n hs hkind)
    | right => exact iff_of_true rfl (h.right before n hs hkind)
  · intro h
    have hopens (before : List Side) (n : JoinNode) (s : Side) (hs : t.Enters path before n s) :=
      JoinKind.opens_iff.1 (h before n s hs)
    refine ⟨fun before n s hs => (hopens before n s hs).1, fun before n hs hkind => ?_,
      fun before n hs hkind => ?_⟩
    · exact (hown before).1 (((hopens before n .right hs).2 hkind).1 rfl)
    · exact fun hfirst => nomatch ((hopens before n .left hs).2 hkind).2 ((hown before).2 hfirst)

theorem passable_nil (own : Bool) (t : Tree) : t.Passable own [] := by
  refine passable_iff.2 fun before n s hs => ?_
  exact absurd (List.prefix_nil.1 hs.2) (List.append_ne_nil_of_right_ne_nil before (List.cons_ne_nil s []))

theorem passable_cons {n : JoinNode} {s : Side} : n.tree.Passable own (s :: path) ↔
    n.info.kind.opens own s = true ∧ (n.side s).Passable false path := by
  rw [passable_iff, passable_iff]
  constructor
  · intro h
    refine ⟨?_, fun rest a s' hs' => ?_⟩
    · have hfirst := h [] n s (enters_cons.2 (.inl ⟨rfl, rfl, rfl⟩))
      rwa [List.isEmpty_nil, Bool.and_true] at hfirst
    · have hlater := h (s :: rest) a s' (enters_cons.2 (.inr ⟨rest, rfl, hs'⟩))
      rwa [List.isEmpty_cons, Bool.and_false] at hlater
  · rintro ⟨hopen, h⟩ before a s' hs
    obtain ⟨rfl, rfl, rfl⟩ | ⟨rest, rfl, hs'⟩ := enters_cons.1 hs
    · rwa [List.isEmpty_nil, Bool.and_true]
    · rw [List.isEmpty_cons, Bool.and_false]
      exact h rest a s' hs'

/-! ### The way of a condition -/

end Tree

/-- The way seen from where the path starts. -/
def Route.along (path : List Side) (r : Route) : Route := path.foldr Route.under r

theorem Route.remains_along (path : List Side) (r : Route) : (r.along path).remains = r.remains := by
  induction path with
  | nil => rfl
  | cons s path ih => exact ih

namespace Tree

theorem foldl_along {t u : Tree} {path : List Side} (h : t.descend? path = some u) (r : Route) :
    (r.along path).steps.foldl step t = t.updateAt (r.steps.foldl step) path := by
  induction path generalizing t with
  | nil => rfl
  | cons s path ih =>
    obtain ⟨n, rfl, hu⟩ := exists_join_of_descend? h
    cases s with
    | left =>
      have hside := foldl_under_left (r.along path).steps n.id n.info n.left n.right
      exact hside.trans (congrArg (join n.id n.info · n.right) (ih hu))
    | right =>
      have hside := foldl_under_right (r.along path).steps n.id n.info n.left n.right
      exact hside.trans (congrArg (join n.id n.info n.left ·) (ih hu))

variable {c : Expr}

/-- The way into the first side that has all the tables of the condition. -/
theorem route_of_subset_side {n : JoinNode} {s : Side} (hside : c.tables ⊆ (n.side s).tables)
    (hfirst : s = .right → ¬ c.tables ⊆ n.left.tables) :
    n.tree.route c own ∅ =
      if n.info.kind.opens own s then ((n.side s).route c false ∅).under s else ⟨true, []⟩ := by
  rw [JoinNode.tree, route_join, union_empty, union_empty]
  cases s with
  | left => exact if_pos hside
  | right => exact (if_neg (hfirst rfl)).trans (if_pos hside)

/-- A condition that no side has all the tables of leaves copies, and stops. -/
theorem route_of_spanning {n : JoinNode} (hsides : ∀ s, ¬ c.tables ⊆ (n.side s).tables) :
    n.tree.route c own ∅ =
      if own || n.info.kind.outerLike then ⟨true, copies c own ∅ n.info.kind n.left n.right⟩
      else ⟨false, copies c own ∅ n.info.kind n.left n.right ++ [.put [] .joinCond c]⟩ := by
  rw [JoinNode.tree, route_join, union_empty, union_empty]
  exact (if_neg (hsides .left)).trans ((if_neg (hsides .right)).trans (if_neg (not_not_intro rfl)))

/-- If it can pass, a condition goes to the lowest node that has its tables. -/
theorem route_of_passable (h : Lowest c.tables t path u) (hpass : t.Passable own path) :
    t.route c own ∅ = (u.route c (own && path.isEmpty) ∅).along path := by
  induction path generalizing t own with
  | nil =>
    obtain rfl : t = u := Option.some.inj h.reached
    rw [List.isEmpty_nil, Bool.and_true]
    rfl
  | cons s path ih =>
    obtain ⟨n, rfl, -⟩ := exists_join_of_descend? h.reached
    obtain ⟨hside, hfirst⟩ := h.of_cons
    obtain ⟨hopen, hrest⟩ := passable_cons.1 hpass
    rw [route_of_subset_side hside.subset hfirst, if_pos hopen, ih hside hrest, List.isEmpty_cons,
      Bool.and_false]
    rfl

/-- If it cannot pass, it goes nowhere. -/
theorem route_of_not_passable (h : Lowest c.tables t path u) (hblocked : ¬ t.Passable own path) :
    t.route c own ∅ = ⟨true, []⟩ := by
  induction path generalizing t own with
  | nil => exact absurd (passable_nil own t) hblocked
  | cons s path ih =>
    obtain ⟨n, rfl, -⟩ := exists_join_of_descend? h.reached
    obtain ⟨hside, hfirst⟩ := h.of_cons
    rw [passable_cons, not_and] at hblocked
    rw [route_of_subset_side hside.subset hfirst]
    split
    next hopen =>
      rw [ih hside (hblocked hopen)]
      rfl
    next => rfl

/-! ### At the lowest node -/

/-- The node keeps a condition for itself. A table does, and so does an inner join or a semijoin, unless the
condition is its own. -/
def Settles (own : Bool) : Tree → Prop
  | leaf _ _ => True
  | join _ info _ _ => (info.kind = .inner ∨ info.kind = .semi) ∧ own = false

/-- The second node is the first with a condition that it keeps. -/
inductive Received (c : Expr) : Tree → Tree → Prop
  /-- A table has it at the end of its filters, unless it was there already. -/
  | filter (i : Nat) (l : Leaf) : Received c (leaf i l) (leaf i { l with filters := insertNew c l.filters })
  /-- A join has it at the end of its conditions. -/
  | joinCond (i : Nat) (info : JoinInfo) (l l' r r' : Tree) :
    Received c (join i info l r) (join i { info with conds := info.conds ++ [c] } l' r')

theorem settles_join {n : JoinNode} :
    n.tree.Settles own ↔ (own || n.info.kind.outerLike) = false := by
  show (n.info.kind = .inner ∨ n.info.kind = .semi) ∧ own = false ↔ _
  cases n.info.kind <;> cases own <;> decide

/-- Copies on a side of a join are not the condition, if that side does not have all of its tables. -/
theorem grownBy_copied_of_not_subset (isOpen : Bool) (other : Tree) (hc : ¬ c.tables ⊆ t.tables)
    (p : List Side → Prop) : GrownBy (fun q d => d.Alike c → p q) t (copied c isOpen t other) :=
  (grownBy_copied c isOpen t other).mono fun _ _ hd halike => absurd (halike.tables_eq ▸ hd) hc

/-- What becomes of a node where a condition stops: it gets the condition if it keeps conditions for itself,
and nothing below it does. -/
theorem placed_of_stops (own : Bool)
    (hstops : ∀ n : JoinNode, u = n.tree → ∀ s, ¬ c.tables ⊆ (n.side s).tables) :
    ((u.route c own ∅).remains = false ↔ u.Settles own) ∧
      GrownBy (fun q d => d.Alike c → (u.route c own ∅).remains = false ∧ q = []) u
        ((u.route c own ∅).steps.foldl step u) ∧
      ((u.route c own ∅).remains = false → u.Received c ((u.route c own ∅).steps.foldl step u)) := by
  induction u using inductSides with
  | leaf i l =>
    refine ⟨iff_of_true rfl trivial, ?_, fun _ => .filter i l⟩
    show GrownBy _ (leaf i l) (put .filter c (leaf i l))
    exact grownBy_put (fun _ _ => ⟨rfl, rfl⟩) (leaf i l)
  | join n _ =>
    have hsides := hstops n rfl
    have hgrown (s : Side) (p : List Side → Prop) : GrownBy (fun q d => d.Alike c → p q) (n.side s)
        (copied c (n.info.kind.opens own s) (n.side s) (n.side s.other)) :=
      grownBy_copied_of_not_subset _ _ (hsides s) p
    rw [route_of_spanning hsides, settles_join]
    cases own || n.info.kind.outerLike with
    | true =>
      rw [if_pos rfl, JoinNode.tree, foldl_copies]
      refine ⟨Iff.rfl, .join (.refl n.info.conds) (hgrown .left _) (hgrown .right _), fun h => ?_⟩
      cases h
    | false =>
      rw [if_neg Bool.false_ne_true, List.foldl_append, JoinNode.tree, foldl_copies]
      refine ⟨Iff.rfl, ?_, fun _ => .joinCond _ _ _ _ _ _⟩
      exact .join (.append (fun _ => ⟨rfl, rfl⟩) n.info.conds) (hgrown .left _) (hgrown .right _)

/-- What becomes of a tree: the lowest node is the one that may get the condition. -/
theorem placed_of_lowest (own : Bool) (hlow : Lowest c.tables t path u) :
    ((t.route c own ∅).remains = false ↔ t.Passable own path ∧ u.Settles (own && path.isEmpty)) ∧
      GrownBy (fun q d => d.Alike c → (t.route c own ∅).remains = false ∧ q = path) t
        ((t.route c own ∅).steps.foldl step t) ∧
      ((t.route c own ∅).remains = false → ∃ u',
        ((t.route c own ∅).steps.foldl step t).descend? path = some u' ∧ u.Received c u') := by
  by_cases hpass : t.Passable own path
  · have hstops (n : JoinNode) (hn : u = n.tree) : ∀ s, ¬ c.tables ⊆ (n.side s).tables := by
      subst hn
      exact hlow.not_subset_side
    obtain ⟨hsettles, hgrown, hreceived⟩ := placed_of_stops (own && path.isEmpty) hstops
    rw [route_of_passable hlow hpass, Route.remains_along, foldl_along hlow.reached,
      descend?_updateAt hlow.reached]
    refine ⟨hsettles.trans (and_iff_right hpass).symm, grownBy_updateAt fun v hv => ?_,
      fun h => ⟨_, rfl, hreceived h⟩⟩
    obtain rfl : u = v := Option.some.inj (hlow.reached.symm.trans hv)
    exact hgrown.mono fun q d hd halike => (hd halike).imp_right fun hq => by rw [hq, List.append_nil]
  · rw [route_of_not_passable hlow hpass]
    exact ⟨iff_of_false nofun fun h => hpass h.1, .refl t, nofun⟩

end Tree

namespace Forest

/-- **A condition is put once, as far down as it may go.** Pushed down from a node, it does not remain with
the caller just when the joins on the way to the lowest node with its tables let it pass and this node keeps
it. Then that node has it, and no other list of filters or join conditions has got it; if it remains, none
has. Otherwise lists have at most grown at their ends, and nothing that is not below the node has changed. -/
theorem pushDown_places {f : Forest} {i : Nat} {t : Tree} (ht : f.tree? i = some t) (hsep : t.Separate)
    {c : Expr} (hc : c.tables ⊆ t.tables) (own : Bool) :
    ∃ f' remains t' path u, (f.pass? i (Tree.pushDown c own ∅)).map Reported.value = some (f', remains) ∧
      f.ChangedBelow i t f' t' ∧ t.Lowest c.tables path u ∧
      (remains = false ↔ t.Passable own path ∧ u.Settles (own && path.isEmpty)) ∧
      t.GrownBy (fun q d => d.Alike c → remains = false ∧ q = path) t' ∧
      (remains = false → ∃ u', t'.descend? path = some u' ∧ u.Received c u') := by
  obtain ⟨path, u, hlow⟩ := Tree.exists_lowest hsep hc
  obtain ⟨hremains, hgrown, hreceived⟩ := Tree.placed_of_lowest own hlow
  have hvalue : (f.pass? i (Tree.pushDown c own ∅)).map Reported.value =
      some (f.record ((t.route c own ∅).steps.foldl Tree.step t), (t.route c own ∅).remains) := by
    rw [pass?, ht, Option.map_some, Option.map_some, Reported.value_bind, Tree.value_pushDown]
    rfl
  exact ⟨_, _, _, path, u, hvalue, changedBelow_record ht hsep (Tree.outline_foldl_step _ t), hlow, hremains,
    hgrown, hreceived⟩

/-- `t0 ⟕ (t1 ⋈ t2)`, with all conditions taken off. -/
def nested : Tree :=
  let table (i : Nat) : Tree := .leaf i { table := ⟨i, "t"⟩ }
  .join 4 { kind := .left, conds := [] } (table 0)
    (.join 3 { kind := .inner, conds := [] } (table 1) (table 2))

/-- The condition `t1.x = t2.x`. -/
def nestedCond : Expr := (Dialect.sampleColumn 1).equals (Dialect.sampleColumn 2)

theorem pushDown_places_nested :
    (ofTree nested).tree? 4 = some nested ∧ nested.Separate ∧ nestedCond.tables ⊆ nested.tables ∧
      ∃ f' remains t' path u,
        ((ofTree nested).pass? 4 (Tree.pushDown nestedCond true ∅)).map Reported.value = some (f', remains) ∧
        (ofTree nested).ChangedBelow 4 nested f' t' ∧ nested.Lowest nestedCond.tables path u ∧
        (remains = false ↔ nested.Passable true path ∧ u.Settles (true && path.isEmpty)) ∧
        nested.GrownBy (fun q d => d.Alike nestedCond → remains = false ∧ q = path) t' ∧
        (remains = false → ∃ u', t'.descend? path = some u' ∧ u.Received nestedCond u') := by
  have hlower : (ofTree nested).tree? 3 = some _ :=
    tree?_of_join rfl (by decide) (by decide) (tree?_of_leaf rfl) (tree?_of_leaf rfl)
  have htree : (ofTree nested).tree? 4 = some nested :=
    tree?_of_join rfl (by decide) (by decide) (tree?_of_leaf rfl) hlower
  have hsep : nested.Separate := by decide
  have hc : nestedCond.tables ⊆ nested.tables := by decide
  exact ⟨htree, hsep, hc, pushDown_places htree hsep hc true⟩

/-- As a condition of the left join it goes to the inner join, which keeps it. -/
example : (nested.route nestedCond true ∅).remains = false := by decide

end Forest

end QueryGraph
