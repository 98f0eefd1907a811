import QueryGraph.Proofs.Meaning.Restriction
import QueryGraph.Proofs.Pushdown.Steps
import QueryGraph.Proofs.Rows.Filters

/-!
# Pushing a condition through a join

What becomes of the rows of a join when one condition is pushed down from it.

## The model

The condition is one of the join (`own`) or a filter above it. `Pushable` says of a tree that pushing
a filter into it is right; here it is assumed of the two sides. A side that only gets copies is
filtered by something that the condition implies there, and by nothing else.

## What is proved

* `rowsWith_copied` — copies left below a join do not change the join with its condition.
* `route_join_cases` — what the way of a condition does to a join: it changes the sides such that
  the join with the condition returns the same rows, or makes a filter one of the join conditions.
-/

namespace QueryGraph

open BitSet

variable {R : Type}

/-- Rows of other tables do not matter to a condition. -/
theorem Meaning.holds_merge_left (m : Meaning R) {c : Expr} {ts us : TableSet} {b : Row R}
    (hc : c.tables ⊆ ts) (hb : b.Within us) (h : ∀ i ∈ ts, i ∉ us) (a : Row R) :
    m.holds c (a.merge b) = m.holds c a :=
  m.holds_congr c fun i hi => Row.agree_merge_left hb h a i (subset_iff.1 hc i hi)

/-- Rows of other tables do not matter to a condition. -/
theorem Meaning.holds_merge_right (m : Meaning R) {c : Expr} {ts us : TableSet} {a : Row R}
    (hc : c.tables ⊆ ts) (ha : a.Within us) (h : ∀ i ∈ ts, i ∉ us) (b : Row R) :
    m.holds c (a.merge b) = m.holds c b :=
  m.holds_congr c fun i hi => Row.agree_merge_right ha h b i (subset_iff.1 hc i hi)

namespace Tree

variable {m : Meaning R} {db : Contents R}

/-- The second tree is the first with a condition pushed down: filtered by the condition, it returns
the same rows, and it needs no filter any more if the condition does not remain. -/
structure Pushed (m : Meaning R) (db : Contents R) (c : Expr) (remains : Bool) (t t' : Tree) :
    Prop extends SameForm t t' where
  /-- Filtered by the condition, both return the same rows. -/
  filtered : ((t'.rows m db).filter fun a => m.holds c a) = (t.rows m db).filter fun a => m.holds c a
  /-- A condition that does not remain has been evaluated. -/
  gone : remains = false → t'.rows m db = (t.rows m db).filter fun a => m.holds c a

/-- Every filter on what is visible may be pushed into the tree. -/
def Pushable (m : Meaning R) (db : Contents R) (t : Tree) : Prop :=
  ∀ c : Expr, c.tables ⊆ t.visible →
    Pushed m db c (t.route c false ∅).remains t ((t.route c false ∅).steps.foldl step t)

/-! ### Copies -/

/-- A side of a join with what a condition implies there pushed into it. -/
def withPart (c : Expr) (t : Tree) : Tree :=
  match c.restrict t.tables with
  | some p => (t.route p false ∅).steps.foldl step t
  | none => t

/-- A side of a join with the copies of a condition, if the join lets them in. -/
def copied (c : Expr) (isOpen : Bool) (t other : Tree) : Tree :=
  if isOpen then
    (t.route c false (lookupParams c ∅ other.tables)).steps.foldl step (t.withPart c)
  else t

theorem foldl_partSteps_left (c : Expr) (i : Nat) (info : JoinInfo) (l r : Tree) :
    (partSteps c ∅ .left l).foldl step (join i info l r) = join i info (l.withPart c) r := by
  rw [partSteps, withPart]
  cases c.restrict l.tables with
  | none => rfl
  | some p => exact foldl_under_left _ i info l r

theorem foldl_partSteps_right (c : Expr) (i : Nat) (info : JoinInfo) (l r : Tree) :
    (partSteps c ∅ .right r).foldl step (join i info l r) = join i info l (r.withPart c) := by
  rw [partSteps, withPart]
  cases c.restrict r.tables with
  | none => rfl
  | some p => exact foldl_under_right _ i info l r

/-- Copies change the two sides of the join by themselves. -/
theorem foldl_copies (c : Expr) (own : Bool) (k : JoinKind) (i : Nat) (info : JoinInfo) (l r : Tree) :
    (copies c own ∅ k l r).foldl step (join i info l r) =
      join i info (copied c (k.opensLeft own) l r) (copied c (k.opensRight own) r l) := by
  unfold copies copied
  split_ifs <;> simp only [List.foldl_append, List.foldl_nil, lookupSteps, Route.under,
    foldl_partSteps_left, foldl_partSteps_right, foldl_under_left, foldl_under_right]

/-- A side with copies has lost some rows that fail something implied by the condition. -/
theorem rows_copied {c : Expr} {t : Tree} (other : Tree) (hpush : t.Pushable m db)
    (hvis : ∀ i ∈ c.tables, i ∈ t.tables → i ∈ t.visible) :
    SameForm t (copied c true t other) ∧ ∃ part : Row R → Bool,
      (∀ a, m.holds c a = true → part a = true) ∧
      (∀ a b, a.Agree t.tables b → part a = part b) ∧
      (((copied c true t other).rows m db).filter fun a => part a) =
        (t.rows m db).filter fun a => part a := by
  have hlookups : Unchanged m db (t.withPart c) (copied c true t other) :=
    unchanged_lookups (isLookup_route (lookupParams_ne_empty c (.inr other.tables_ne_empty)) t) _
  rw [hlookups.rows, withPart]
  rw [withPart] at hlookups
  split
  next p hp =>
    rw [hp] at hlookups
    have hsub : p.tables ⊆ t.visible := subset_iff.2 fun i hi =>
      hvis i (subset_iff.1 (Expr.tables_restrict_subset hp) i hi)
        (subset_iff.1 (Expr.tables_subset_of_restrict hp) i hi)
    have hpushed := hpush p hsub
    refine ⟨hpushed.toSameForm.trans hlookups.toSameForm, fun a => m.holds p a,
      fun a => m.holds_restrict hp, fun a b h => m.holds_congr p fun i hi => h i ?_, hpushed.filtered⟩
    exact subset_iff.1 (Expr.tables_subset_of_restrict hp) i hi
  next hp =>
    rw [hp] at hlookups
    exact ⟨hlookups.toSameForm, fun _ => true, fun _ _ => rfl, fun _ _ _ => rfl, rfl⟩

/-- Copies left below a join do not change the join with its condition. -/
theorem rowsWith_copied {c : Expr} {own : Bool} {k : JoinKind} {l r : Tree} (hl : l.Pushable m db)
    (hr : r.Pushable m db) (hsep : ∀ i ∈ l.tables, i ∉ r.tables)
    (hsemi : own = false → k.opensRight own = true → k ≠ .semi)
    (hvisl : ∀ i ∈ c.tables, i ∈ l.tables → i ∈ l.visible)
    (hvisr : ∀ i ∈ c.tables, i ∈ r.tables → i ∈ r.visible) :
    ∃ l' r', l' = copied c (k.opensLeft own) l r ∧ r' = copied c (k.opensRight own) r l ∧
      SameForm l l' ∧ SameForm r r' ∧
      ∀ p, k.rowsWith own p (fun a => m.holds c a) (l'.rows m db) (r'.rows m db) =
        k.rowsWith own p (fun a => m.holds c a) (l.rows m db) (r.rows m db) := by
  have hleft : ∃ l', l' = copied c (k.opensLeft own) l r ∧ SameForm l l' ∧
      ∀ p, k.rowsWith own p (fun a => m.holds c a) (l'.rows m db) (r.rows m db) =
        k.rowsWith own p (fun a => m.holds c a) (l.rows m db) (r.rows m db) := by
    cases hopen : k.opensLeft own with
    | false => exact ⟨l, rfl, .refl l, fun _ => rfl⟩
    | true =>
      obtain ⟨hform, part, himp, hlocal, hrows⟩ := rows_copied r hl hvisl
      refine ⟨_, rfl, hform, fun p => ?_⟩
      have hfilter (t : Tree) : k.rowsWith own p (fun a => m.holds c a)
          ((t.rows m db).filter fun a => part a) (r.rows m db) =
            k.rowsWith own p (fun a => m.holds c a) (t.rows m db) (r.rows m db) := by
        refine JoinKind.rowsWith_part_left hopen (fun a _ => himp a) fun a _ b hb hc => ?_
        rw [← hlocal _ _ (Row.agree_merge_left (within_tables m db r b hb) hsep a)]
        exact himp _ hc
      rw [← hfilter, hrows, hfilter]
  have hright : ∃ r', r' = copied c (k.opensRight own) r l ∧ SameForm r r' ∧
      ∀ p (l' : Tree), l'.tables = l.tables →
        k.rowsWith own p (fun a => m.holds c a) (l'.rows m db) (r'.rows m db) =
          k.rowsWith own p (fun a => m.holds c a) (l'.rows m db) (r.rows m db) := by
    cases hopen : k.opensRight own with
    | false => exact ⟨r, rfl, .refl r, fun _ _ _ => rfl⟩
    | true =>
      obtain ⟨hform, part, himp, hlocal, hrows⟩ := rows_copied l hr hvisr
      refine ⟨_, rfl, hform, fun p l' hl' => ?_⟩
      have hfilter (t : Tree) : k.rowsWith own p (fun a => m.holds c a) (l'.rows m db)
          ((t.rows m db).filter fun a => part a) =
            k.rowsWith own p (fun a => m.holds c a) (l'.rows m db) (t.rows m db) := by
        refine JoinKind.rowsWith_part_right hopen (fun hown => hsemi hown hopen)
          fun a ha b _ hc => ?_
        have hwithin : a.Within l.tables := hl' ▸ within_tables m db l' a ha
        rw [← hlocal _ _ (Row.agree_merge_right hwithin (fun i hi hil => hsep i hil hi) b)]
        exact himp _ hc
      rw [← hfilter, hrows, hfilter]
  obtain ⟨l', hl', hforml, hrowsl⟩ := hleft
  obtain ⟨r', hr', hformr, hrowsr⟩ := hright
  exact ⟨l', r', hl', hr', hforml, hformr, fun p =>
    (hrowsr p l' hforml.tables).trans (hrowsl p)⟩

/-! ### Whole conditions -/

/-- A condition on the left side alone may be pushed into that side. -/
theorem rowsWith_pushed_left {c : Expr} {own remains : Bool} {k : JoinKind} {l l' r : Tree}
    (hopen : k.opensLeft own = true) (hsep : ∀ i ∈ l.tables, i ∉ r.tables)
    (hc : c.tables ⊆ l.tables) (h : Pushed m db c remains l l') :
    (∀ p, k.rowsWith own p (fun a => m.holds c a) (l'.rows m db) (r.rows m db) =
        k.rowsWith own p (fun a => m.holds c a) (l.rows m db) (r.rows m db)) ∧
      (remains = false → ∀ p, k.rows p (l'.rows m db) (r.rows m db) =
        k.rowsWith own p (fun a => m.holds c a) (l.rows m db) (r.rows m db)) := by
  have hside (t : Tree) (p : Row R → Bool) :
      k.rowsWith own p (fun a => m.holds c a) (t.rows m db) (r.rows m db) =
        k.rows p ((t.rows m db).filter fun a => m.holds c a) (r.rows m db) :=
    JoinKind.rowsWith_left hopen fun a _ b hb =>
      m.holds_merge_left hc (within_tables m db r b hb) hsep a
  constructor
  · intro p
    rw [hside, hside, h.filtered]
  · intro hgone p
    rw [hside, h.gone hgone]

/-- A condition on the right side alone may be pushed into that side. -/
theorem rowsWith_pushed_right {c : Expr} {own remains : Bool} {k : JoinKind} {l r r' : Tree}
    (hopen : k.opensRight own = true) (hsemi : own = false → k ≠ .semi)
    (hsep : ∀ i ∈ l.tables, i ∉ r.tables) (hc : c.tables ⊆ r.tables)
    (h : Pushed m db c remains r r') :
    (∀ p, k.rowsWith own p (fun a => m.holds c a) (l.rows m db) (r'.rows m db) =
        k.rowsWith own p (fun a => m.holds c a) (l.rows m db) (r.rows m db)) ∧
      (remains = false → ∀ p, k.rows p (l.rows m db) (r'.rows m db) =
        k.rowsWith own p (fun a => m.holds c a) (l.rows m db) (r.rows m db)) := by
  have hside (t : Tree) (p : Row R → Bool) :
      k.rowsWith own p (fun a => m.holds c a) (l.rows m db) (t.rows m db) =
        k.rows p (l.rows m db) ((t.rows m db).filter fun a => m.holds c a) :=
    JoinKind.rowsWith_right hopen hsemi fun a ha b _ =>
      m.holds_merge_right hc (within_tables m db l a ha) (fun i hi hil => hsep i hil hi) b
  constructor
  · intro p
    rw [hside, hside, h.filtered]
  · intro hgone p
    rw [hside, h.gone hgone]

/-- The tables that a condition may read where it is pushed down from: all that is visible of the
two sides for a join condition, and what is visible of the join for a filter. -/
def offered (own : Bool) (k : JoinKind) (l r : Tree) : TableSet :=
  if own then l.visible ∪ r.visible else k.scope l.visible r.visible

theorem offered_subset (own : Bool) (k : JoinKind) (l r : Tree) :
    offered own k l r ⊆ l.visible ∪ r.visible := by
  unfold offered
  split
  · exact Subset.refl _
  · exact JoinKind.scope_subset _ _ k

/-- What the way of a condition does to a join. The sides are changed such that the join with the
condition returns the same rows, and the join alone does if the condition does not remain; or else
the sides are changed and a filter becomes a condition of an inner join. -/
theorem route_join_cases {c : Expr} {l r : Tree} (own : Bool) (i : Nat) (info : JoinInfo)
    (hl : l.Pushable m db) (hr : r.Pushable m db) (hsep : ∀ j ∈ l.tables, j ∉ r.tables)
    (hc : c.tables ⊆ offered own info.kind l r) :
    ∃ l' r', SameForm l l' ∧ SameForm r r' ∧
      (∀ p, info.kind.rowsWith own p (fun a => m.holds c a) (l'.rows m db) (r'.rows m db) =
        info.kind.rowsWith own p (fun a => m.holds c a) (l.rows m db) (r.rows m db)) ∧
      (((join i info l r).route c own ∅).steps.foldl step (join i info l r) = join i info l' r' ∧
          (((join i info l r).route c own ∅).remains = false → ∀ p,
            info.kind.rows p (l'.rows m db) (r'.rows m db) =
              info.kind.rowsWith own p (fun a => m.holds c a) (l.rows m db) (r.rows m db)) ∨
        own = false ∧ info.kind = .inner ∧ ((join i info l r).route c own ∅).remains = false ∧
          ((join i info l r).route c own ∅).steps.foldl step (join i info l r) =
            join i { info with conds := info.conds ++ [c] } l' r') := by
  have hvis := subset_iff.1 (Subset.trans hc (offered_subset own info.kind l r))
  have hvisl : ∀ j ∈ c.tables, j ∈ l.tables → j ∈ l.visible := fun j hj hjl =>
    (mem_union.1 (hvis j hj)).resolve_right fun hjr =>
      hsep j hjl (subset_iff.1 r.visible_subset j hjr)
  have hvisr : ∀ j ∈ c.tables, j ∈ r.tables → j ∈ r.visible := fun j hj hjr =>
    (mem_union.1 (hvis j hj)).resolve_left fun hjl =>
      hsep j (subset_iff.1 l.visible_subset j hjl) hjr
  -- a filter above a semijoin reads its left side alone
  have hsemi (hleft : ¬ c.tables ⊆ l.tables) : own = false → info.kind ≠ .semi := by
    rintro rfl hkind
    rw [hkind] at hc
    exact hleft (Subset.trans hc l.visible_subset)
  rw [route_join, union_empty, union_empty]
  split_ifs with hleft hopen hright hopen hparams hown
  · have hpushed := hl c (subset_iff.2 fun j hj => hvisl j hj (subset_iff.1 hleft j hj))
    obtain ⟨hkept, hgone⟩ := rowsWith_pushed_left hopen hsep hleft hpushed
    exact ⟨_, r, hpushed.toSameForm, .refl r, hkept, .inl ⟨foldl_under_left _ i info l r, hgone⟩⟩
  · exact ⟨l, r, .refl l, .refl r, fun _ => rfl, .inl ⟨rfl, nofun⟩⟩
  · have hpushed := hr c (subset_iff.2 fun j hj => hvisr j hj (subset_iff.1 hright j hj))
    obtain ⟨hkept, hgone⟩ := rowsWith_pushed_right hopen (hsemi hleft) hsep hright hpushed
    exact ⟨l, _, .refl l, hpushed.toSameForm, hkept, .inl ⟨foldl_under_right _ i info l r, hgone⟩⟩
  · exact ⟨l, r, .refl l, .refl r, fun _ => rfl, .inl ⟨rfl, nofun⟩⟩
  · exact absurd rfl hparams
  · obtain ⟨_, _, rfl, rfl, hforml, hformr, hkept⟩ :=
      rowsWith_copied hl hr hsep (fun h _ => hsemi hleft h) hvisl hvisr
    exact ⟨_, _, hforml, hformr, hkept, .inl ⟨foldl_copies c own info.kind i info l r, nofun⟩⟩
  · obtain ⟨_, _, rfl, rfl, hforml, hformr, hkept⟩ :=
      rowsWith_copied hl hr hsep (fun h _ => hsemi hleft h) hvisl hvisr
    simp only [Bool.or_eq_true, not_or, Bool.not_eq_true, JoinKind.outerLike] at hown
    have hinner : info.kind = .inner := by
      have hsemi' := hsemi hleft hown.1
      cases hkind : info.kind with
      | inner => rfl
      | semi => exact absurd hkind hsemi'
      | _ => rw [hkind] at hown; cases hown.2
    refine ⟨_, _, hforml, hformr, hkept, .inr ⟨hown.1, hinner, rfl, ?_⟩⟩
    rw [List.foldl_append, foldl_copies]
    rfl

end Tree

end QueryGraph
