import QueryGraph.Proofs.Meaning.Truth
import QueryGraph.Tree.Basic

/-!
# The rows of a join tree

What a join tree returns, for given contents of its tables.

## The model

A table returns its records, each as a row that takes it from this table, as far as they go through
the filters of the table. A join returns the rows of the join of its sides on all its conditions.
Lookups only say how a table could be read and have no meaning of their own.

The rows of a semijoin or an antijoin take nothing from its right side, so what is `visible` of a
tree may be less than its tables.

## What is proved

* `within_visible` — the rows of a tree take nothing from tables that are not visible.
-/

namespace QueryGraph

open BitSet

variable {R : Type}

/-- The records of the table of each number. -/
abbrev Contents (R : Type) := Nat → Multiset R

namespace Tree

/-- The rows that a tree returns. -/
def rows (m : Meaning R) (db : Contents R) : Tree → Bag R
  | leaf _ l =>
    ((db l.table.number).map (Row.single {l.table.number})).filter fun a => m.holdsAll l.filters a
  | join _ info l r => info.kind.rows (m.holdsAll info.allConds) (l.rows m db) (r.rows m db)

/-- The tables that the rows of a tree may take from. -/
def visible : Tree → TableSet
  | leaf _ l => {l.table.number}
  | join _ info l r => info.kind.scope l.visible r.visible

/-- No table is below both sides of a join. -/
def Separate : Tree → Prop
  | leaf _ _ => True
  | join _ _ l r => l.tables.overlaps r.tables = false ∧ l.Separate ∧ r.Separate

/-- The conditions of every join read what is visible of its two sides. -/
def Scoped : Tree → Prop
  | leaf _ _ => True
  | join _ info l r =>
    (∀ c ∈ info.allConds, c.tables ⊆ l.visible ∪ r.visible) ∧ l.Scoped ∧ r.Scoped

instance decidableSeparate : (t : Tree) → Decidable t.Separate
  | leaf _ _ => isTrue trivial
  | join _ _ l r =>
    have := decidableSeparate l
    have := decidableSeparate r
    inferInstanceAs (Decidable (_ ∧ _ ∧ _))

instance decidableScoped : (t : Tree) → Decidable t.Scoped
  | leaf _ _ => isTrue trivial
  | join _ _ l r =>
    have := decidableScoped l
    have := decidableScoped r
    inferInstanceAs (Decidable (_ ∧ _ ∧ _))

theorem tables_ne_empty (t : Tree) : t.tables ≠ ∅ := by
  induction t with
  | leaf i l => exact singleton_ne_empty l.table.number
  | join i info l r ihl _ =>
    obtain ⟨j, hj⟩ := ne_empty_iff.1 ihl
    exact ne_empty_iff.2 ⟨j, mem_union.2 (.inl hj)⟩

theorem visible_subset (t : Tree) : t.visible ⊆ t.tables := by
  induction t with
  | leaf i l => exact Subset.refl _
  | join i info l r ihl ihr =>
    refine Subset.trans (JoinKind.scope_subset _ _ _) (union_subset ?_ ?_)
    · exact Subset.trans ihl (subset_union_left l.tables r.tables)
    · exact Subset.trans ihr (subset_union_right l.tables r.tables)

/-- The rows of a tree take nothing from tables that are not visible. -/
theorem within_visible (m : Meaning R) (db : Contents R) (t : Tree) :
    ∀ a ∈ t.rows m db, a.Within t.visible := by
  induction t with
  | leaf i l =>
    intro a ha
    obtain ⟨r, -, rfl⟩ := Multiset.mem_map.1 (Multiset.mem_filter.1 ha).1
    exact Row.within_single _ r
  | join i info l r ihl ihr => exact JoinKind.within_rows info.kind ihl ihr

theorem within_tables (m : Meaning R) (db : Contents R) (t : Tree) :
    ∀ a ∈ t.rows m db, a.Within t.tables := fun a ha =>
  (within_visible m db t a ha).mono t.visible_subset

theorem not_mem_of_separate {i : Nat} {info : JoinInfo} {l r : Tree} (h : (join i info l r).Separate) :
    ∀ j ∈ l.tables, j ∉ r.tables := overlaps_eq_false_iff.1 h.1

end Tree

end QueryGraph
