import QueryGraph.JoinGraph.Assembly
import QueryGraph.Proofs.Reordering.Separation

/-!
# The query in a tree

When a tree gets its nodes and rules, the query that it stands for stays the same. Without nodes and
rules (`bare`) it is the tree that it was before, and what it returns, what is visible of it and how
the verdicts on its joins turn out can be read off the bare tree.
-/

namespace QueryGraph

variable {R : Type} {m : Meaning R}

/-- The leaf without its node. -/
def Leaf.bare (l : Leaf) : Leaf := { l with nodes := ∅ }

/-- What the join carries apart from nodes and rules. -/
def JoinInfo.bare (info : JoinInfo) : JoinInfo :=
  { info with usedNodes := ∅, nodes := ∅, rules := [] }

namespace Tree

/-- The tree without nodes and rules. -/
def bare : Tree → Tree
  | leaf i l => leaf i l.bare
  | join i info l r => join i info.bare l.bare r.bare

@[simp] theorem rows_bare (m : Meaning R) (db : Contents R) (t : Tree) :
    t.bare.rows m db = t.rows m db := by
  induction t with
  | leaf i l => rfl
  | join i info l r ihl ihr =>
    rw [bare, rows, rows, ihl, ihr]
    rfl

@[simp] theorem tables_bare (t : Tree) : t.bare.tables = t.tables := by
  induction t with
  | leaf i l => rfl
  | join i info l r ihl ihr => rw [bare, tables, tables, ihl, ihr]

@[simp] theorem visible_bare (t : Tree) : t.bare.visible = t.visible := by
  induction t with
  | leaf i l => rfl
  | join i info l r ihl ihr =>
    rw [bare, visible, visible, ihl, ihr]
    rfl

@[simp] theorem separate_bare {t : Tree} : t.bare.Separate ↔ t.Separate := by
  induction t with
  | leaf i l => exact Iff.rfl
  | join i info l r ihl ihr => rw [bare, Separate, Separate, ihl, ihr, tables_bare, tables_bare]

@[simp] theorem scoped_bare {t : Tree} : t.bare.Scoped ↔ t.Scoped := by
  induction t with
  | leaf i l => exact Iff.rfl
  | join i info l r ihl ihr =>
    rw [bare, Scoped, Scoped, ihl, ihr, visible_bare, visible_bare]
    rfl

/-- The numbers of the tables of a tree, from left to right. -/
def numbers (t : Tree) : List Nat := t.leaves.map fun x => x.2.table.number

theorem numbers_join (i : Nat) (info : JoinInfo) (l r : Tree) :
    (join i info l r).numbers = l.numbers ++ r.numbers := List.map_append

end Tree

/-! ### Verdicts -/

/-- The join without nodes and rules. -/
def JoinNode.bare (n : JoinNode) : JoinNode := ⟨n.id, n.info.bare, n.left.bare, n.right.bare⟩

namespace JoinNode

theorem side_bare (n : JoinNode) (s : Side) : n.bare.side s = (n.side s).bare := by
  cases s <;> rfl

theorem operator_bare (n : JoinNode) : n.bare.operator = n.operator := by
  rw [operator, operator, bare, Tree.tables_bare, Tree.tables_bare]
  rfl

theorem exchanges_bare (n : JoinNode) (s : Side) (a : JoinNode) (sa : Side) :
    n.bare.exchanges s a.bare sa = n.exchanges s a sa := by
  cases s <;> cases sa <;> simp only [exchanges, operator_bare]

theorem refuses_bare {n : JoinNode} {s : Side} : n.bare.Refuses m s ↔ n.Refuses m s := by
  rw [Refuses, Refuses, side_bare, Tree.tables_bare]
  rfl

theorem exchangeable_bare {n a : JoinNode} {s sa : Side} :
    n.bare.Exchangeable m s a.bare sa ↔ n.Exchangeable m s a sa := by
  constructor
  · rintro ⟨hshown, hshown', hpasses, hpasses'⟩
    exact ⟨hshown, hshown', fun hk => (hpasses hk).imp_right refuses_bare.1,
      fun hk => (hpasses' hk).imp_right refuses_bare.1⟩
  · rintro ⟨hshown, hshown', hpasses, hpasses'⟩
    exact ⟨hshown, hshown', fun hk => (hpasses hk).imp_right refuses_bare.2,
      fun hk => (hpasses' hk).imp_right refuses_bare.2⟩

end JoinNode

namespace Tree

theorem joins_bare (t : Tree) : t.bare.joins = t.joins.map JoinNode.bare := by
  induction t with
  | leaf i l => rfl
  | join i info l r ihl ihr =>
    rw [bare, joins, joins, ihl, ihr, List.map_append, List.map_append]
    rfl

/-- Whether the verdicts are right can be seen from the bare tree. -/
theorem judgedRightly_bare {t : Tree} : t.bare.JudgedRightly m ↔ t.JudgedRightly m := by
  simp only [JudgedRightly, joins_bare, List.forall_mem_map, JoinNode.side_bare,
    JoinNode.exchanges_bare, JoinNode.exchangeable_bare, tables_bare]
  rfl

/-- The tree with its nodes and rules is bare the same. -/
theorem bare_addTree (est : Estimator) (t : Tree) (a : Assembly) :
    (Assembly.addTree est t a).value.1.bare = t.bare := by
  induction t generalizing a with
  | leaf i l => rfl
  | join i info l r ihl ihr =>
    have hl := ihl a
    have hr := ihr (Assembly.addTree est l a).value.2
    rw [Assembly.value_addTree_join]
    change join i _ (bare _) (bare _) = join i info.bare l.bare r.bare
    rw [hl, hr]
    rfl

end Tree

end QueryGraph
