import QueryGraph.Proofs.Forest.Recording

/-!
# The forest of a FROM list

The forest that a FROM list becomes, node by node.

## The model

A list is read from left to right. Every entry after the first brings its own nodes and then one join, of what
was there before it with what it brought, and a nested list is read like the list that it stands in
(`addList`). So the nodes come in postorder, and the whole forest is known from the tree of the list, whose
nodes are numbered in postorder without regard to any forest (`addList_eq_ofTree`).

The entries after the first of a list and of the lists in it are its `additions`, in the order in which they
are read. What one of them stands for is said by `MadeBy`, which looks at one join and not at the tree.

## What is proved

* `tree?_ofTree`, `exists_sides_ofTree` — a tree whose nodes are numbered in postorder is read back from its
  forest, and so is every join of it.
* `madeBy_ofList` — the joins of the tree of a list are made by the additions of the list, one by one.
* `faithful_ofList` — what the forest of a list has to do with the list.
-/

namespace QueryGraph

/-! ### Trees that are numbered in postorder -/

namespace Tree

variable {t : Tree} {start : Nat}

theorem length_subtrees (t : Tree) : t.subtrees.length = t.size := by
  induction t with
  | leaf i l => rfl
  | join i info l r ihl ihr =>
    rw [subtrees, List.length_append, List.length_append, ihl, ihr]
    rfl

theorem length_postorder (t : Tree) : t.postorder.length = t.size := by
  rw [postorder, List.length_map, length_subtrees]

/-- There is one node less than twice the tables. -/
theorem size_add_one (t : Tree) : t.size + 1 = 2 * t.leaves.length := by
  induction t with
  | leaf i l => rfl
  | join i info l r ihl ihr =>
    rw [size, leaves, List.length_append]
    omega

/-- The tables of a tree are those of its leaves. -/
theorem tables_eq_ofList (t : Tree) : t.tables = .ofList t.numbers := by
  refine BitSet.ext fun i => ?_
  rw [mem_tables_leaves, BitSet.ofList, BitSet.mem_unions]
  simp [numbers]

theorem id_mem_postorder (t : Tree) : t.id ∈ t.postorder := List.mem_map_of_mem t.mem_subtrees_self

/-- If the nodes are numbered in postorder, every join comes after its sides. -/
theorem rising_of_postorder (h : t.postorder = List.range' start t.size) : t.Rising := by
  induction t generalizing start with
  | leaf i l => trivial
  | join i info l r ihl ihr =>
    rw [postorder_join, size, List.range'_concat, Nat.one_mul, ← List.range'_append_1] at h
    obtain ⟨hsides, hi⟩ := List.append_inj' h rfl
    obtain ⟨hl, hr⟩ := List.append_inj hsides (by rw [length_postorder, List.length_range'])
    have hidl := List.mem_range'_1.1 (hl ▸ l.id_mem_postorder)
    have hidr := List.mem_range'_1.1 (hr ▸ r.id_mem_postorder)
    have hi : i = start + (l.size + r.size) := List.head_eq_of_cons_eq hi
    exact ⟨by omega, by omega, ihl hl, ihr hr⟩

end Tree

namespace Forest

section

variable {t : Tree} (h : t.postorder = List.range' 0 t.size)

include h

/-- Every node is at the place of its number. -/
theorem id_of_getElem?_subtrees {u : Tree} {k : Nat} (hk : t.subtrees[k]? = some u) : u.id = k := by
  have hid : t.postorder[k]? = some u.id := by rw [Tree.postorder, List.getElem?_map, hk, Option.map_some]
  have hlt : k < t.size := by
    rw [← t.length_postorder]
    exact (List.getElem?_eq_some_iff.1 hid).1
  rw [h, List.getElem?_range' hlt, Option.some.injEq] at hid
  omega

theorem entries_ofTree {u : Tree} (hu : u ∈ t.subtrees) : (ofTree t).entries[u.id]? = some (entryOf u) := by
  obtain ⟨k, hk⟩ := List.mem_iff_getElem?.1 hu
  rw [id_of_getElem?_subtrees h hk, ofTree, List.getElem?_map, hk, Option.map_some]

/-- The tree is read back from its forest. -/
theorem tree?_ofTree : (ofTree t).tree? (ofTree t).root = some t :=
  tree?_of_entries (Tree.rising_of_postorder h) fun _ hu => entries_ofTree h hu

/-- Every join comes after its two sides and is read back with them. -/
theorem exists_sides_ofTree {i l r : Nat} {info : JoinInfo}
    (hentry : (ofTree t).entries[i]? = some (.join info l r)) :
    l < i ∧ r < i ∧ ∃ a b, (ofTree t).tree? i = some (.join i info a b) ∧ (ofTree t).tree? l = some a ∧
      (ofTree t).tree? r = some b := by
  have hplace := hentry
  rw [ofTree, List.getElem?_map] at hplace
  obtain ⟨u, hu, -⟩ := Option.map_eq_some_iff.1 hplace
  have hread := tree?_of_mem_subtrees (tree?_ofTree h) u (List.mem_of_getElem? hu)
  rw [id_of_getElem?_subtrees h hu] at hread
  obtain ⟨k, hk, -⟩ | ⟨info', j, k, a, b, hj, hl, hr, ha, hb, rfl⟩ := tree?_eq_some hread
  · cases hentry.symm.trans hk
  · cases hentry.symm.trans hj
    exact ⟨hl, hr, a, b, hread, ha, hb⟩

theorem ordered_ofTree : (ofTree t).Ordered := by
  intro i info l r hentry
  obtain ⟨hl, hr, -⟩ := exists_sides_ofTree h hentry
  exact ⟨hl, hr⟩

end

theorem size_ofTree (t : Tree) : (ofTree t).size = t.size := (List.length_map _).trans t.length_subtrees

/-! ### One node after the other -/

mutual

/-- The forest with the nodes of a list, the last of which is the root. -/
def addList (f : Forest) : FromList → Forest
  | .single item => f.addItem item
  | .join before item cond outer =>
    let g := f.addList before
    let h := g.addItem item
    h.add (.join { kind := Tree.joinKind outer item, conds := Expr.conjunctsOf cond } g.root h.root)

/-- The forest with the nodes of an item. -/
def addItem (f : Forest) : FromItem → Forest
  | .table t => f.addTable t
  | .nest _ list => f.addList list

end

/-- The forest with the nodes of a tree at its end. -/
def append (f : Forest) (t : Tree) : Forest := ⟨f.entries ++ t.subtrees.map entryOf, t.id⟩

theorem size_append (f : Forest) (t : Tree) : (f.append t).size = f.size + t.size := by
  rw [size, append, List.length_append, List.length_map, Tree.length_subtrees, size]

/-- A join comes after the nodes of its sides. -/
theorem append_join (f : Forest) (l r : Tree) (info : JoinInfo) :
    f.append (.join (f.size + l.size + r.size) info l r) =
      ((f.append l).append r).add (.join info l.id r.id) := by
  have hsize : ((f.append l).append r).entries.length = f.size + l.size + r.size := by
    rw [← size, size_append, size_append]
  rw [add, hsize, append, append, append]
  simp only [Tree.subtrees, List.map_append, List.map_singleton, entryOf, List.append_assoc, Tree.id]

mutual

/-- A list brings the nodes of its tree, numbered from the first free number on. -/
theorem addList_eq_append (f : Forest) :
    (list : FromList) → f.addList list = f.append (Tree.ofListFrom f.size list)
  | .single item => addItem_eq_append f item
  | .join before item cond outer => by
    rw [addList, addList_eq_append f before, addItem_eq_append, size_append, Tree.ofListFrom, append_join]
    rfl

/-- An item brings the nodes of its tree. -/
theorem addItem_eq_append (f : Forest) :
    (item : FromItem) → f.addItem item = f.append (Tree.ofItemFrom f.size item)
  | .table _ => rfl
  | .nest _ list => addList_eq_append f list

end

/-- Read into an empty forest, a list leaves the forest of its tree. -/
theorem addList_eq_ofTree (list : FromList) : addList {} list = ofTree (Tree.ofList list) :=
  addList_eq_append {} list

end Forest

/-! ### Entries and joins -/

namespace FromList

/-- An entry after the first of a list: the item, how it is joined, and what comes before it in the list. -/
structure Addition where
  /-- The entries before it. -/
  before : FromList
  /-- The item. -/
  item : FromItem
  /-- The condition on which it is joined, if there is one. -/
  cond : Option Expr
  /-- Whether it is joined by an outer join. -/
  outer : Bool

mutual

/-- The entries after the first of the list and of the lists in it, a nested list at its place. -/
def additions : FromList → List Addition
  | single item => itemAdditions item
  | join before item cond outer => before.additions ++ itemAdditions item ++ [⟨before, item, cond, outer⟩]

/-- The entries after the first of the list in an item. -/
def itemAdditions : FromItem → List Addition
  | .table _ => []
  | .nest _ list => list.additions

end

end FromList

open FromList (Addition itemTables itemAdditions)

/-- The join is that of an entry: it joins what the entry stands for to everything before it. -/
structure JoinNode.MadeBy (n : JoinNode) (a : Addition) : Prop where
  /-- On the left is the tree of everything before the entry. -/
  left_eq : ∃ start, n.left = Tree.ofListFrom start a.before
  /-- It has the tables of everything before the entry. -/
  left_tables : n.left.leaves.map (fun x => x.2.table) = a.before.tables
  /-- On the right is the tree of the item. -/
  right_eq : ∃ start, n.right = Tree.ofItemFrom start a.item
  /-- It has the tables of the item. -/
  right_tables : n.right.leaves.map (fun x => x.2.table) = itemTables a.item
  /-- A subquery that asks for a partner is joined by a semijoin, whatever else the entry says. -/
  kind_semi : ∀ list, a.item = .nest .semi list → n.info.kind = .semi
  /-- A subquery that asks for the lack of a partner is joined by an antijoin. -/
  kind_anti : ∀ list, a.item = .nest .anti list → n.info.kind = .anti
  /-- Other items are joined by an outer join or an inner join, as the entry says. -/
  kind_other : a.item.isSubquery = false → n.info.kind = if a.outer then .left else .inner
  /-- The conditions of the join are the conjuncts of that of the entry. -/
  conds_eq : n.info.conds = Expr.conjunctsOf a.cond
  /-- None of them is a conjunction itself. -/
  conds_flat : ∀ c ∈ n.info.conds, ∀ args, c ≠ .and args

theorem Expr.ne_and_of_mem_conjuncts {e c : Expr} (h : c ∈ e.conjuncts) (args : List Expr) : c ≠ and args := by
  induction e generalizing c with
  | and es ih =>
    rw [conjuncts, conjuncts.list_eq_flatMap] at h
    obtain ⟨e, he, hc⟩ := List.mem_flatMap.1 h
    exact ih e he hc
  | _ =>
    obtain rfl := List.mem_singleton.1 h
    intro heq
    cases heq

theorem Expr.ne_and_of_mem_conjunctsOf {e? : Option Expr} {c : Expr} (h : c ∈ conjunctsOf e?)
    (args : List Expr) : c ≠ and args := by
  cases e? with
  | none => cases h
  | some e => exact ne_and_of_mem_conjuncts h args

namespace Tree

mutual

/-- The leaves of the tree of a list are its tables. -/
theorem map_table_ofListFrom (start : Nat) :
    (list : FromList) → (ofListFrom start list).leaves.map (fun x => x.2.table) = list.tables
  | .single item => map_table_ofItemFrom start item
  | .join before item cond outer => by
    rw [ofListFrom, leaves, List.map_append, map_table_ofListFrom, map_table_ofItemFrom, FromList.tables]

theorem map_table_ofItemFrom (start : Nat) :
    (item : FromItem) → (ofItemFrom start item).leaves.map (fun x => x.2.table) = itemTables item
  | .table _ => rfl
  | .nest _ list => map_table_ofListFrom start list

end

/-- The join that an entry brings. -/
theorem madeBy_join (before : FromList) (item : FromItem) (cond : Option Expr) (outer : Bool)
    (left right i : Nat) : JoinNode.MadeBy
      ⟨i, { kind := joinKind outer item, conds := Expr.conjunctsOf cond }, ofListFrom left before,
        ofItemFrom right item⟩ ⟨before, item, cond, outer⟩ where
  left_eq := ⟨left, rfl⟩
  left_tables := map_table_ofListFrom left before
  right_eq := ⟨right, rfl⟩
  right_tables := map_table_ofItemFrom right item
  kind_semi list h := by
    obtain rfl : item = .nest .semi list := h
    rfl
  kind_anti list h := by
    obtain rfl : item = .nest .anti list := h
    rfl
  kind_other h := by
    show joinKind outer item = _
    unfold joinKind
    split
    · cases h
    · cases h
    · rfl
  conds_eq := rfl
  conds_flat _ hc := Expr.ne_and_of_mem_conjunctsOf hc

mutual

/-- The joins of the tree of a list are made by the entries after the first, one by one. -/
theorem madeBy_ofListFrom (start : Nat) :
    (list : FromList) → List.Forall₂ JoinNode.MadeBy (ofListFrom start list).joins list.additions
  | .single item => madeBy_ofItemFrom start item
  | .join before item cond outer =>
    List.rel_append (List.rel_append (madeBy_ofListFrom start before) (madeBy_ofItemFrom _ item))
      (.cons (madeBy_join before item cond outer _ _ _) .nil)

theorem madeBy_ofItemFrom (start : Nat) :
    (item : FromItem) → List.Forall₂ JoinNode.MadeBy (ofItemFrom start item).joins (itemAdditions item)
  | .table _ => .nil
  | .nest _ list => madeBy_ofListFrom start list

end

/-- The joins of the tree of a list are made by the entries after the first, one by one. -/
theorem madeBy_ofList (list : FromList) : List.Forall₂ JoinNode.MadeBy (ofList list).joins list.additions :=
  madeBy_ofListFrom 0 list

theorem separate_of_mem_joins {t : Tree} (h : t.Separate) {n : JoinNode} (hn : n ∈ t.joins) :
    n.tree.Separate := by
  induction t using inductSides with
  | leaf i l => exact nomatch hn
  | join a ih =>
    rcases mem_joins_tree.1 hn with rfl | ⟨s, hs⟩
    · exact h
    · exact ih s (separate_side h s) hs

end Tree

/-! ### The forest of a list -/

/-- The forest is a faithful picture of the list, with the tree `t` in it. -/
structure Forest.Faithful (f : Forest) (t : Tree) (list : FromList) : Prop where
  /-- It comes about by adding the nodes of the list one after the other. -/
  grown : f = Forest.addList {} list
  /-- It has one node less than twice the tables. -/
  size_eq : f.size + 1 = 2 * list.tables.length
  /-- Both sides of every join come before the join. -/
  ordered : f.Ordered
  /-- The tree is what is found below the root. -/
  tree_eq : f.tree? f.root = some t
  /-- In it is every node of the forest, and none twice. -/
  postorder_eq : t.postorder = List.range f.size
  /-- Its leaves are the tables of the list, from left to right. -/
  tables_eq : t.leaves.map (fun x => x.2.table) = list.tables
  /-- The tables below a node are those of the leaves below it. -/
  tables_below : ∀ u ∈ t.subtrees, u.tables = .ofList u.numbers
  /-- Every join of the forest is read back with its two sides, and the tables below it are those of both
  sides. -/
  tables_join : ∀ i info l r, f.entries[i]? = some (.join info l r) → ∃ u a b, f.tree? i = some u ∧
    f.tree? l = some a ∧ f.tree? r = some b ∧ u.tables = a.tables ∪ b.tables
  /-- No table is on both sides of a join, if the tables of the list are distinct. -/
  tables_apart : (list.tables.map Table.number).Nodup → (∀ i ∈ list.tables.map Table.number, i < 64) →
    ∀ n ∈ t.joins, n.left.tables.overlaps n.right.tables = false
  /-- The joins are those of the entries after the first of the list and of the lists in it, one by one. -/
  joins_eq : List.Forall₂ JoinNode.MadeBy t.joins list.additions

/-- **A FROM list becomes a faithful forest.** -/
theorem Forest.faithful_ofList (list : FromList) :
    (Forest.ofTree (Tree.ofList list)).Faithful (Tree.ofList list) list := by
  have hpostorder := Tree.postorder_ofList list
  have htables := Tree.map_table_ofListFrom 0 list
  constructor
  case grown => exact (addList_eq_ofTree list).symm
  case size_eq => rw [size_ofTree, Tree.size_add_one, ← htables, List.length_map, Tree.ofList]
  case ordered => exact ordered_ofTree hpostorder
  case tree_eq => exact tree?_ofTree hpostorder
  case postorder_eq => rw [hpostorder, size_ofTree, List.range_eq_range']
  case tables_eq => exact htables
  case tables_below => exact fun u _ => u.tables_eq_ofList
  case tables_join =>
    intro i info l r hentry
    obtain ⟨-, -, a, b, hi, ha, hb⟩ := exists_sides_ofTree hpostorder hentry
    exact ⟨_, a, b, hi, ha, hb, rfl⟩
  case tables_apart =>
    intro hnodup hnumbers n hn
    rw [← Tree.numbers_ofList] at hnodup hnumbers
    exact (Tree.separate_of_mem_joins (Tree.separate_of_nodup hnumbers hnodup) hn).1
  case joins_eq => exact Tree.madeBy_ofList list

/-- `t0 LEFT JOIN (t1, t2) ON t0.x = t1.x AND t0.x = t2.x`, with a partner asked for in `t3`. The entry of the
subquery is marked as an outer join. -/
def nestedList : FromList :=
  let table (i : Nat) : FromItem := .table ⟨i, "t"⟩
  let x (i : Nat) : Expr := .column ⟨i, "t", "x", .int⟩
  let pair : FromList := .join (.single (table 1)) (table 2) none false
  .join (.join (.single (table 0)) (.nest .plain pair)
    (some (.and [(x 0).equals (x 1), (x 0).equals (x 2)])) true)
    (.nest .semi (.single (table 3))) (some ((x 2).equals (x 3))) true

theorem Forest.faithful_ofList_nested :
    let t := Tree.ofList nestedList
    (nestedList.tables.map Table.number).Nodup ∧ (∀ i ∈ nestedList.tables.map Table.number, i < 64) ∧
      (Forest.ofTree t).Faithful t nestedList ∧
      ∀ n ∈ t.joins, n.left.tables.overlaps n.right.tables = false := by
  intro t
  have hnodup : (nestedList.tables.map Table.number).Nodup := by decide
  have hnumbers : ∀ i ∈ nestedList.tables.map Table.number, i < 64 := by decide
  have hfaithful := faithful_ofList nestedList
  exact ⟨hnodup, hnumbers, hfaithful, hfaithful.tables_apart hnodup hnumbers⟩

/-- The join in brackets comes first, and the subquery is joined by a semijoin. -/
example : (Tree.ofList nestedList).kinds = [.inner, .left, .semi] := by decide

end QueryGraph
