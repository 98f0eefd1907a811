import Mathlib.Logic.Relation
import QueryGraph.Proofs.Forest.Recording
import QueryGraph.Proofs.Iterators

/-!
# Walking over a forest

The nodes below a node as the walk with a stack visits them.

## The model

The walk is an iterator. Each call takes the top off the stack until a node comes up that is marked, and
returns that node; a node without a mark is put back with one, below its two sides if it is a join (`Next`).
So the stack may become higher while the walk goes on. `Next` says what a call returns without a look at the
numbers of the nodes: in a forest where a join is its own side a call need not return, and then `Next` holds
of nothing.

What is below a node is said without any order, by steps from a join to one of its sides (`Below`).

## What is proved

* `yields_walkFrom` — if all joins come after their sides, every stack is worked off.
* `walkFrom_of_tree?` — what is on the stack for a node is the postorder of the tree below it.
* `nodup_postorder_iff` — no node is visited twice just if none is a side in two places.
* `walked_of_ordered` — what the walk from a node has to do with the tree below it.
-/

namespace QueryGraph

namespace Forest

variable {f : Forest} {i j k : Nat} {t : Tree}

/-! ### Sides -/

/-- The second node is one of the two sides of the first. -/
def IsSide (f : Forest) (i j : Nat) : Prop := ∃ l r, f.sides? i = some (l, r) ∧ (j = l ∨ j = r)

/-- The second node is the first, or is below one of its sides. -/
def Below (f : Forest) : Nat → Nat → Prop := Relation.ReflTransGen f.IsSide

/-- No node is found in two places below the node. -/
structure Unshared (f : Forest) (i : Nat) : Prop where
  /-- The two sides of a join are different nodes. -/
  sides_ne : ∀ j l r, f.Below i j → f.sides? j = some (l, r) → l ≠ r
  /-- A node is a side of one join only. -/
  joins_eq : ∀ j j' k, f.Below i j → f.Below i j' → f.IsSide j k → f.IsSide j' k → j = j'

theorem sides?_of_join {info : JoinInfo} {l r : Nat} (h : f.entries[i]? = some (.join info l r)) :
    f.sides? i = some (l, r) := by
  rw [sides?, h]

theorem sides?_of_leaf {l : Leaf} (h : f.entries[i]? = some (.leaf l)) : f.sides? i = none := by
  rw [sides?, h]

theorem leaf?_of_leaf {l : Leaf} (h : f.entries[i]? = some (.leaf l)) : f.leaf? i = some l := by
  rw [leaf?, h]

theorem leaf?_of_join {info : JoinInfo} {l r : Nat} (h : f.entries[i]? = some (.join info l r)) :
    f.leaf? i = none := by
  rw [leaf?, h]

theorem entry_of_sides? {l r : Nat} (h : f.sides? i = some (l, r)) :
    ∃ info, f.entries[i]? = some (.join info l r) := by
  unfold sides? at h
  split at h
  next info l' r' hentry =>
    cases h
    exact ⟨info, hentry⟩
  next => cases h

theorem isSide_iff {l r : Nat} (h : f.sides? i = some (l, r)) : f.IsSide i j ↔ j = l ∨ j = r := by
  constructor
  · rintro ⟨l', r', h', hj⟩
    cases h.symm.trans h'
    exact hj
  · exact fun hj => ⟨l, r, h, hj⟩

theorem below_refl (f : Forest) (i : Nat) : f.Below i i := Relation.ReflTransGen.refl

/-- What is below a join is the join itself and what is below its sides. -/
theorem below_iff_of_sides? {l r : Nat} (h : f.sides? i = some (l, r)) :
    f.Below i k ↔ k = i ∨ f.Below l k ∨ f.Below r k := by
  rw [Below, Relation.ReflTransGen.cases_head_iff]
  refine or_congr eq_comm ?_
  constructor
  · rintro ⟨c, hc, hk⟩
    rcases (isSide_iff h).1 hc with rfl | rfl
    · exact .inl hk
    · exact .inr hk
  · rintro (hk | hk)
    · exact ⟨l, (isSide_iff h).2 (.inl rfl), hk⟩
    · exact ⟨r, (isSide_iff h).2 (.inr rfl), hk⟩

/-- Below a table there is only the table. -/
theorem below_iff_of_leaf {l : Leaf} (h : f.entries[i]? = some (.leaf l)) : f.Below i k ↔ k = i := by
  rw [Below, Relation.ReflTransGen.cases_head_iff, eq_comm]
  refine or_iff_left ?_
  rintro ⟨c, ⟨l, r, hsides, -⟩, -⟩
  cases (sides?_of_leaf h).symm.trans hsides

theorem lt_of_isSide (ho : f.Ordered) (h : f.IsSide i j) : j < i := by
  obtain ⟨l, r, hsides, hj⟩ := h
  obtain ⟨info, hentry⟩ := entry_of_sides? hsides
  obtain ⟨hl, hr⟩ := ho i info l r hentry
  rcases hj with rfl | rfl
  · exact hl
  · exact hr

theorem le_of_below (ho : f.Ordered) (h : f.Below i j) : j ≤ i := by
  induction h with
  | refl => exact Nat.le_refl i
  | tail _ hside ih => exact Nat.le_trans (Nat.le_of_lt (lt_of_isSide ho hside)) ih

/-- Below every node of an ordered forest there is a tree. -/
theorem exists_tree? (ho : f.Ordered) (hi : i < f.size) : ∃ t, f.tree? i = some t := by
  induction i using Nat.strongRecOn with
  | _ i ih =>
    cases hentry : f.entries[i]? with
    | none => exact absurd hi (Nat.not_lt.2 (List.getElem?_eq_none_iff.1 hentry))
    | some e =>
      cases e with
      | leaf l => exact ⟨_, tree?_of_leaf hentry⟩
      | join info l r =>
        obtain ⟨hl, hr⟩ := ho i info l r hentry
        obtain ⟨left, hleft⟩ := ih l hl (Nat.lt_trans hl hi)
        obtain ⟨right, hright⟩ := ih r hr (Nat.lt_trans hr hi)
        exact ⟨_, tree?_of_join hentry hl hr hleft hright⟩

/-! ### Call after call -/

/-- What one call returns for a stack: the node that it visits together with the stack that is left, or nothing.
It only gets past nodes that exist. -/
inductive Next (f : Forest) : List (Nat × Bool) → Option (Nat × List (Nat × Bool)) → Prop where
  /-- The stack is empty. -/
  | done : Next f [] none
  /-- A node with a mark is visited. -/
  | visit (i : Nat) (stack : List (Nat × Bool)) : Next f ((i, true) :: stack) (some (i, stack))
  /-- A table is put back with a mark. -/
  | leaf {i : Nat} {l : Leaf} {stack : List (Nat × Bool)} {o : Option (Nat × List (Nat × Bool))} :
    f.leaf? i = some l → Next f ((i, true) :: stack) o → Next f ((i, false) :: stack) o
  /-- A join is put back with a mark, below its two sides. -/
  | join {i l r : Nat} {stack : List (Nat × Bool)} {o : Option (Nat × List (Nat × Bool))} :
    f.sides? i = some (l, r) → Next f ((l, false) :: (r, false) :: (i, true) :: stack) o →
      Next f ((i, false) :: stack) o

theorem leaf?_eq_none_of_sides? {l r : Nat} (h : f.sides? i = some (l, r)) : f.leaf? i = none := by
  obtain ⟨info, hentry⟩ := entry_of_sides? h
  exact leaf?_of_join hentry

/-- A call returns one thing only. -/
theorem Next.unique {stack : List (Nat × Bool)} {o o' : Option (Nat × List (Nat × Bool))}
    (h : f.Next stack o) (h' : f.Next stack o') : o = o' := by
  induction h with
  | done =>
    cases h'
    rfl
  | visit i stack =>
    cases h'
    rfl
  | leaf hleaf _ ih =>
    cases h' with
    | leaf _ h' => exact ih h'
    | join hsides _ => cases hleaf.symm.trans (leaf?_eq_none_of_sides? hsides)
  | join hsides _ ih =>
    cases h' with
    | leaf hleaf _ => cases hleaf.symm.trans (leaf?_eq_none_of_sides? hsides)
    | join hsides' h' =>
      cases hsides.symm.trans hsides'
      exact ih h'

/-- In an ordered forest every stack of nodes is worked off. -/
theorem yields_walkFrom (ho : f.Ordered) (stack : List (Nat × Bool)) (hstack : ∀ x ∈ stack, x.1 < f.size) :
    Yields f.Next stack (f.walkFrom stack) := by
  induction stack using walkFrom.induct f with
  | case1 =>
    rw [walkFrom]
    exact .done .done
  | case2 i stack ih =>
    rw [walkFrom]
    exact .more (.visit i stack) (ih (List.forall_mem_cons.1 hstack).2)
  | case3 i stack hsides ih =>
    obtain ⟨hi, hrest⟩ := List.forall_mem_cons.1 hstack
    obtain ⟨t, ht⟩ := exists_tree? ho hi
    obtain ⟨l, hentry, -⟩ | ⟨info, l, r, -, -, hentry, -⟩ := tree?_eq_some ht
    · rw [walkFrom, hsides]
      exact .of_next (fun _ => .leaf (leaf?_of_leaf hentry)) (ih (List.forall_mem_cons.2 ⟨hi, hrest⟩))
    · cases hsides.symm.trans (sides?_of_join hentry)
  | case4 i stack l r hsides hlt ih =>
    obtain ⟨hi, hrest⟩ := List.forall_mem_cons.1 hstack
    rw [walkFrom, hsides]
    simp only [hlt, and_self, dif_pos]
    refine .of_next (fun _ => .join hsides) (ih ?_)
    simp only [List.forall_mem_cons]
    exact ⟨Nat.lt_trans hlt.1 hi, Nat.lt_trans hlt.2 hi, hi, hrest⟩
  | case5 i stack l r hsides hlt ih =>
    obtain ⟨info, hentry⟩ := entry_of_sides? hsides
    exact absurd (ho i info l r hentry) hlt

/-! ### The order of the nodes -/

/-- A node on the stack is worked off by visiting the tree below it in postorder. -/
theorem walkFrom_of_tree? (h : f.tree? i = some t) (stack : List (Nat × Bool)) :
    f.walkFrom ((i, false) :: stack) = t.postorder ++ f.walkFrom stack := by
  induction h using tree?_induction generalizing stack with
  | leaf i l h =>
    rw [walkFrom, sides?_of_leaf h, walkFrom]
    rfl
  | join i info j k l r h hj hk hl hr ihl ihr =>
    rw [walkFrom, sides?_of_join h]
    simp only [hj, hk, and_self, dif_pos]
    rw [ihl, ihr, walkFrom, Tree.postorder_join]
    simp only [List.append_assoc, List.singleton_append]

theorem walk_eq_postorder (h : f.tree? i = some t) : f.walk i = t.postorder := by
  rw [walk, walkFrom_of_tree? h, walkFrom, List.append_nil]

/-- All nodes below a node are visited, and no others. -/
theorem mem_postorder_iff (h : f.tree? i = some t) : k ∈ t.postorder ↔ f.Below i k := by
  induction h using tree?_induction with
  | leaf i l h => exact List.mem_singleton.trans (below_iff_of_leaf h).symm
  | join i info l r left right h _ _ _ _ ihl ihr =>
    rw [Tree.postorder_join, List.mem_append, List.mem_append, List.mem_singleton, ihl, ihr,
      below_iff_of_sides? (sides?_of_join h), or_comm]

/-- Of the nodes of the list, every join comes after its two sides. -/
def SidesFirst (f : Forest) (ks : List Nat) : Prop :=
  ∀ before j after, ks = before ++ j :: after → ∀ l r, f.sides? j = some (l, r) → l ∈ before ∧ r ∈ before

theorem SidesFirst.append {ks ls : List Nat} (hks : f.SidesFirst ks)
    (hls : ∀ before j after, ls = before ++ j :: after → ∀ l r, f.sides? j = some (l, r) →
      l ∈ ks ++ before ∧ r ∈ ks ++ before) : f.SidesFirst (ks ++ ls) := by
  intro before j after heq
  rcases List.append_eq_append_iff.1 heq with ⟨rest, rfl, hrest⟩ | ⟨rest, hrest, hafter⟩
  · exact hls rest j after hrest
  · cases rest with
    | nil =>
      rw [List.append_nil] at hrest
      simpa only [hrest, List.append_nil] using hls [] j after hafter.symm
    | cons j' rest =>
      cases hafter
      exact hks before j rest hrest

/-- A single node comes after what is there before it, if its sides do. -/
theorem SidesFirst.snoc {ks : List Nat} (hks : f.SidesFirst ks)
    (h : ∀ l r, f.sides? i = some (l, r) → l ∈ ks ∧ r ∈ ks) : f.SidesFirst (ks ++ [i]) := by
  refine hks.append fun before j after heq l r hsides => ?_
  obtain ⟨rfl, ⟨⟩⟩ := List.append_eq_singleton_iff.1 heq.symm |>.resolve_right (by simp)
  rw [List.append_nil]
  exact h l r hsides

theorem sidesFirst_postorder (h : f.tree? i = some t) : f.SidesFirst t.postorder := by
  induction h using tree?_induction with
  | leaf i l h =>
    have hnil : f.SidesFirst [] := fun before j after heq =>
      absurd heq.symm (List.append_ne_nil_of_right_ne_nil before (List.cons_ne_nil j after))
    refine hnil.snoc fun l r hsides => ?_
    cases (sides?_of_leaf h).symm.trans hsides
  | join i info j k l r h hj hk hl hr ihl ihr =>
    rw [Tree.postorder_join]
    refine .snoc (.append ihl fun before n after heq m m' hsides => ?_) fun m m' hsides => ?_
    · exact (ihr before n after heq m m' hsides).imp (List.mem_append_right _) (List.mem_append_right _)
    · cases (sides?_of_join h).symm.trans hsides
      rw [List.mem_append, List.mem_append]
      exact ⟨.inl ((mem_postorder_iff hl).2 (f.below_refl j)), .inr ((mem_postorder_iff hr).2 (f.below_refl k))⟩

/-! ### Nodes in two places -/

section

variable {l r : Nat} (ho : f.Ordered) (h : f.sides? i = some (l, r))

include ho h

/-- If no node is found in two places below a join, none is below both of its sides. -/
theorem Unshared.of_join (hu : f.Unshared i) :
    f.Unshared l ∧ f.Unshared r ∧ ∀ k, f.Below l k → ¬ f.Below r k := by
  have hside {k : Nat} (hk : f.Below l k ∨ f.Below r k) : f.Below i k := (below_iff_of_sides? h).2 (.inr hk)
  have hl : f.IsSide i l := (isSide_iff h).2 (.inl rfl)
  have hr : f.IsSide i r := (isSide_iff h).2 (.inr rfl)
  -- what is a side of the join is a side of nothing below it
  have hroot {n m : Nat} (hn : f.Below l n ∨ f.Below r n) (him : f.IsSide i m) : ¬ f.IsSide n m := by
    intro hnm
    obtain rfl := hu.joins_eq n i m (hside hn) (f.below_refl i) hnm him
    rcases hn with hn | hn
    · exact absurd (le_of_below ho hn) (Nat.not_le.2 (lt_of_isSide ho hl))
    · exact absurd (le_of_below ho hn) (Nat.not_le.2 (lt_of_isSide ho hr))
  have hsub {c : Nat} (hc : ∀ k, f.Below c k → f.Below i k) : f.Unshared c :=
    ⟨fun j _ _ hj => hu.sides_ne j _ _ (hc j hj), fun j j' k hj hj' => hu.joins_eq j j' k (hc j hj) (hc j' hj')⟩
  refine ⟨hsub fun k hk => hside (.inl hk), hsub fun k hk => hside (.inr hk), fun k hlk => ?_⟩
  -- from the left side down: a node that is below both sides has its join below both as well
  induction hlk with
  | refl =>
    intro hrl
    rcases (Relation.ReflTransGen.cases_tail_iff _ _ _).1 hrl with heq | ⟨n, hn, hnl⟩
    · exact hu.sides_ne i l r (f.below_refl i) h heq
    · exact hroot (.inr hn) hl hnl
  | tail hla hak ih =>
    intro hrk
    rcases (Relation.ReflTransGen.cases_tail_iff _ _ _).1 hrk with rfl | ⟨n, hn, hnk⟩
    · exact hroot (.inl hla) hr hak
    · obtain rfl := hu.joins_eq _ n _ (hside (.inl hla)) (hside (.inr hn)) hak hnk
      exact ih hn

/-- The converse: if no node is below both sides, and none is found twice below one of them. -/
theorem Unshared.join (hl : f.Unshared l) (hr : f.Unshared r) (hlr : ∀ k, f.Below l k → ¬ f.Below r k) :
    f.Unshared i := by
  -- a side of the join is below one side only, so it is a side of nothing there
  have hroot {n m : Nat} (hn : f.Below l n ∨ f.Below r n) (hnm : f.IsSide n m) : ¬ f.IsSide i m := by
    intro him
    have hlt := lt_of_isSide ho hnm
    rcases (isSide_iff h).1 him with rfl | rfl <;> rcases hn with hn | hn
    · exact absurd (le_of_below ho hn) (Nat.not_le.2 hlt)
    · exact hlr _ (f.below_refl _) (hn.tail hnm)
    · exact hlr _ (hn.tail hnm) (f.below_refl _)
    · exact absurd (le_of_below ho hn) (Nat.not_le.2 hlt)
  constructor
  case sides_ne =>
    intro j l' r' hj hsides
    rcases (below_iff_of_sides? h).1 hj with rfl | hj | hj
    · cases h.symm.trans hsides
      rintro rfl
      exact hlr l (f.below_refl l) (f.below_refl l)
    · exact hl.sides_ne j l' r' hj hsides
    · exact hr.sides_ne j l' r' hj hsides
  case joins_eq =>
    intro j j' k hj hj' hk hk'
    rw [below_iff_of_sides? h] at hj hj'
    rcases hj with rfl | hj
    · rcases hj' with rfl | hj'
      · rfl
      · exact absurd hk (hroot hj' hk')
    · rcases hj' with rfl | hj'
      · exact absurd hk' (hroot hj hk)
      · rcases hj with hj | hj <;> rcases hj' with hj' | hj'
        · exact hl.joins_eq j j' k hj hj' hk hk'
        · exact absurd (hj'.tail hk') (hlr k (hj.tail hk))
        · exact absurd (hj.tail hk) (hlr k (hj'.tail hk'))
        · exact hr.joins_eq j j' k hj hj' hk hk'

end

theorem Unshared.of_leaf {l : Leaf} (h : f.entries[i]? = some (.leaf l)) : f.Unshared i := by
  constructor
  case sides_ne =>
    intro j l' r' hj hsides
    obtain rfl := (below_iff_of_leaf h).1 hj
    cases (sides?_of_leaf h).symm.trans hsides
  case joins_eq =>
    intro j j' k hj hj' _ _
    rw [(below_iff_of_leaf h).1 hj, (below_iff_of_leaf h).1 hj']

/-- No node is visited twice just if none is found in two places. -/
theorem nodup_postorder_iff (ho : f.Ordered) (h : f.tree? i = some t) : t.postorder.Nodup ↔ f.Unshared i := by
  induction h using tree?_induction with
  | leaf i l h => exact iff_of_true (List.nodup_singleton i) (.of_leaf h)
  | join i info j k l r h hj hk hl hr ihl ihr =>
    have hsides := sides?_of_join h
    have hroot : i ∉ l.postorder ++ r.postorder := by
      rw [List.mem_append, mem_postorder_iff hl, mem_postorder_iff hr]
      rintro (hi | hi)
      · exact absurd (le_of_below ho hi) (Nat.not_le.2 hj)
      · exact absurd (le_of_below ho hi) (Nat.not_le.2 hk)
    rw [Tree.postorder_join, List.nodup_append_comm, List.singleton_append, List.nodup_cons,
      and_iff_right hroot, List.nodup_append', ihl, ihr]
    simp only [List.Disjoint, mem_postorder_iff hl, mem_postorder_iff hr]
    constructor
    · rintro ⟨hul, hur, hlr⟩
      exact hul.join ho hsides hur fun _ hlk hrk => hlr hlk hrk
    · intro hu
      obtain ⟨hul, hur, hlr⟩ := hu.of_join ho hsides
      exact ⟨hul, hur, fun _ hlk hrk => hlr _ hlk hrk⟩

/-! ### Tables and joins -/

/-- The tables that are visited are the leaves of the tree, from left to right. -/
theorem leavesBelow_eq (h : f.tree? i = some t) : f.leavesBelow i = t.leaves := by
  rw [leavesBelow, walk_eq_postorder h]
  induction h using tree?_induction with
  | leaf i l h => simp [Tree.postorder, Tree.subtrees, Tree.id, Tree.leaves, leaf?_of_leaf h]
  | join i info j k l r h _ _ _ _ ihl ihr =>
    rw [Tree.postorder_join, List.filterMap_append, List.filterMap_append, ihl, ihr, Tree.leaves]
    simp [leaf?_of_join h]

/-- The joins that are visited are those of the tree, in postorder. -/
theorem joinsBelow_eq (h : f.tree? i = some t) : f.joinsBelow i = t.joins.map JoinNode.id := by
  rw [joinsBelow, walk_eq_postorder h]
  induction h using tree?_induction with
  | leaf i l h => simp [Tree.postorder, Tree.subtrees, Tree.id, Tree.joins, sides?_of_leaf h]
  | join i info j k l r h _ _ _ _ ihl ihr =>
    rw [Tree.postorder_join, List.filter_append, List.filter_append, ihl, ihr, Tree.joins, List.map_append,
      List.map_append]
    simp [sides?_of_join h]

/-- What the walk from a node has to do with the tree `t` below it. -/
structure Walked (f : Forest) (i : Nat) (t : Tree) : Prop where
  /-- The tree is read off the forest. -/
  tree_eq : f.tree? i = some t
  /-- Call after call, the iterator comes to its end with the postorder of the tree: the left side, the right
  side and then the node itself. -/
  yields_iff : ∀ ks, Yields f.Next [(i, false)] ks ↔ ks = t.postorder
  /-- These are the nodes of the walk. -/
  walk_eq : f.walk i = t.postorder
  /-- They are the nodes below the node. -/
  mem_iff : ∀ k, k ∈ f.walk i ↔ f.Below i k
  /-- A join comes after its two sides. -/
  sidesFirst : f.SidesFirst (f.walk i)
  /-- Every node below the node is visited once just if none is found in two places. -/
  count_iff : (∀ k, f.Below i k → (f.walk i).count k = 1) ↔ f.Unshared i
  /-- The tables that are visited are the leaves, from left to right. -/
  leaves_eq : f.leavesBelow i = t.leaves
  /-- The joins that are visited are the joins of the tree, in the same order. -/
  joins_eq : f.joinsBelow i = t.joins.map JoinNode.id
  /-- These are joins of the same two sides as in the forest. -/
  join_entries : ∀ n ∈ t.joins, f.entries[n.id]? = some (.join n.info n.left.id n.right.id)

/-- **The walk with a stack visits the nodes in postorder.** -/
theorem walked_of_ordered (ho : f.Ordered) (hi : i < f.size) : ∃ t, f.Walked i t := by
  obtain ⟨t, ht⟩ := exists_tree? ho hi
  have hwalk := walk_eq_postorder ht
  have hyields : Yields f.Next [(i, false)] t.postorder :=
    hwalk ▸ yields_walkFrom ho [(i, false)] (List.forall_mem_singleton.2 hi)
  refine ⟨t, ?_⟩
  constructor
  case tree_eq => exact ht
  case yields_iff => exact fun ks => ⟨fun h => h.unique hyields fun _ _ _ => Next.unique, fun h => h ▸ hyields⟩
  case walk_eq => exact hwalk
  case mem_iff => exact fun k => hwalk ▸ mem_postorder_iff ht
  case sidesFirst => exact hwalk ▸ sidesFirst_postorder ht
  case count_iff =>
    rw [← nodup_postorder_iff ho ht, List.nodup_iff_count_eq_one, hwalk]
    simp only [mem_postorder_iff ht]
  case leaves_eq => exact leavesBelow_eq ht
  case joins_eq => exact joinsBelow_eq ht
  case join_entries => exact fun n hn => entry_of_tree? (tree?_of_mem_subtrees ht _ (Tree.tree_mem_subtrees hn))

/-- `(t2 ⋈ t1) ⋈ t0`, with the tables made first and from right to left. -/
def crossedForest : Forest :=
  let table (i : Nat) : Entry := .leaf { table := ⟨i, "t"⟩ }
  let product : Nat → Nat → Entry := .join { kind := .inner, conds := [] }
  ⟨[table 0, table 1, table 2, product 2 1, product 3 0], 4⟩

theorem walked_of_ordered_crossed :
    crossedForest.Ordered ∧ 4 < crossedForest.size ∧ ∃ t, crossedForest.Walked 4 t := by
  have ho : crossedForest.Ordered := by
    intro i info l r h
    have hi : i < 5 := (List.getElem?_eq_some_iff.1 h).1
    rcases i with _ | _ | _ | _ | _ | i
    case succ.succ.succ.succ.succ => omega
    all_goals
      cases h
      try decide
  exact ⟨ho, by decide, walked_of_ordered ho (by decide)⟩

/-- A node that is both sides of a join is visited twice, each time with what is below it. -/
example : (crossedForest.add (.join { kind := .inner, conds := [] } 3 3)).walk 5 = [2, 1, 3, 2, 1, 3, 5] := by
  decide +kernel

end Forest

end QueryGraph
