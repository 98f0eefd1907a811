import QueryGraph.Forest
import QueryGraph.Proofs.Hypergraph.Mirroring

/-!
# What a pass leaves in a forest

A pass over the tree below a node is written back node by node.

## The model

In a forest no node is below both sides of a join whose sides have no table in common, since every tree
has tables. So in such a tree all nodes have different numbers, and writing back one of them leaves the
others alone. A pass that keeps the outline of the tree writes to the nodes that it was read from.

## What is proved

* `nodup_postorder` — the nodes below a node are distinct.
* `tree?_record` — below the node there is what the pass has made.
* `changedBelow_record` — and everywhere else there is what there was.
-/

namespace QueryGraph

open BitSet

namespace Tree

/-- The sides of every join have smaller numbers than the join. -/
def Rising : Tree → Prop
  | leaf _ _ => True
  | join i _ l r => l.id < i ∧ r.id < i ∧ l.Rising ∧ r.Rising

theorem id_outline (t : Tree) : t.outline.id = t.id := by cases t <;> rfl

theorem id_of_outline {t t' : Tree} (h : t'.outline = t.outline) : t'.id = t.id := by
  rw [← id_outline, h, id_outline]

theorem rising_outline (t : Tree) : t.outline.Rising ↔ t.Rising := by
  induction t with
  | leaf i l => exact Iff.rfl
  | join i info l r ihl ihr => simp only [outline, Rising, id_outline, ihl, ihr]

theorem rising_of_outline {t t' : Tree} (h : t'.outline = t.outline) (ht : t.Rising) : t'.Rising := by
  rwa [← rising_outline, h, rising_outline]

theorem tables_subset_of_mem_subtrees {t u : Tree} (hu : u ∈ t.subtrees) : u.tables ⊆ t.tables := by
  induction t using inductSides with
  | leaf i l =>
    rw [List.mem_singleton.1 hu]
    exact Subset.refl _
  | join n ih =>
    rcases mem_subtrees_tree.1 hu with rfl | ⟨s, hs⟩
    · exact Subset.refl _
    · exact subset_iff.2 fun i hi => mem_tables_tree.2 ⟨s, subset_iff.1 (ih s hs) i hi⟩

theorem Rising.le_id {t : Tree} (h : t.Rising) : ∀ k ∈ t.postorder, k ≤ t.id := by
  induction t with
  | leaf i l => exact List.forall_mem_singleton.2 (Nat.le_refl i)
  | join i info l r ihl ihr =>
    obtain ⟨hl, hr, hrisel, hriser⟩ := h
    rw [postorder_join]
    refine List.forall_mem_append.2 ⟨List.forall_mem_append.2 ⟨fun k hk => ?_, fun k hk => ?_⟩,
      List.forall_mem_singleton.2 (Nat.le_refl i)⟩
    · exact Nat.le_of_lt (Nat.lt_of_le_of_lt (ihl hrisel k hk) hl)
    · exact Nat.le_of_lt (Nat.lt_of_le_of_lt (ihr hriser k hk) hr)

end Tree

namespace Forest

variable {f : Forest} {i : Nat} {t : Tree}

/-! ### Reading -/

/-- The tree below a node is that of a table or of a join of two nodes with smaller numbers. -/
theorem tree?_eq_some (h : f.tree? i = some t) :
    (∃ l, f.entries[i]? = some (.leaf l) ∧ t = .leaf i l) ∨
      ∃ info j k l r, f.entries[i]? = some (.join info j k) ∧ j < i ∧ k < i ∧
        f.tree? j = some l ∧ f.tree? k = some r ∧ t = .join i info l r := by
  rw [tree?] at h
  split at h
  next => cases h
  next l hl =>
    cases h
    exact .inl ⟨l, hl, rfl⟩
  next info j k hentry =>
    split at h
    next hlt =>
      split at h
      next l r hl hr =>
        cases h
        exact .inr ⟨info, j, k, l, r, hentry, hlt.1, hlt.2, hl, hr, rfl⟩
      next => cases h
    next => cases h

theorem tree?_of_leaf {l : Leaf} (h : f.entries[i]? = some (.leaf l)) :
    f.tree? i = some (.leaf i l) := by
  rw [tree?, h]

theorem tree?_of_join {info : JoinInfo} {l r : Tree} {j k : Nat}
    (h : f.entries[i]? = some (.join info j k)) (hj : j < i) (hk : k < i) (hl : f.tree? j = some l)
    (hr : f.tree? k = some r) : f.tree? i = some (.join i info l r) := by
  rw [tree?, h]
  simp only [hj, hk, and_self, dif_pos, hl, hr]

/-- Below a node there is a table or a join of two nodes below which there are trees: induction on what has been
read. -/
theorem tree?_induction {motive : ∀ i t, f.tree? i = some t → Prop}
    (leaf : ∀ i l (h : f.entries[i]? = some (.leaf l)), motive i _ (tree?_of_leaf h))
    (join : ∀ i info j k l r (h : f.entries[i]? = some (.join info j k)) (hj : j < i) (hk : k < i)
      (hl : f.tree? j = some l) (hr : f.tree? k = some r), motive j l hl → motive k r hr →
      motive i _ (tree?_of_join h hj hk hl hr))
    {i : Nat} {t : Tree} (h : f.tree? i = some t) : motive i t h := by
  induction t generalizing i with
  | leaf i l =>
    obtain ⟨_, hentry, ⟨⟩⟩ | ⟨_, _, _, _, _, -, -, -, -, -, ⟨⟩⟩ := tree?_eq_some h
    exact leaf i l hentry
  | join i info l r ihl ihr =>
    obtain ⟨_, -, ⟨⟩⟩ | ⟨_, j, k, _, _, hentry, hj, hk, hl, hr, ⟨⟩⟩ := tree?_eq_some h
    exact join i info j k l r hentry hj hk hl hr (ihl hl) (ihr hr)

theorem id_of_tree? (h : f.tree? i = some t) : t.id = i := by
  obtain ⟨l, -, rfl⟩ | ⟨info, j, k, l, r, -, -, -, -, -, rfl⟩ := tree?_eq_some h <;> rfl

theorem lt_size_of_tree? (h : f.tree? i = some t) : i < f.size := by
  obtain ⟨l, hl, -⟩ | ⟨info, j, k, l, r, hentry, -⟩ := tree?_eq_some h
  · exact (List.getElem?_eq_some_iff.1 hl).1
  · exact (List.getElem?_eq_some_iff.1 hentry).1

/-- The node carries what the root of the tree below it does. -/
theorem entry_of_tree? (h : f.tree? i = some t) : f.entries[i]? = some (entryOf t) := by
  obtain ⟨l, hl, rfl⟩ | ⟨info, j, k, l, r, hentry, -, -, hl, hr, rfl⟩ := tree?_eq_some h
  · exact hl
  · rw [hentry, entryOf, id_of_tree? hl, id_of_tree? hr]

/-- Below a node every subtree is the tree below its own node. -/
theorem tree?_of_mem_subtrees (h : f.tree? i = some t) : ∀ u ∈ t.subtrees, f.tree? u.id = some u := by
  induction h using tree?_induction with
  | leaf i l h => exact List.forall_mem_singleton.2 (tree?_of_leaf h)
  | join i info j k l r h hj hk hl hr ihl ihr =>
    rw [Tree.subtrees]
    exact List.forall_mem_append.2 ⟨List.forall_mem_append.2 ⟨ihl, ihr⟩,
      List.forall_mem_singleton.2 (tree?_of_join h hj hk hl hr)⟩

theorem rising_of_tree? (h : f.tree? i = some t) : t.Rising := by
  induction h using tree?_induction with
  | leaf i l h => trivial
  | join i info j k l r h hj hk hl hr ihl ihr => exact ⟨id_of_tree? hl ▸ hj, id_of_tree? hr ▸ hk, ihl, ihr⟩

/-- If no table is below both sides of a join, no node is. -/
theorem nodup_postorder (h : f.tree? i = some t) (hsep : t.Separate) : t.postorder.Nodup := by
  induction h using tree?_induction with
  | leaf i l h => exact List.nodup_singleton i
  | join i info j k l r h hj hk hl hr ihl ihr =>
    obtain ⟨hlr, hsepl, hsepr⟩ := hsep
    rw [Tree.postorder_join]
    refine List.nodup_append.2 ⟨List.nodup_append.2 ⟨ihl hsepl, ihr hsepr, ?_⟩,
      List.nodup_singleton _, ?_⟩
    · rintro a ha b hb rfl
      obtain ⟨u, hu, hua⟩ := List.mem_map.1 ha
      obtain ⟨w, hw, hwa⟩ := List.mem_map.1 hb
      -- the tree below a node that is on both sides would have its tables there
      have huw : u = w := Option.some.inj <| by
        rw [← tree?_of_mem_subtrees hl u hu, ← tree?_of_mem_subtrees hr w hw, hua, hwa]
      obtain ⟨v, hv⟩ := ne_empty_iff.1 u.tables_ne_empty
      exact overlaps_eq_false_iff.1 hlr v (subset_iff.1 (Tree.tables_subset_of_mem_subtrees hu) v hv)
        (subset_iff.1 (Tree.tables_subset_of_mem_subtrees (huw ▸ hw)) v hv)
    · rintro a ha b hb rfl
      obtain rfl := List.mem_singleton.1 hb
      rcases List.mem_append.1 ha with ha | ha
      · have hle := (rising_of_tree? hl).le_id a ha
        rw [id_of_tree? hl] at hle
        omega
      · have hle := (rising_of_tree? hr).le_id a ha
        rw [id_of_tree? hr] at hle
        omega

/-! ### Writing -/

/-- The entries with what nodes of a tree carry. -/
def overwritten (us : List Tree) (es : List Entry) : List Entry :=
  us.foldl (fun es u => es.set u.id (entryOf u)) es

theorem length_overwritten (us : List Tree) (es : List Entry) : (overwritten us es).length = es.length := by
  induction us generalizing es with
  | nil => rfl
  | cons u us ih => exact (ih _).trans List.length_set

theorem overwritten_of_not_mem {us : List Tree} {k : Nat} (hk : k ∉ us.map Tree.id) (es : List Entry) :
    (overwritten us es)[k]? = es[k]? := by
  induction us generalizing es with
  | nil => rfl
  | cons u us ih =>
    rw [List.map_cons, List.mem_cons, not_or] at hk
    exact (ih hk.2 _).trans (List.getElem?_set_ne (Ne.symm hk.1))

theorem overwritten_of_mem {us : List Tree} (hus : (us.map Tree.id).Nodup) {u : Tree} (hu : u ∈ us)
    {es : List Entry} (hlt : u.id < es.length) : (overwritten us es)[u.id]? = some (entryOf u) := by
  induction us generalizing es with
  | nil => cases hu
  | cons w us ih =>
    rw [List.map_cons, List.nodup_cons] at hus
    rcases List.mem_cons.1 hu with rfl | hu
    · exact (overwritten_of_not_mem hus.1 _).trans (List.getElem?_set_self hlt)
    · exact ih hus.2 hu (List.length_set.symm ▸ hlt)

/-- Nodes that are not in the tree stay as they are. -/
theorem entries_record_of_not_mem {t : Tree} {k : Nat} (hk : k ∉ t.postorder) (f : Forest) :
    (f.record t).entries[k]? = f.entries[k]? := overwritten_of_not_mem hk f.entries

theorem size_record (f : Forest) (t : Tree) : (f.record t).size = f.size :=
  length_overwritten t.subtrees f.entries

/-- If the nodes of a tree are in the forest with what they carry, the tree is below its root. -/
theorem tree?_of_entries {t : Tree} (hrising : t.Rising)
    (h : ∀ u ∈ t.subtrees, f.entries[u.id]? = some (entryOf u)) : f.tree? t.id = some t := by
  induction t with
  | leaf j l => exact tree?_of_leaf (h _ (Tree.mem_subtrees_self _))
  | join j info l r ihl ihr =>
    obtain ⟨hl, hr, hrisel, hriser⟩ := hrising
    have hroot := h _ (Tree.mem_subtrees_self _)
    rw [Tree.subtrees] at h
    obtain ⟨hsubl, hsubr⟩ := List.forall_mem_append.1 (List.forall_mem_append.1 h).1
    exact tree?_of_join hroot hl hr (ihl hrisel hsubl) (ihr hriser hsubr)

/-- Below the node there is the tree with what the pass has made of it, if no node is there twice. -/
theorem tree?_record {t' : Tree} (h : f.tree? i = some t) (hnodup : t.postorder.Nodup)
    (houtline : t'.outline = t.outline) : (f.record t').tree? i = some t' := by
  have hnodup' : t'.postorder.Nodup := by rwa [Tree.postorder_of_outline houtline]
  have hentries : ∀ u ∈ t'.subtrees, (f.record t').entries[u.id]? = some (entryOf u) := by
    intro u hu
    have hid : u.id ∈ t.postorder := Tree.postorder_of_outline houtline ▸ List.mem_map_of_mem hu
    obtain ⟨w, hw, heq⟩ := List.mem_map.1 hid
    have hlt : u.id < f.size := heq ▸ lt_size_of_tree? (tree?_of_mem_subtrees h w hw)
    exact overwritten_of_mem hnodup' hu hlt
  have hid : t'.id = i := (Tree.id_of_outline houtline).trans (id_of_tree? h)
  rw [← hid]
  exact tree?_of_entries (Tree.rising_of_outline houtline (rising_of_tree? h)) hentries

/-- The second forest is the first with the tree below a node changed from `t` to `t'`. -/
structure ChangedBelow (f : Forest) (i : Nat) (t : Tree) (f' : Forest) (t' : Tree) : Prop where
  /-- The changed tree is below the node. -/
  tree : f'.tree? i = some t'
  /-- Nodes that were not below it are as they were. -/
  others : ∀ k, k ∉ t.postorder → f'.entries[k]? = f.entries[k]?
  /-- There are no more nodes and no less. -/
  size : f'.size = f.size
  /-- The root is the same node. -/
  root : f'.root = f.root

theorem ChangedBelow.trans {f' f'' : Forest} {t' t'' : Tree} (h : f.ChangedBelow i t f' t')
    (houtline : t'.outline = t.outline) (h' : f'.ChangedBelow i t' f'' t'') : f.ChangedBelow i t f'' t'' where
  tree := h'.tree
  others k hk := (h'.others k (Tree.postorder_of_outline houtline ▸ hk)).trans (h.others k hk)
  size := h'.size.trans h.size
  root := h'.root.trans h.root

/-- A pass that keeps the outline of the tree below a node changes nothing else. -/
theorem changedBelow_record_of_nodup {t' : Tree} (h : f.tree? i = some t) (hnodup : t.postorder.Nodup)
    (houtline : t'.outline = t.outline) : f.ChangedBelow i t (f.record t') t' where
  tree := tree?_record h hnodup houtline
  others := fun _ hk => entries_record_of_not_mem (Tree.postorder_of_outline houtline ▸ hk) f
  size := size_record f t'
  root := rfl

theorem changedBelow_record {t' : Tree} (h : f.tree? i = some t) (hsep : t.Separate)
    (houtline : t'.outline = t.outline) : f.ChangedBelow i t (f.record t') t' :=
  changedBelow_record_of_nodup h (nodup_postorder h hsep) houtline

end Forest

end QueryGraph
