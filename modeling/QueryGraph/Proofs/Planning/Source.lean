import QueryGraph.Proofs.Passes.Outline
import QueryGraph.Proofs.Reordering.Soundness

/-!
# The tree of a FROM list

What is known of the tree that a query block starts with.

## What is proved

* `numbers_ofList` — its tables are those of the list, from left to right.
* `postorder_ofList` — its nodes are numbered from zero in postorder, so a number stands for one node
  (`find?_eq_some`).
* `kinds_ofList` — it has no full outer join, which a FROM list cannot ask for.
* `separate_of_nodup` — if no table is in the list twice, no table is below both sides of a join.
-/

namespace QueryGraph.Tree

open BitSet

/-! ### Tables -/

mutual

/-- The tables of a FROM list. -/
theorem numbers_ofListFrom (start : Nat) :
    (list : FromList) → (ofListFrom start list).numbers = list.tables.map Table.number
  | .single item => numbers_ofItemFrom start item
  | .join before item cond outer => by
    rw [ofListFrom, numbers_join, numbers_ofListFrom, numbers_ofItemFrom, FromList.tables,
      List.map_append]

/-- The tables of an item. -/
theorem numbers_ofItemFrom (start : Nat) :
    (item : FromItem) → (ofItemFrom start item).numbers = (FromList.itemTables item).map Table.number
  | .table _ => rfl
  | .nest _ list => numbers_ofListFrom start list

end

theorem numbers_ofList (list : FromList) : (ofList list).numbers = list.tables.map Table.number :=
  numbers_ofListFrom 0 list

/-- The tables of a tree are those with their numbers. -/
theorem mem_tables_iff {t : Tree} (hnumbers : ∀ i ∈ t.numbers, i < 64) {i : Nat} :
    i ∈ t.tables ↔ i ∈ t.numbers := by
  rw [mem_tables_leaves, numbers, List.mem_map]
  refine exists_congr fun x => and_congr_right fun hx => ?_
  rw [mem_singleton (hnumbers _ (List.mem_map_of_mem hx)), eq_comm]

/-- If the tables are distinct, none is below both sides of a join. -/
theorem separate_of_nodup {t : Tree} (hnumbers : ∀ i ∈ t.numbers, i < 64) (h : t.numbers.Nodup) :
    t.Separate := by
  induction t with
  | leaf i l => trivial
  | join i info l r ihl ihr =>
    rw [numbers_join] at hnumbers h
    obtain ⟨hl, hr⟩ := List.forall_mem_append.1 hnumbers
    obtain ⟨hnodupl, hnodupr, hapart⟩ := List.nodup_append.1 h
    refine ⟨overlaps_eq_false_iff.2 fun j hj hj' => ?_, ihl hl hnodupl, ihr hr hnodupr⟩
    exact hapart j ((mem_tables_iff hl).1 hj) j ((mem_tables_iff hr).1 hj') rfl

/-! ### Nodes -/

theorem postorder_join (i : Nat) (info : JoinInfo) (l r : Tree) :
    (join i info l r).postorder = l.postorder ++ r.postorder ++ [i] := by
  simp only [postorder, subtrees, List.map_append, List.map_cons, List.map_nil, id]

mutual

/-- The numbers of the nodes in the tree of a FROM list. -/
theorem postorder_ofListFrom (start : Nat) : (list : FromList) →
    (ofListFrom start list).postorder = List.range' start (ofListFrom start list).size
  | .single item => postorder_ofItemFrom start item
  | .join before item cond outer => by
    rw [ofListFrom, postorder_join, postorder_ofListFrom, postorder_ofItemFrom, List.range'_append_1,
      Nat.add_assoc, ← List.range'_1_concat, size]

/-- The numbers of the nodes in the tree of an item. -/
theorem postorder_ofItemFrom (start : Nat) : (item : FromItem) →
    (ofItemFrom start item).postorder = List.range' start (ofItemFrom start item).size
  | .table _ => rfl
  | .nest _ list => postorder_ofListFrom start list

end

theorem postorder_ofList (list : FromList) :
    (ofList list).postorder = List.range' 0 (ofList list).size :=
  postorder_ofListFrom 0 list

theorem tree_mem_subtrees {t : Tree} {n : JoinNode} (hn : n ∈ t.joins) : n.tree ∈ t.subtrees := by
  induction t using inductSides with
  | leaf i l => exact nomatch hn
  | join a ih =>
    rw [JoinNode.tree, subtrees]
    rcases mem_joins_tree.1 hn with rfl | ⟨s, hs⟩
    · exact List.mem_append_right _ (List.mem_singleton_self _)
    · refine List.mem_append_left _ (List.mem_append.2 ?_)
      cases s
      · exact .inl (ih .left hs)
      · exact .inr (ih .right hs)

/-- A join is found by its number. -/
theorem find?_eq_some {t : Tree} (h : t.postorder.Nodup) {n : JoinNode} (hn : n ∈ t.joins) :
    t.find? n.id = some n.tree := by
  have hmem := tree_mem_subtrees hn
  have hfound : (t.subtrees.find? fun s => s.id = n.id).isSome = true :=
    List.find?_isSome.2 ⟨n.tree, hmem, decide_eq_true rfl⟩
  obtain ⟨s, hs⟩ := Option.isSome_iff_exists.1 hfound
  have hid : s.id = n.id := of_decide_eq_true (List.find?_some (p := fun s : Tree => s.id = n.id) hs)
  rw [find?, hs, List.inj_on_of_nodup_map h (List.mem_of_find?_eq_some hs) hmem hid]

/-! ### Conditions -/

mutual

/-- The tables of a FROM list have no filters yet. -/
theorem filters_ofListFrom (start : Nat) :
    (list : FromList) → ∀ x ∈ (ofListFrom start list).leaves, x.2.filters = []
  | .single item => filters_ofItemFrom start item
  | .join before item cond outer => by
    rw [ofListFrom, leaves]
    exact List.forall_mem_append.2 ⟨filters_ofListFrom start before, filters_ofItemFrom _ item⟩

/-- The tables of an item have no filters yet. -/
theorem filters_ofItemFrom (start : Nat) :
    (item : FromItem) → ∀ x ∈ (ofItemFrom start item).leaves, x.2.filters = []
  | .table _ => List.forall_mem_singleton.2 rfl
  | .nest _ list => filters_ofListFrom start list

end

mutual

/-- The tables of a FROM list have no lookups yet, and its joins no hash keys. -/
theorem bare_ofListFrom (start : Nat) : (list : FromList) →
    (∀ x ∈ (ofListFrom start list).leaves, x.2.lookups = []) ∧
      ∀ n ∈ (ofListFrom start list).joins, n.info.keys = []
  | .single item => bare_ofItemFrom start item
  | .join before item cond outer => by
    obtain ⟨hleavesl, hjoinsl⟩ := bare_ofListFrom start before
    obtain ⟨hleavesr, hjoinsr⟩ := bare_ofItemFrom (start + (ofListFrom start before).size) item
    rw [ofListFrom, leaves, joins]
    exact ⟨List.forall_mem_append.2 ⟨hleavesl, hleavesr⟩, List.forall_mem_append.2
      ⟨List.forall_mem_append.2 ⟨hjoinsl, hjoinsr⟩, List.forall_mem_singleton.2 rfl⟩⟩

/-- The tables of an item have no lookups yet, and its joins no hash keys. -/
theorem bare_ofItemFrom (start : Nat) : (item : FromItem) →
    (∀ x ∈ (ofItemFrom start item).leaves, x.2.lookups = []) ∧
      ∀ n ∈ (ofItemFrom start item).joins, n.info.keys = []
  | .table _ => ⟨List.forall_mem_singleton.2 rfl, nofun⟩
  | .nest _ list => bare_ofListFrom start list

end

/-! ### Kinds of joins -/

theorem joinKind_ne_full (outer : Bool) (item : FromItem) : joinKind outer item ≠ .full := by
  unfold joinKind
  split
  · exact nofun
  · exact nofun
  · split <;> exact nofun

mutual

/-- A FROM list asks for no full outer join. -/
theorem kinds_ofListFrom (start : Nat) :
    (list : FromList) → ∀ k ∈ (ofListFrom start list).kinds, k ≠ .full
  | .single item => kinds_ofItemFrom start item
  | .join before item cond outer => by
    rw [ofListFrom, kinds_join]
    refine List.forall_mem_append.2 ⟨List.forall_mem_append.2 ⟨?_, ?_⟩, ?_⟩
    · exact kinds_ofListFrom start before
    · exact kinds_ofItemFrom _ item
    · exact List.forall_mem_singleton.2 (joinKind_ne_full outer item)

/-- An item asks for no full outer join. -/
theorem kinds_ofItemFrom (start : Nat) :
    (item : FromItem) → ∀ k ∈ (ofItemFrom start item).kinds, k ≠ .full
  | .table _ => nofun
  | .nest _ list => kinds_ofListFrom start list

end

theorem kinds_ofList (list : FromList) : ∀ k ∈ (ofList list).kinds, k ≠ .full :=
  kinds_ofListFrom 0 list

end QueryGraph.Tree
