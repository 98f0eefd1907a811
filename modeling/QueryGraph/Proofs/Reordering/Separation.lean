import QueryGraph.Proofs.Reordering.Fitting

/-!
# What has been applied

Which joins have been applied in an input, and which of them are exchangeable with the next one.

## The model

An input is known by its nodes. A join has been applied in it (`Applied`) if it was applied to some of
these nodes, with some on either side, with all that its conditions read, and obeying all its rules.
In the inputs of a plan a join that has nodes on either side has been applied: nothing else brings
nodes from its two sides together. This is what `Settled` says of an input.

## What is proved

* `judgedRightly_of_unmistaken` — when all verdicts on the joins of a tree are right.
* `cases_of_mem` — of two joins in a tree, one is below the other, or a third one has them on
  different sides.
* `settled_union` — it stays so when one more join is applied to two inputs.
* `exchangeable_of_applied` — a join that has been applied is exchangeable with a join below it that is
  applied next. If the two never had nodes in common, this comes from a join between them.
-/

namespace QueryGraph

open BitSet

variable {R : Type} {m : Meaning R}

namespace Tree

/-! ### Joins in a tree -/

/-- Of two joins in a tree, one is below the other, or a third one has them on different sides. -/
theorem cases_of_mem {t : Tree} {a g : JoinNode} (ha : a ∈ t.joins) (hg : g ∈ t.joins) :
    a = g ∨ (∃ s, a ∈ (g.side s).joins) ∨ (∃ s, g ∈ (a.side s).joins) ∨
      ∃ h ∈ t.joins, ∃ s, a ∈ (h.side s).joins ∧ g ∈ (h.side s.other).joins := by
  induction t using inductSides with
  | leaf i l => exact nomatch ha
  | join n ih =>
    rcases mem_joins_tree.1 ha with rfl | ⟨s, hs⟩ <;> rcases mem_joins_tree.1 hg with rfl | ⟨u, hu⟩
    · exact .inl rfl
    · exact .inr (.inr (.inl ⟨u, hu⟩))
    · exact .inr (.inl ⟨s, hs⟩)
    · rcases Side.eq_or_eq_other u s with rfl | rfl
      · obtain h | h | h | ⟨h, hh, hsides⟩ := ih u hs hu
        · exact .inl h
        · exact .inr (.inl h)
        · exact .inr (.inr (.inl h))
        · exact .inr (.inr (.inr ⟨h, mem_joins_tree.2 (.inr ⟨u, hh⟩), hsides⟩))
      · exact .inr (.inr (.inr ⟨n, mem_joins_tree.2 (.inl rfl), s, hs, hu⟩))

theorem size_lt_of_mem {n a : JoinNode} {s : Side} (ha : a ∈ (n.side s).joins) :
    a.tree.size < n.tree.size := by
  have hle {t : Tree} (ha : a ∈ t.joins) : a.tree.size ≤ t.size := by
    induction t with
    | leaf i l => exact nomatch ha
    | join i info l r ihl ihr =>
      simp only [joins, List.mem_append, List.mem_singleton] at ha
      rw [size]
      rcases ha with (ha | ha) | rfl
      · have := ihl ha
        omega
      · have := ihr ha
        omega
      · exact Nat.le_refl _
  have hsize : n.tree.size = n.left.size + n.right.size + 1 := rfl
  have hside := hle ha
  cases s
  · change a.tree.size ≤ n.left.size at hside
    omega
  · change a.tree.size ≤ n.right.size at hside
    omega

/-- The nodes below a join in a tree. -/
theorem nodes_join_subset {t : Tree} (ht : t.Numbered) {a : JoinNode} (ha : a ∈ t.joins) (s : Side) :
    (a.side s).nodes ⊆ t.nodes :=
  have ⟨hnum, hsub⟩ := JoinNode.numbered_of_mem ht ha
  Subset.trans (JoinNode.nodes_side_subset hnum s) hsub

/-- A set that has nodes of a tree but none of a join in it has nodes of the far side of a join above
that one, and none of its near side. -/
theorem exists_between {t : Tree} (ht : t.Numbered) {a : JoinNode} (ha : a ∈ t.joins) {x : NodeSet}
    (hx : t.nodes.overlaps x = true) (hax : a.tree.nodes.overlaps x = false) :
    ∃ g ∈ t.joins, ∃ u, a ∈ (g.side u).joins ∧ (g.side u.other).nodes.overlaps x = true ∧
      (g.side u).nodes.overlaps x = false := by
  induction t using inductSides with
  | leaf i l => exact nomatch ha
  | join n ih =>
    rcases mem_joins_tree.1 ha with rfl | ⟨u, hu⟩
    · rw [hx] at hax
      cases hax
    · by_cases hside : (n.side u).nodes.overlaps x = true
      · obtain ⟨g, hg, hsides⟩ := ih u (JoinNode.numbered_side ht u) hu hside
        exact ⟨g, mem_joins_tree.2 (.inr ⟨u, hg⟩), hsides⟩
      · obtain ⟨w, hw⟩ := (overlaps_tree ht).1 hx
        rcases Side.eq_or_eq_other w u with rfl | rfl
        · exact absurd hw hside
        · exact ⟨n, mem_joins_tree.2 (.inl rfl), u, hu, hw, Bool.eq_false_iff.2 hside⟩

theorem mem_of_mem_side {t : Tree} {n a : JoinNode} {s : Side} (hn : n ∈ t.joins)
    (ha : a ∈ (n.side s).joins) : a ∈ t.joins := JoinNode.joins_side_subset hn ha

/-- The nodes of tables that are read belong to the tree. -/
theorem nodesAmong_subset {t : Tree} (ht : t.Numbered) (ts : TableSet) :
    t.nodesAmong ts ⊆ t.nodes := by
  induction t using inductSides with
  | leaf i l =>
    rw [nodesAmong]
    split
    · exact Subset.refl _
    · exact subset_iff.2 fun v hv => absurd hv (not_mem_empty v)
  | join n ih =>
    refine subset_iff.2 fun v hv => (mem_nodes_tree ht).2 ?_
    obtain ⟨s, hs⟩ := mem_nodesAmong_tree.1 hv
    exact ⟨s, subset_iff.1 (ih s (JoinNode.numbered_side ht s)) v hs⟩

/-- A table of the tree that is read has a node. -/
theorem exists_nodeAmong {t : Tree} (ht : t.Numbered) {ts : TableSet} {i : Nat} (hi : i ∈ t.tables)
    (hts : i ∈ ts) : ∃ v, v ∈ t.nodesAmong ts := by
  induction t using inductSides with
  | leaf j l =>
    rw [tables] at hi
    rw [nodesAmong, if_pos (overlaps_iff.2 ⟨i, hts, hi⟩)]
    exact ne_empty_iff.1 ht
  | join n ih =>
    obtain ⟨s, hs⟩ := mem_tables_tree.1 hi
    obtain ⟨v, hv⟩ := ih s (JoinNode.numbered_side ht s) hs
    exact ⟨v, mem_nodesAmong_tree.2 ⟨s, hv⟩⟩

theorem nodesAmong_side_subset {t : Tree} {a : JoinNode} (ha : a ∈ t.joins) (s : Side)
    (ts : TableSet) : (a.side s).nodesAmong ts ⊆ t.nodesAmong ts := by
  induction t using inductSides with
  | leaf i l => exact nomatch ha
  | join n ih =>
    refine subset_iff.2 fun v hv => mem_nodesAmong_tree.2 ?_
    rcases mem_joins_tree.1 ha with rfl | ⟨u, hu⟩
    · exact ⟨s, hv⟩
    · exact ⟨u, subset_iff.1 (ih u hu) v hv⟩

end Tree

/-! ### Joins that have been applied -/

/-- The join has been applied in an input with these nodes. -/
structure JoinNode.Applied (n : JoinNode) (x : NodeSet) : Prop where
  /-- The nodes that it was applied to. -/
  exists_nodes : ∃ y, y ⊆ x ∧ (∀ s, (n.side s).nodes.overlaps y = true) ∧
    n.tree.nodesAmong (Expr.tablesOf n.info.allConds) ⊆ y ∧ ∀ r ∈ n.conflictRules, r.Obeyed y

theorem JoinNode.Applied.mono {n : JoinNode} {x x' : NodeSet} (h : n.Applied x) (hx : x ⊆ x') :
    n.Applied x' :=
  have ⟨y, hy, hrest⟩ := h.exists_nodes
  ⟨y, Subset.trans hy hx, hrest⟩

namespace Tree

/-- Every positive verdict on two joins is right, where the conditions of the upper one read nothing
from the far side of the lower one. -/
def JudgedRightly (m : Meaning R) (t : Tree) : Prop :=
  ∀ n ∈ t.joins, ∀ s, ∀ a ∈ (n.side s).joins, ∀ sa, n.exchanges s a sa = true →
    (Expr.tablesOf n.info.allConds).overlaps (a.side sa.other).tables = false →
      n.Exchangeable m s a sa

/-- Joins refuse rows without a side on which they are said to reject NULL. -/
def Refusing (m : Meaning R) (t : Tree) : Prop :=
  ∀ n ∈ t.joins, ∀ s, n.rejects s = true → n.Refuses m s

/-- The verdict that looks at the wrong side does no harm: a left join above the left side of a full
join, of which it does not read the right side, refuses rows without its left side if it is said to
reject NULL on its right side. -/
def Unmistaken (m : Meaning R) (t : Tree) : Prop :=
  ∀ n ∈ t.joins, ∀ a ∈ n.left.joins, n.info.kind = .left → a.info.kind = .full →
    (Expr.tablesOf n.info.allConds).overlaps a.right.tables = false →
      n.rejects .right = true → n.Refuses m .left

/-- All verdicts are right but for what is said to reject NULL and for the mistaken one. -/
theorem judgedRightly_of_unmistaken {t : Tree} (hrefusing : t.Refusing m)
    (hunmistaken : t.Unmistaken m) : t.JudgedRightly m := by
  intro n hn s a ha sa hpositive hreads
  refine JoinNode.exchangeable_of_exchanges hpositive (hrefusing n hn)
    (hrefusing a (mem_of_mem_side hn ha)) ?_
  rintro ⟨hleft, rfl, hfull, rfl⟩
  exact hunmistaken n hn a ha hleft hfull hreads

/-- A rule that is active in a set without nodes of the side that it requires keeps the set from
obeying it, so there is no such rule between joins that have been applied. -/
theorem exchangeable_of_obeyed {t : Tree} (ht : t.Numbered) (hjudged : t.JudgedRightly m)
    {c g : JoinNode} {s u : Side} {y : NodeSet} (hc : c ∈ t.joins) (hg : g ∈ (c.side s).joins)
    (hnear : (g.side u).nodes.overlaps y = true) (hfar : (g.side u.other).nodes.overlaps y = false)
    (hread : c.tree.nodesAmong (Expr.tablesOf c.info.allConds) ⊆ y)
    (hrules : ∀ r ∈ c.conflictRules, r.Obeyed y) : c.Exchangeable m s g u := by
  have hnum := (JoinNode.numbered_of_mem ht (mem_of_mem_side hc hg)).1
  have hnumfar := JoinNode.numbered_side hnum u.other
  have hpositive : c.exchanges s g u = true := by
    by_contra hneg
    have hrule := hrules _ (JoinNode.mem_conflictRules.2
      ⟨s, g, hg, u, Bool.eq_false_iff.2 hneg, rfl⟩)
    have hrequires := hrule hnear
    obtain ⟨v, hv⟩ : ∃ v, v ∈ wantedOrAll g.info.usedNodes (g.side u.other).nodes :=
      ne_empty_iff.1 (wantedOrAll_ne_empty hnumfar.nodes_ne_empty)
    exact overlaps_eq_false_iff.1 hfar v (subset_iff.1 (wantedOrAll_subset _ _) v hv)
      (subset_iff.1 hrequires v hv)
  refine hjudged c hc s g hg u hpositive (overlaps_eq_false_iff.2 fun i hi hgi => ?_)
  obtain ⟨v, hv⟩ := exists_nodeAmong hnumfar hgi hi
  have hmem : g ∈ c.tree.joins := mem_joins_tree.2 (.inr ⟨s, hg⟩)
  exact overlaps_eq_false_iff.1 hfar v (subset_iff.1 (nodesAmong_subset hnumfar _) v hv)
    (subset_iff.1 hread v (subset_iff.1 (nodesAmong_side_subset hmem _ _) v hv))

/-- A join that has been applied in an input is exchangeable with a join below it that has only one
side there. By induction on the tree below the upper join. -/
theorem exchangeable_of_applied {t : Tree} (ht : t.Numbered) (hjudged : t.JudgedRightly m)
    {x : NodeSet} (hx : ∀ n ∈ t.joins, (∀ s, (n.side s).nodes.overlaps x = true) → n.Applied x)
    {a : JoinNode} {sa : Side} (hnear : (a.side sa).nodes.overlaps x = true)
    (hfar : (a.side sa.other).nodes.overlaps x = false) {c : JoinNode} {s : Side} (hc : c ∈ t.joins)
    (ha : a ∈ (c.side s).joins) (happlied : c.Applied x) : c.Exchangeable m s a sa := by
  induction hsize : c.tree.size using Nat.strongRecOn generalizing c s with
  | _ n ih =>
    subst hsize
    obtain ⟨y, hyx, hyc, hread, hrules⟩ := happlied.exists_nodes
    have hmem := mem_of_mem_side hc ha
    have hnuma := (JoinNode.numbered_of_mem ht hmem).1
    have hnumc := JoinNode.numbered_side (JoinNode.numbered_of_mem ht hc).1 s
    have hfary : (a.side sa.other).nodes.overlaps y = false :=
      Bool.eq_false_iff.2 fun h =>
        Bool.eq_false_iff.1 hfar (overlaps_mono (Subset.refl _) hyx h)
    by_cases hay : a.tree.nodes.overlaps y = true
    · -- the two had nodes in common when the upper join was applied
      obtain ⟨u, hu⟩ := (overlaps_tree hnuma).1 hay
      have hside : (a.side sa).nodes.overlaps y = true := by
        rcases Side.eq_or_eq_other u sa with rfl | rfl
        · exact hu
        · rw [hfary] at hu
          cases hu
      exact exchangeable_of_obeyed ht hjudged hc ha hside hfary hread hrules
    · -- they had not, so a join between them has been applied as well
      obtain ⟨g, hg, u, hag, hgy, hgy'⟩ :=
        exists_between hnumc ha (hyc s) (Bool.eq_false_iff.2 hay)
      have hgt := mem_of_mem_side hc hg
      have hupper : c.Exchangeable m s g u.other :=
        exchangeable_of_obeyed ht hjudged hc hg hgy ((Side.other_other u).symm ▸ hgy') hread hrules
      have hboth : ∀ w, (g.side w).nodes.overlaps x = true := by
        intro w
        have hnumg := JoinNode.numbered_side (JoinNode.numbered_of_mem ht hgt).1 u
        rcases Side.eq_or_eq_other w u with rfl | rfl
        · exact overlaps_mono (nodes_join_subset hnumg hag sa) (Subset.refl x) hnear
        · exact overlaps_mono (Subset.refl _) hyx hgy
      exact hupper.trans (ih _ (size_lt_of_mem hg) hgt hag (hx g hgt hboth) rfl)

/-! ### Inputs of a plan -/

/-- In an input with these nodes the joins of the list have been applied, and no others have nodes on
either side there. -/
structure Settled (t : Tree) (js : List JoinNode) (x : NodeSet) : Prop where
  /-- The joins of the list have been applied. -/
  applied : ∀ n ∈ js, n.Applied x
  /-- A join with nodes on either side is in the list. -/
  complete : ∀ n ∈ t.joins, (∀ s, (n.side s).nodes.overlaps x = true) → n ∈ js

variable {t : Tree} {a : JoinNode} {q : Side → NodeSet} {js : Side → List JoinNode}

/-- A join that is applied next to two inputs fits on them. -/
theorem fits_of_settled (ht : t.Numbered) (hjudged : t.JudgedRightly m) (ha : a ∈ t.joins)
    (hsettled : ∀ s, t.Settled (js s) (q s)) (hdisjoint : ∀ s, ∀ v ∈ q s, v ∉ q s.other)
    (hnear : ∀ s, (a.side s).nodes.overlaps (q s) = true) (hnew : ∀ s, a ∉ js s)
    (honce : ∀ s, ∀ n ∈ js s, n ∉ js s.other) : t.Fits m a q := by
  have hnum := (JoinNode.numbered_of_mem ht ha).1
  have hapart (s : Side) : (a.side s.other).nodes.overlaps (q s) = false := by
    refine Bool.eq_false_iff.2 fun hfar => hnew s ((hsettled s).complete a ha fun u => ?_)
    rcases Side.eq_or_eq_other u s with rfl | rfl
    · exact hnear u
    · exact hfar
  -- a join above with nodes on its far side in an input has been applied there
  have habove {c : JoinNode} (hc : c ∈ t.joins) {s : Side} (hac : a ∈ (c.side s).joins) (sa : Side)
      (hfar : (c.side s.other).nodes.overlaps (q sa) = true) : c ∈ js sa := by
    refine (hsettled sa).complete c hc fun u => ?_
    have hnumc := JoinNode.numbered_side (JoinNode.numbered_of_mem ht hc).1 s
    rcases Side.eq_or_eq_other u s with rfl | rfl
    · exact overlaps_mono (nodes_join_subset hnumc hac sa) (Subset.refl _) (hnear sa)
    · exact hfar
  refine ⟨hdisjoint, hnear, hapart, ?_, ?_, ?_⟩
  · intro c hc s hac sa hfar
    exact Bool.eq_false_iff.2 fun hfar' =>
      honce sa c (habove hc hac sa hfar) (habove hc hac sa.other hfar')
  · intro c hc s hac sa hfar
    have happlied := (hsettled sa).applied c (habove hc hac sa hfar)
    exact exchangeable_of_applied ht hjudged
      (fun n hn h => (hsettled sa).applied n ((hsettled sa).complete n hn h))
      (hnear sa) (hapart sa) hc hac happlied
  · intro c hc s hac sa hfar
    obtain ⟨y, hy, -, hread, -⟩ :=
      ((hsettled sa).applied c (habove hc hac sa hfar)).exists_nodes
    exact Subset.trans hread hy

theorem overlaps_inputs {x : NodeSet} :
    x.overlaps (q .left ∪ q .right) = true ↔ ∃ s, x.overlaps (q s) = true := by
  simp only [overlaps_iff, mem_union, Side.exists_side]
  constructor
  · rintro ⟨v, hv, h⟩
    exact h.imp (⟨v, hv, ·⟩) (⟨v, hv, ·⟩)
  · rintro (⟨v, hv, h⟩ | ⟨v, hv, h⟩)
    · exact ⟨v, hv, .inl h⟩
    · exact ⟨v, hv, .inr h⟩

theorem subset_inputs (s : Side) : q s ⊆ q .left ∪ q .right := by
  cases s
  · exact subset_union_left _ _
  · exact subset_union_right _ _

/-- When one more join has been applied to two inputs, no further join has nodes on either side. -/
theorem settled_union (ht : t.Numbered) (ha : a ∈ t.joins)
    (hsettled : ∀ s, t.Settled (js s) (q s))
    (hnear : ∀ s, (a.side s).nodes.overlaps (q s) = true) (hnew : ∀ s, a ∉ js s)
    (honce : ∀ s, ∀ n ∈ js s, n ∉ js s.other) (happlied : a.Applied (q .left ∪ q .right)) :
    t.Settled (a :: (js .left ++ js .right)) (q .left ∪ q .right) where
  applied n hn := by
    rcases List.mem_cons.1 hn with rfl | hn
    · exact happlied
    rcases List.mem_append.1 hn with hn | hn
    · exact ((hsettled .left).applied n hn).mono (subset_inputs .left)
    · exact ((hsettled .right).applied n hn).mono (subset_inputs .right)
  complete g hg hboth := by
    by_contra hnot
    have hno : g ≠ a ∧ ∀ s, g ∉ js s := by
      simpa [Side.forall_side] using hnot
    have hspread (s : Side) : ∃ u, (g.side s).nodes.overlaps (q u) = true :=
      overlaps_inputs.1 (hboth s)
    -- both inputs have nodes of the join, or else one of them has nodes on either side
    have hmeets (u : Side) : g.tree.nodes.overlaps (q u) = true := by
      by_contra hu
      refine hno.2 u.other ((hsettled u.other).complete g hg fun s => ?_)
      obtain ⟨w, hw⟩ := hspread s
      rcases Side.eq_or_eq_other w u with rfl | rfl
      · exact absurd ((overlaps_tree (JoinNode.numbered_of_mem ht hg).1).2 ⟨s, hw⟩) hu
      · exact hw
    have hbelow {n b : JoinNode} {s : Side} {x : NodeSet} (hn : n ∈ t.joins)
        (hb : b ∈ (n.side s).joins) (hx : b.tree.nodes.overlaps x = true) :
        (n.side s).nodes.overlaps x = true :=
      have hnum := JoinNode.numbered_side (JoinNode.numbered_of_mem ht hn).1 s
      overlaps_mono (JoinNode.numbered_of_mem hnum hb).2 (Subset.refl x) hx
    have hnear' (u : Side) : a.tree.nodes.overlaps (q u) = true :=
      (overlaps_tree (JoinNode.numbered_of_mem ht ha).1).2 ⟨u, hnear u⟩
    obtain rfl | ⟨s, hag⟩ | ⟨s, hga⟩ | ⟨h, hh, s, hah, hgh⟩ := cases_of_mem ha hg
    · exact hno.1 rfl
    · obtain ⟨u, hu⟩ := hspread s.other
      refine hno.2 u ((hsettled u).complete g hg fun w => ?_)
      rcases Side.eq_or_eq_other w s with rfl | rfl
      · exact hbelow hg hag (hnear' u)
      · exact hu
    · refine hnew s.other ((hsettled s.other).complete a ha fun w => ?_)
      rcases Side.eq_or_eq_other w s with rfl | rfl
      · exact hbelow ha hga (hmeets w.other)
      · exact hnear s.other
    · have hin (u : Side) : h ∈ js u := by
        refine (hsettled u).complete h hh fun w => ?_
        rcases Side.eq_or_eq_other w s with rfl | rfl
        · exact hbelow hh hah (hnear' u)
        · exact hbelow hh hgh (hmeets u)
      exact honce .left h (hin .left) (hin .right)

end Tree

end QueryGraph
