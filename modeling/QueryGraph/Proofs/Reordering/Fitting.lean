import QueryGraph.Proofs.Meaning.Restriction
import QueryGraph.Proofs.Reordering.Parts

/-!
# Joins that fit

When a join of a tree makes one part of the tree out of two.

## The model

The two inputs of the join are given by their nodes, one for each of its sides. A join above it in the
tree may have been applied already in one of the inputs; then it has nodes on its far side there. The
join fits if its own sides are apart in the inputs, and if every such join above is exchangeable with
it, is applied in one input only and has all the nodes there that its conditions read.

## What is proved

* `rowsOn_union` — a join that fits makes of the results of two parts that of the part on the nodes of
  both, by induction on the tree above the join.
-/

namespace QueryGraph

open BitSet

variable {R : Type} {m : Meaning R} {db : Contents R}

/-- Conditions ignore the tables that they do not read. -/
theorem Meaning.ignores_holdsAll (m : Meaning R) {cs : List Expr} {ts : TableSet}
    (h : ∀ i ∈ Expr.tablesOf cs, i ∉ ts) : JoinKind.Ignores (m.holdsAll cs) ts := fun _ _ hxy =>
  m.holdsAll_congr fun c hc i hi =>
    hxy i (h i (mem_unions.2 ⟨c.tables, List.mem_map_of_mem hc, hi⟩))

namespace Tree

/-- What is required of a tree so that joins may be reordered in it. -/
structure Regular (t : Tree) : Prop where
  /-- The nodes of joins are those of their sides. -/
  numbered : t.Numbered
  /-- Every table has one node. -/
  oneEach : t.OneEach
  /-- No table is below both sides of a join. -/
  separate : t.Separate
  /-- The conditions of joins read what is visible of their sides. -/
  inScope : t.Scoped

/-- The join `a` of a tree fits on two inputs with these nodes. -/
structure Fits (m : Meaning R) (t : Tree) (a : JoinNode) (q : Side → NodeSet) : Prop where
  /-- The inputs have no node in common. -/
  disjoint : ∀ s, ∀ v ∈ q s, v ∉ q s.other
  /-- Every input has nodes of the side of the join that it is for. -/
  near : ∀ s, (a.side s).nodes.overlaps (q s) = true
  /-- No input has nodes of the other side. -/
  apart : ∀ s, (a.side s.other).nodes.overlaps (q s) = false
  /-- A join above that has been applied in one of the inputs has not in the other one. -/
  once : ∀ c ∈ t.joins, ∀ s, a ∈ (c.side s).joins → ∀ sa,
    (c.side s.other).nodes.overlaps (q sa) = true →
      (c.side s.other).nodes.overlaps (q sa.other) = false
  /-- Such a join is exchangeable with this one. -/
  exchangeable : ∀ c ∈ t.joins, ∀ s, a ∈ (c.side s).joins → ∀ sa,
    (c.side s.other).nodes.overlaps (q sa) = true → c.Exchangeable m s a sa
  /-- All that its conditions read is in the input where it has been applied. -/
  covered : ∀ c ∈ t.joins, ∀ s, a ∈ (c.side s).joins → ∀ sa,
    (c.side s.other).nodes.overlaps (q sa) = true →
      c.tree.nodesAmong (Expr.tablesOf c.info.allConds) ⊆ q sa

theorem Regular.side {n : JoinNode} (h : n.tree.Regular) (s : Side) : (n.side s).Regular where
  numbered := JoinNode.numbered_side h.numbered s
  oneEach := oneEach_side h.oneEach s
  separate := separate_side h.separate s
  inScope := by
    cases s
    · exact h.inScope.2.1
    · exact h.inScope.2.2

theorem Fits.side {n a : JoinNode} {q : Side → NodeSet} (h : n.tree.Fits m a q) (s : Side) :
    (n.side s).Fits m a q where
  disjoint := h.disjoint
  near := h.near
  apart := h.apart
  once c hc := h.once c (mem_joins_tree.2 (.inr ⟨s, hc⟩))
  exchangeable c hc := h.exchangeable c (mem_joins_tree.2 (.inr ⟨s, hc⟩))
  covered c hc := h.covered c (mem_joins_tree.2 (.inr ⟨s, hc⟩))

/-- The conditions of a join read tables below it. -/
theorem tablesOf_subset {t : Tree} (h : t.Scoped) {a : JoinNode} (ha : a ∈ t.joins) :
    Expr.tablesOf a.info.allConds ⊆ a.tree.tables := by
  induction t using inductSides with
  | leaf i l => exact nomatch ha
  | join n ih =>
    rcases mem_joins_tree.1 ha with rfl | ⟨s, hs⟩
    · refine Expr.unions_subset.2 fun c hc => Subset.trans (h.1 c hc) (union_subset ?_ ?_)
      · exact Subset.trans a.left.visible_subset (subset_union_left _ _)
      · exact Subset.trans a.right.visible_subset (subset_union_right _ _)
    · cases s
      · exact ih .left h.2.1 hs
      · exact ih .right h.2.2 hs

theorem tables_tree_subset {t : Tree} {a : JoinNode} (ha : a ∈ t.joins) : a.tree.tables ⊆ t.tables :=
  subset_iff.2 fun i hi =>
    have ⟨s, hs⟩ := mem_tables_tree.1 hi
    subset_iff.1 (tables_side_subset ha s) i hs

/-- With a join `n` above, applied in one of the inputs of `a`, the two joins may change places. -/
theorem onto_comm_of_fits {n a : JoinNode} {q : Side → NodeSet} (hreg : n.tree.Regular)
    (hfit : n.tree.Fits m a q) {s sa : Side} (ha : a ∈ (n.side s).joins)
    (hfar : (n.side s.other).nodes.overlaps (q sa) = true) {b : Side → Bag R} {z : Bag R}
    (hb : ∀ u, (n.side s).rowsOn m db (q u) = some (b u))
    (hz : (n.side s.other).rowsOn m db (q sa) = some z) :
    n.info.kind.onto s (m.holdsAll n.info.allConds)
        (a.info.kind.onto sa (m.holdsAll a.info.allConds) (b sa) (b sa.other)) z =
      a.info.kind.onto sa (m.holdsAll a.info.allConds)
        (n.info.kind.onto s (m.holdsAll n.info.allConds) (b sa) z) (b sa.other) := by
  have hmem : n ∈ n.tree.joins := mem_joins_tree.2 (.inl rfl)
  have hex := hfit.exchangeable n hmem s ha sa hfar
  have hcovered : (n.side s).nodesAmong (Expr.tablesOf n.info.allConds) ⊆ q sa :=
    Subset.trans (subset_iff.2 fun v hv => mem_nodesAmong_tree.2 ⟨s, hv⟩)
      (hfit.covered n hmem s ha sa hfar)
  have hnear (u : Side) : (n.side s).tablesOn (q u) ⊆ (n.side s).tables := tablesOn_subset _ _
  have hdisjoint {i : Nat} (hi : i ∈ (n.side s).tables) : i ∉ (n.side s.other).tables :=
    not_mem_tables_other hreg.separate hi
  have hread {i : Nat} (hi : i ∈ Expr.tablesOf n.info.allConds) :
      i ∉ (n.side s).tablesOn (q sa.other) :=
    not_mem_tablesOn_of_nodesAmong hcovered (hfit.disjoint sa) hi
  let lower : Branch R :=
    { kind := a.info.kind
      side := sa
      cond := m.holdsAll a.info.allConds
      rest := b sa.other
      tables := (n.side s).tablesOn (q sa.other)
      within := within_tablesOn (hb sa.other)
      shown := hex.shown' }
  let upper : Branch R :=
    { kind := n.info.kind
      side := s
      cond := m.holdsAll n.info.allConds
      rest := z
      tables := (n.side s.other).tables
      within := fun x hx => (within_tablesOn hz x hx).mono (tablesOn_subset _ _)
      shown := hex.shown }
  have hlower : lower.LetsPass upper := by
    intro hkeeps
    obtain ⟨hka, hrefuses⟩ := hex.passes hkeeps
    refine ⟨hka, fun x hx => hrefuses x fun i hi _ => hx i fun hmem => ?_⟩
    rcases mem_union.1 hmem with hin | hin
    · have hpart := mem_tablesOn_side (separate_side hreg.separate s) ha hi hin
      have hnum := (JoinNode.numbered_of_mem (hreg.side s).numbered ha).1
      have hoverlap := overlaps_of_mem_tablesOn (JoinNode.numbered_side hnum sa) hpart
      have hapart := hfit.apart sa.other
      rw [Side.other_other, hoverlap] at hapart
      cases hapart
    · exact hdisjoint (subset_iff.1 (tables_side_subset ha sa) i hi) hin
  have hupper : upper.LetsPass lower := by
    intro hkeeps
    obtain ⟨hkn, hrefuses⟩ := hex.passes' hkeeps
    refine ⟨hkn, fun x hx => hrefuses x fun i hi hreads => hx i fun hmem => ?_⟩
    rcases mem_union.1 hmem with hin | hin
    · exact hdisjoint hi hin
    · exact hread hreads hin
  refine Branch.apply_comm (a := lower) (b := upper) (within_tablesOn (hb sa)) ?_ ?_ ?_ ?_ ?_
    hlower hupper
  · exact fun i hi =>
      not_mem_tablesOn (separate_side hreg.separate s) (hreg.side s).oneEach (hfit.disjoint sa) hi
  · exact fun i hi => hdisjoint (subset_iff.1 (hnear sa) i hi)
  · exact fun i hi => hdisjoint (subset_iff.1 (hnear sa.other) i hi)
  · refine m.ignores_holdsAll fun i hi => hdisjoint ?_
    exact subset_iff.1 (tables_tree_subset ha) i
      (subset_iff.1 (tablesOf_subset (hreg.side s).inScope ha) i hi)
  · exact m.ignores_holdsAll fun i hi => hread hi

theorem rows_eq_onto (k : JoinKind) (p : Row R → Bool) (b : Side → Bag R) (s : Side) :
    k.rows p (b .left) (b .right) = k.onto s p (b s) (b s.other) := by
  cases s <;> rfl

theorem mem_inputs {q : Side → NodeSet} (s : Side) {v : Nat} :
    v ∈ q .left ∪ q .right ↔ v ∈ q s ∨ v ∈ q s.other := by
  cases s
  · exact mem_union
  · exact mem_union.trans or_comm

/-- An input without nodes of the tree adds nothing. -/
theorem rowsOn_inputs {t : Tree} (ht : t.Numbered) {q : Side → NodeSet} {s : Side}
    (h : t.nodes.overlaps (q s.other) = false) :
    t.rowsOn m db (q .left ∪ q .right) = t.rowsOn m db (q s) := by
  refine rowsOn_congr ht fun v hv => (mem_inputs s).trans (or_iff_left ?_)
  exact overlaps_eq_false_iff.1 h v hv

/-- A join that fits makes one part of two. -/
theorem rowsOn_union {t : Tree} {a : JoinNode} {q : Side → NodeSet} (hreg : t.Regular)
    (ha : a ∈ t.joins) (hfit : t.Fits m a q) :
    ∃ b : Side → Bag R, (∀ s, t.rowsOn m db (q s) = some (b s)) ∧
      t.rowsOn m db (q .left ∪ q .right) =
        some (a.info.kind.rows (m.holdsAll a.info.allConds) (b .left) (b .right)) := by
  induction t using inductSides with
  | leaf i l => exact nomatch ha
  | join n ih =>
    have hnum (s : Side) := (hreg.side s).numbered
    rcases mem_joins_tree.1 ha with rfl | ⟨s, hs⟩
    · have hpart (s : Side) : ∃ b, (a.side s).rowsOn m db (q s) = some b :=
        exists_rowsOn (hnum s) (hfit.near s)
      choose b hb using hpart
      refine ⟨b, fun s => (rowsOn_side hreg.numbered (hfit.apart s)).trans (hb s), ?_⟩
      have hboth (s : Side) : (a.side s).rowsOn m db (q .left ∪ q .right) = some (b s) := by
        have hapart := hfit.apart s.other
        rw [Side.other_other] at hapart
        exact (rowsOn_inputs (hnum s) hapart).trans (hb s)
      exact rowsOn_both (s := .left) (hboth .left) (hboth .right)
    · obtain ⟨b, hb, hunion⟩ := ih s (hreg.side s) hs (hfit.side s)
      have hmem : n ∈ n.tree.joins := mem_joins_tree.2 (.inl rfl)
      by_cases hfar : ∃ sa, (n.side s.other).nodes.overlaps (q sa) = true
      · obtain ⟨sa, hfar⟩ := hfar
        have honce := hfit.once n hmem s hs sa hfar
        obtain ⟨z, hz⟩ : ∃ z, (n.side s.other).rowsOn m db (q sa) = some z :=
          exists_rowsOn (hnum s.other) hfar
        have hz' := (rowsOn_inputs (hnum s.other) honce).trans hz
        let c := n.info.kind.onto s (m.holdsAll n.info.allConds) (b sa) z
        refine ⟨Function.update b sa c, fun u => ?_, ?_⟩
        · rcases Side.eq_or_eq_other u sa with rfl | rfl
          · rw [Function.update_self]
            exact rowsOn_both (hb u) hz
          · rw [Function.update_of_ne (Side.other_ne sa)]
            exact (rowsOn_side hreg.numbered honce).trans (hb _)
        · rw [rowsOn_both hunion hz', rows_eq_onto _ _ b sa,
            rows_eq_onto _ _ (Function.update b sa c) sa, Function.update_self,
            Function.update_of_ne (Side.other_ne sa), onto_comm_of_fits hreg hfit hs hfar hb hz]
      · have hnear (u : Side) : (n.side s.other).nodes.overlaps (q u) = false :=
          Bool.eq_false_iff.2 fun h => hfar ⟨u, h⟩
        refine ⟨b, fun u => (rowsOn_side hreg.numbered (hnear u)).trans (hb u), ?_⟩
        have hunion' : (n.side s.other).nodes.overlaps (q .left ∪ q .right) = false := by
          refine overlaps_eq_false_iff.2 fun v hv hq => ?_
          rcases mem_union.1 hq with hq | hq
          · exact overlaps_eq_false_iff.1 (hnear .left) v hv hq
          · exact overlaps_eq_false_iff.1 (hnear .right) v hv hq
        exact (rowsOn_side hreg.numbered hunion').trans hunion

end Tree

end QueryGraph
