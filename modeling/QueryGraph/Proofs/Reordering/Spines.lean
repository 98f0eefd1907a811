import QueryGraph.Proofs.Reordering.Soundness

/-!
# Left joins above a join

Where a wrong verdict shows.

## The model

In `(t0 a t1) ⟕ t2` the left join reads `t2` and one of the two other tables, the near one. The join
`a` keeps rows of the far table without a partner. If the verdict on the two joins is positive, the
left join may be applied to the near table first (`early`). With a near table that is empty, the far
one has one row without a partner, and the left join takes its partners for it in the tree but not in
that plan.

## What is proved

* `admitted_early` — the plan is admitted if the verdict is positive.
* `judgedRightly_of_sound` — so the verdict is right if all admitted plans return what the tree does.
-/

namespace QueryGraph

open BitSet

variable {R : Type} {m : Meaning R}

/-! ### Joins of few rows -/

namespace JoinKind

variable {p : Row R → Bool}

theorem left_rows_zero (r : Bag R) : left.rows p 0 r = 0 := by
  rw [rows, Multiset.zero_bind]
  rfl

theorem shows_of_keeps {k : JoinKind} {s : Side} (hk : k.keeps s.other = true) :
    k.shows s = true := by
  cases s <;> cases k <;> first | rfl | cases hk

/-- A join that keeps the rows of the other side returns them if there is nothing else. -/
theorem onto_zero {k : JoinKind} {s : Side} (hk : k.keeps s.other = true) (r : Bag R) :
    k.onto s p 0 r = r := by
  have hapart : Apart 0 r := fun a ha => absurd ha (Multiset.notMem_zero a)
  rw [onto_eq (shows_of_keeps hk) hapart, Multiset.zero_bind, zero_add, extras, if_pos hk]
  refine Multiset.filter_eq_self.2 fun b _ => ?_
  rintro ⟨c, hc, -⟩
  exact Multiset.notMem_zero c hc

/-- A row with two partners is returned twice. -/
theorem card_left_rows {x y : Row R} (h : p (x.merge y) = true) :
    (left.rows p {x} {y, y}).card = 2 := by
  have hmatched : Matched p {y, y} x := ⟨y, Multiset.mem_cons_self y _, h⟩
  have hpartners : partners p {y, y} x = {y, y} := Multiset.filter_eq_self.2 fun b hb => by
    obtain rfl : b = y := by simpa using hb
    exact h
  rw [rows, Multiset.singleton_bind, outputs, if_pos hmatched, hpartners]
  rfl

end JoinKind

/-! ### The tree -/

namespace Spine

/-- The table on a side of the lower join. -/
def number : Side → Nat
  | .left => 0
  | .right => 1

theorem number_lt (s : Side) : number s < 64 := by cases s <;> decide

/-- What the leaf of a table carries. -/
def leaf (i : Nat) (nodes : NodeSet) : Leaf := { table := ⟨i, "t"⟩, nodes := nodes }

/-- The lower join, of the first two tables. -/
def lowerJoin (k : JoinKind) (lower : List Expr) : JoinNode where
  id := 2
  info := { kind := k, conds := lower, usedTables := Expr.tablesOf lower }
  left := .leaf 0 (leaf 0 ∅)
  right := .leaf 1 (leaf 1 ∅)

/-- The left join above it. -/
def upperJoin (k : JoinKind) (lower upper : List Expr) : JoinNode where
  id := 4
  info := { kind := .left, conds := upper, usedTables := Expr.tablesOf upper }
  left := (lowerJoin k lower).tree
  right := .leaf 3 (leaf 2 ∅)

/-- `(t0 k t1) ⟕ t2` with the conditions of the lower and the upper join. -/
def tree (k : JoinKind) (lower upper : List Expr) : Tree := (upperJoin k lower upper).tree

variable {k : JoinKind} {lower upper : List Expr} {s : Side} {n a : JoinNode}

theorem separate_tree (k : JoinKind) (lower upper : List Expr) : (tree k lower upper).Separate := by
  have hupper : BitSet.overlaps ({0} ∪ {1}) {2} = false := by decide
  have hlower : BitSet.overlaps {0} {1} = false := by decide
  exact ⟨hupper, ⟨hlower, trivial, trivial⟩, trivial⟩

theorem numbers_tree (k : JoinKind) (lower upper : List Expr) :
    ∀ i ∈ (tree k lower upper).numbers, i < 64 := by
  change ∀ i ∈ [0, 1, 2], i < 64
  decide

/-- The joins `n` and `a` are those of the tree with its nodes. -/
structure Shape (k : JoinKind) (lower upper : List Expr) (n a : JoinNode) : Prop where
  /-- The lower join is the left side of the upper one. -/
  upper_left : n.left = a.tree
  /-- A table is its right side. -/
  upper_right : n.right = .leaf 3 (leaf 2 {2})
  /-- The sides of the lower join are tables. -/
  lower_side : ∀ s, a.side s = .leaf (number s) (leaf (number s) {number s})
  /-- Without nodes, the upper join is that of the tree. -/
  upper_bare : n.bare = (upperJoin k lower upper).bare
  /-- Without nodes, the lower join is that of the tree. -/
  lower_bare : a.bare = (lowerJoin k lower).bare

theorem exists_shape (est : Estimator) (k : JoinKind) (lower upper : List Expr) :
    ∃ n a : JoinNode, (JoinGraph.ofTree est (tree k lower upper)).value.tree = n.tree ∧
      Shape k lower upper n a := by
  refine ⟨⟨4, _, .join 2 _ _ _, _⟩, ⟨2, _, _, _⟩, rfl, rfl, rfl, fun s => ?_, ?_, ?_⟩
  · cases s <;> rfl
  · rfl
  · rfl

namespace Shape

theorem upper_kind (h : Shape k lower upper n a) : n.info.kind = .left :=
  congrArg (·.info.kind) h.upper_bare

theorem upper_conds (h : Shape k lower upper n a) : n.info.allConds = upper :=
  congrArg (·.info.allConds) h.upper_bare

theorem lower_kind (h : Shape k lower upper n a) : a.info.kind = k :=
  congrArg (·.info.kind) h.lower_bare

theorem lower_left (h : Shape k lower upper n a) : a.left = .leaf 0 (leaf 0 {0}) :=
  h.lower_side .left

theorem lower_right (h : Shape k lower upper n a) : a.right = .leaf 1 (leaf 1 {1}) :=
  h.lower_side .right

/-- The verdict is that on the joins of the tree. -/
theorem exchanges_eq (h : Shape k lower upper n a) (s : Side) :
    n.exchanges .left a s = (upperJoin k lower upper).exchanges .left (lowerJoin k lower) s := by
  rw [← JoinNode.exchanges_bare, h.upper_bare, h.lower_bare, JoinNode.exchanges_bare]

theorem joins_eq (h : Shape k lower upper n a) : n.tree.joins = [a, n] := by
  have hjoins (b : JoinNode) : b.tree.joins = b.left.joins ++ b.right.joins ++ [b] := rfl
  rw [hjoins n, h.upper_left, h.upper_right, hjoins a, h.lower_left, h.lower_right]
  rfl

theorem leaves_eq (h : Shape k lower upper n a) :
    n.tree.leaves = [(0, leaf 0 {0}), (1, leaf 1 {1}), (3, leaf 2 {2})] := by
  rw [JoinNode.tree, Tree.leaves, h.upper_left, h.upper_right, JoinNode.tree, Tree.leaves,
    h.lower_left, h.lower_right]
  rfl

/-- The lower join is the only one below the upper one. -/
theorem eq_of_mem_side (h : Shape k lower upper n a) {u : Side} {b : JoinNode}
    (hb : b ∈ (n.side u).joins) : u = .left ∧ b = a := by
  cases u with
  | left =>
    change b ∈ n.left.joins at hb
    rw [h.upper_left] at hb
    rcases Tree.mem_joins_tree.1 hb with rfl | ⟨w, hw⟩
    · exact ⟨rfl, rfl⟩
    · rw [h.lower_side] at hw
      exact nomatch hw
  | right =>
    change b ∈ n.right.joins at hb
    rw [h.upper_right] at hb
    exact nomatch hb

/-- The upper join reads the nodes with the numbers of the tables that it reads. -/
theorem mem_reads (h : Shape k lower upper n a) {v : Nat} :
    v ∈ n.reads ↔ v ∈ [0, 1, 2] ∧ v ∈ Expr.tablesOf upper := by
  have hsingle (i : Nat) (hi : i < 64) :
      (v ∈ ({i} : NodeSet) ∧ (Expr.tablesOf upper).overlaps {i} = true) ↔
        v = i ∧ v ∈ Expr.tablesOf upper := by
    rw [mem_singleton hi, overlaps_iff]
    simp only [mem_singleton hi, exists_eq_right]
    exact and_congr_right fun hv => by rw [hv]
  rw [JoinNode.reads, Tree.mem_nodesAmong_leaves, h.leaves_eq, h.upper_conds]
  simp only [List.mem_cons, List.not_mem_nil, or_false, or_and_right, exists_or, exists_eq_left, leaf]
  rw [hsingle 0 (by decide), hsingle 1 (by decide), hsingle 2 (by decide)]

end Shape

/-! ### The plan -/

/-- The plan that applies the upper join to the near table first. -/
def early (n a : JoinNode) (s : Side) : Plan :=
  let near : Plan := .table (number s) (leaf (number s) {number s})
  let far : Plan := .table (number s.other) (leaf (number s.other) {number s.other})
  let first : Plan := .join (n, n.edge) near (.table 3 (leaf 2 {2}))
  match s with
  | .left => .join (a, a.edge) first far
  | .right => .join (a, a.edge) far first

/-- The lower join may be applied wherever its tables are. -/
theorem applicable_lower (ht : n.tree.Numbered) (hruled : n.tree.Ruled) (h : Shape k lower upper n a)
    {x y : NodeSet} (hx : {0} ⊆ x) (hy : {1} ⊆ y) : Plan.Applicable (a, a.edge) x y := by
  have hmem : a ∈ n.tree.joins := by simp [h.joins_eq]
  have hnone : a.conflictRules = [] := by
    rw [JoinNode.conflictRules, h.lower_left, h.lower_right]
    rfl
  have hx' : a.edge.left ⊆ x := by
    refine Subset.trans (inter_subset_right _ _) ?_
    rw [h.lower_left]
    exact hx
  have hy' : a.edge.right ⊆ y := by
    refine Subset.trans (inter_subset_right _ _) ?_
    rw [h.lower_right]
    exact hy
  have hnum := (JoinNode.numbered_of_mem ht hmem).1
  have hobeyed := (JoinNode.obeyed_iff_kept hnum (Subset.trans hx' (subset_union_left x y))
    (Subset.trans hy' (subset_union_right x y))).1 (by simp [hnone])
  exact ⟨hx', hy', fun r hr => hobeyed r (hruled a hmem ▸ hr)⟩

/-- The upper join may be applied to the near table if the verdict is positive and it reads nothing of
the far one. -/
theorem applicable_upper (ht : n.tree.Numbered) (hruled : n.tree.Ruled) (h : Shape k lower upper n a)
    (hpositive : n.exchanges .left a s = true)
    (hupper : Expr.tablesOf upper ⊆ {number s} ∪ {2}) (hnear : number s ∈ Expr.tablesOf upper)
    (hright : 2 ∈ Expr.tablesOf upper) : Plan.Applicable (n, n.edge) {number s} {2} := by
  have hmem : a ∈ n.tree.joins := by simp [h.joins_eq]
  have hnum := (JoinNode.numbered_of_mem ht hmem).1
  have hnodes (u : Side) : (a.side u).nodes = {number u} := by
    rw [h.lower_side]
    rfl
  have hsub : ({number s} : NodeSet) ⊆ n.left.nodes := by
    rw [h.upper_left, ← hnodes s]
    exact JoinNode.nodes_side_subset hnum s
  have hnodes' : n.right.nodes = {2} := by
    rw [h.upper_right]
    rfl
  have hnumber : number s ∈ [0, 1, 2] := by cases s <;> decide
  have hmain : number s ∈ ({number s} : NodeSet) := (mem_singleton (number_lt s)).2 rfl
  refine JoinNode.applicable_of_obeyed ht (hruled n (by simp [h.joins_eq])) hsub
    (hnodes' ▸ Subset.refl _) ?_ ?_ ?_ ?_
  · exact subset_iff.2 fun v hv => subset_iff.1 hupper v (h.mem_reads.1 hv).2
  · exact overlaps_iff.2 ⟨number s, h.mem_reads.2 ⟨hnumber, hnear⟩, subset_iff.1 hsub _ hmain⟩
  · refine overlaps_iff.2 ⟨2, h.mem_reads.2 ⟨by decide, hright⟩, ?_⟩
    rw [hnodes']
    decide
  · intro r hr
    obtain ⟨u, b, hb, w, hnegative, rfl⟩ := JoinNode.mem_conflictRules.1 hr
    obtain ⟨rfl, rfl⟩ := h.eq_of_mem_side hb
    rcases Side.eq_or_eq_other w s with rfl | rfl
    · rw [hpositive] at hnegative
      cases hnegative
    · -- the rule is about the far table, which is not there
      intro hactive
      obtain ⟨v, hv, hvx⟩ := overlaps_iff.1 hactive
      have hfar : number s.other ∉ ({number s} ∪ {2} : NodeSet) := by cases s <;> decide
      rw [JoinNode.blocking, hnodes, mem_singleton (number_lt _)] at hv
      exact absurd (hv ▸ hvx) hfar

/-- The plan is admitted if the verdict is positive. -/
theorem admitted_early {g : JoinGraph} (htree : g.tree = n.tree) (ht : n.tree.Numbered)
    (hruled : n.tree.Ruled) (hedges : g.shape.addedEdges = g.tree.joins.map JoinNode.edge)
    (h : Shape k lower upper n a) (hpositive : n.exchanges .left a s = true)
    (hupper : Expr.tablesOf upper ⊆ {number s} ∪ {2}) (hnear : number s ∈ Expr.tablesOf upper)
    (hright : 2 ∈ Expr.tablesOf upper) : (early n a s).Admitted g := by
  have hfirst := applicable_upper ht hruled h hpositive hupper hnear hright
  rw [htree, h.joins_eq] at hedges
  have harcs : g.tree.joins.zip g.shape.addedEdges = [(a, a.edge), (n, n.edge)] := by
    rw [htree, h.joins_eq, hedges]
    rfl
  cases s with
  | left =>
    have hlast : Plan.Applicable (a, a.edge) ({0} ∪ {2}) {1} :=
      applicable_lower ht hruled h (subset_union_left _ _) (Subset.refl _)
    refine ⟨?_, harcs ▸ .refl _, .inl hlast, ⟨.inl hfirst, trivial, trivial⟩, trivial⟩
    rw [htree, h.leaves_eq]
    exact .cons _ (.swap _ _ _)
  | right =>
    have hlast : Plan.Applicable (a, a.edge) {0} ({1} ∪ {2}) :=
      applicable_lower ht hruled h (Subset.refl _) (subset_union_left _ _)
    refine ⟨?_, harcs ▸ .refl _, .inl hlast, trivial, .inl hfirst, trivial, trivial⟩
    rw [htree, h.leaves_eq]
    exact .refl _

/-! ### Contents on which the plan is wrong -/

/-- No record in the near table, one in the far one and two in the last one. -/
def contents (s : Side) (r : R) : Contents R := fun i =>
  if i = number s then 0 else if i = 2 then {r, r} else {r}

theorem rows_leaf (m : Meaning R) (db : Contents R) (i j : Nat) (nodes : NodeSet) :
    (Tree.leaf i (leaf j nodes)).rows m db = (db j).map (Row.single {j}) :=
  Multiset.filter_true _

/-- Where the plan keeps one row of the far table, the tree finds two partners for it. -/
theorem rows_early_ne (h : Shape k lower upper n a) (hkeeps : k.keeps s.other = true)
    (hupper : Expr.tablesOf upper ⊆ {number s} ∪ {2}) {r : R}
    (htrue : m.holdsAll upper (Row.single {2} r) = true) :
    (early n a s).rows m (contents s r) ≠ n.tree.rows m (contents s r) := by
  let p := m.holdsAll a.info.allConds
  let far : Row R := Row.single {number s.other} r
  let last : Row R := Row.single {2} r
  have hne : number s.other ≠ number s ∧ number s.other ≠ 2 ∧ 2 ≠ number s := by cases s <;> decide
  have hfar : contents s r (number s.other) = {r} := by simp [contents, hne]
  have hlast : contents s r 2 = {r, r} := by simp [contents, hne]
  have hnear : contents s r (number s) = 0 := by simp [contents]
  have hplan : (early n a s).rows m (contents s r) = {far} := by
    have honto : (early n a s).rows m (contents s r) =
        a.info.kind.onto s p (n.info.kind.rows (m.holdsAll n.info.allConds) 0 {last, last}) {far} := by
      cases s <;> simp [early, Plan.rows, rows_leaf, hfar, hlast, hnear, JoinKind.onto] <;> rfl
    rw [honto, h.upper_kind, JoinKind.left_rows_zero, h.lower_kind]
    exact JoinKind.onto_zero hkeeps _
  have htree : n.tree.rows m (contents s r) =
      JoinKind.left.rows (m.holdsAll upper) {far} {last, last} := by
    have hlower : n.left.rows m (contents s r) = {far} := by
      have hside (u : Side) : (a.side u).rows m (contents s r) =
          (contents s r (number u)).map (Row.single {number u}) := by
        rw [h.lower_side, rows_leaf]
      have honto : a.tree.rows m (contents s r) = a.info.kind.onto s p 0 {far} := by
        refine (Tree.rows_eq_onto a.info.kind p (fun u => (a.side u).rows m (contents s r)) s).trans ?_
        rw [hside, hside, hnear, hfar]
        rfl
      rw [h.upper_left, honto, h.lower_kind]
      exact JoinKind.onto_zero hkeeps _
    have hright : n.right.rows m (contents s r) = {last, last} := by
      rw [h.upper_right, rows_leaf, hlast]
      rfl
    rw [JoinNode.tree, Tree.rows, hlower, hright, h.upper_kind, h.upper_conds]
  have hpair : m.holdsAll upper (far.merge last) = true := by
    rw [← htrue]
    refine m.holdsAll_congr fun c hc => Row.agree_merge_right (Row.within_single _ r) ?_ last
    intro i hi hfari
    have hread : i ∈ Expr.tablesOf upper := mem_unions.2 ⟨c.tables, List.mem_map_of_mem hc, hi⟩
    have hdisjoint : BitSet.overlaps ({number s} ∪ {2}) {number s.other} = false := by
      cases s <;> decide
    exact overlaps_eq_false_iff.1 hdisjoint i (subset_iff.1 hupper i hread) hfari
  intro heq
  have hcard := congrArg Multiset.card heq
  rw [hplan, htree, JoinKind.card_left_rows hpair, Multiset.card_singleton] at hcard
  cases hcard

theorem scoped_tree (hkeeps : k.keeps s.other = true) (hlower : ∀ c ∈ lower, c.tables ⊆ {0} ∪ {1})
    (hupper : ∀ c ∈ upper, c.tables ⊆ {number s} ∪ {2}) : (tree k lower upper).Scoped := by
  have hshows : k.showsRight = true := by cases s <;> cases k <;> first | rfl | cases hkeeps
  refine ⟨fun c hc => Subset.trans (hupper c hc) ?_, ⟨hlower, trivial, trivial⟩, trivial⟩
  have hvisible : (tree k lower upper).visible = {0} ∪ {1} ∪ {2} := by
    change k.scope {0} {1} ∪ {2} = _
    rw [JoinKind.scope, if_pos hshows]
  change _ ⊆ (tree k lower upper).visible
  rw [hvisible]
  cases s <;> decide

/-- If the verdict on the two joins is positive, a plan is admitted that is wrong as soon as rows of the
last table alone go through the upper join. -/
theorem exists_early (est : Estimator) (k : JoinKind) (s : Side) (lower upper : List Expr)
    (hkeeps : k.keeps s.other = true) (hupper : ∀ c ∈ upper, c.tables ⊆ {number s} ∪ {2})
    (hnear : number s ∈ Expr.tablesOf upper) (hright : 2 ∈ Expr.tablesOf upper)
    (hpositive : (upperJoin k lower upper).exchanges .left (lowerJoin k lower) s = true) :
    ∃ n a, Shape k lower upper n a ∧
      (early n a s).Admitted (JoinGraph.ofTree est (tree k lower upper)).value ∧
      ∀ (m : Meaning R) (r : R), m.holdsAll upper (Row.single {2} r) = true →
        (early n a s).rows m (contents s r) ≠ (tree k lower upper).rows m (contents s r) := by
  have hmade := JoinGraph.assembled_ofTree est (separate_tree k lower upper)
    (numbers_tree k lower upper)
  have hedges := JoinGraph.addedEdges_ofTree est (separate_tree k lower upper)
    (numbers_tree k lower upper)
  have hbare := JoinGraph.bare_ofTree est (tree k lower upper)
  obtain ⟨n, a, htree, h⟩ := exists_shape est k lower upper
  have hnumbered : n.tree.Numbered := htree ▸ hmade.numbered
  have hruled : n.tree.Ruled := htree ▸ hmade.ruled
  have hreads : Expr.tablesOf upper ⊆ {number s} ∪ {2} := Expr.unions_subset.2 hupper
  refine ⟨n, a, h, ?_, fun m r htrue => ?_⟩
  · exact admitted_early htree hnumbered hruled hedges h (h.exchanges_eq s ▸ hpositive) hreads hnear
      hright
  · rw [← Tree.rows_bare m _ (tree k lower upper), ← hbare, htree, Tree.rows_bare]
    exact rows_early_ne h hkeeps hreads htrue

/-- If all admitted plans return what the tree does, the verdict on its two joins is right. -/
theorem judgedRightly_of_sound (est : Estimator) (hkeeps : k.keeps s.other = true)
    (hupper : ∀ c ∈ upper, c.tables ⊆ {number s} ∪ {2}) (hnear : number s ∈ Expr.tablesOf upper)
    (hright : 2 ∈ Expr.tablesOf upper) (hnothing : m.holdsAll upper Row.nothing = false)
    (hsound : ∀ p : Plan, p.Admitted (JoinGraph.ofTree est (tree k lower upper)).value →
      ∀ db, p.rows m db = (tree k lower upper).rows m db) :
    (tree k lower upper).JudgedRightly m := by
  have htables (u : Side) : ((lowerJoin k lower).side u).tables = {number u} := by cases u <;> rfl
  have hmain : number s ∈ ((lowerJoin k lower).side s).tables := by
    rw [htables]
    exact (mem_singleton (number_lt s)).2 rfl
  intro b hb u c hc w hpositive hfar
  have hjoins : (tree k lower upper).joins = [lowerJoin k lower, upperJoin k lower upper] := rfl
  rw [hjoins, List.mem_pair] at hb
  rcases hb with rfl | rfl
  · cases u <;> exact nomatch hc
  cases u with
  | right => exact nomatch hc
  | left =>
    obtain rfl : c = lowerJoin k lower := List.mem_singleton.1 hc
    rcases Side.eq_or_eq_other w s with rfl | rfl
    · refine ⟨rfl, JoinKind.shows_of_keeps hkeeps, nofun, fun _ => ⟨rfl, fun x hx => ?_⟩⟩
      refine Bool.eq_false_iff.2 fun htrue => ?_
      change m.holdsAll upper x = true at htrue
      have hnone : x (number w) = none := hx _ (Tree.mem_tables_tree.2 ⟨w, hmain⟩) hnear
      -- the row takes from the last table only, if it takes anything
      have hagree {y : Row R} (hy : y (number w) = none) (hy' : x 2 = y 2) :
          m.holdsAll upper x = m.holdsAll upper y := by
        refine m.holdsAll_congr fun d hd i hi => ?_
        rcases mem_union.1 (subset_iff.1 (hupper d hd) i hi) with hi | hi
        · obtain rfl := (mem_singleton (number_lt w)).1 hi
          rw [hnone, hy]
        · obtain rfl := (mem_singleton (by decide : 2 < 64)).1 hi
          exact hy'
      cases hx2 : x 2 with
      | none =>
        rw [hagree (y := Row.nothing) rfl hx2, hnothing] at htrue
        cases htrue
      | some r =>
        have hsingle : Row.single {2} r (number w) = none := by cases w <;> rfl
        rw [hagree hsingle hx2] at htrue
        obtain ⟨n, a, -, hadmitted, hwrong⟩ :=
          exists_early est k w lower upper hkeeps hupper hnear hright hpositive
        exact hwrong m r htrue (hsound _ hadmitted _)
    · have hoverlap : (Expr.tablesOf upper).overlaps ((lowerJoin k lower).side s).tables = true :=
        overlaps_iff.2 ⟨number s, hnear, hmain⟩
      rw [Side.other_other] at hfar
      exact absurd (hoverlap.symm.trans hfar) nofun

end Spine

end QueryGraph
