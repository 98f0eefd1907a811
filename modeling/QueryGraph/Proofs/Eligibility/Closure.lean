import QueryGraph.Proofs.Reordering.Exactness
import QueryGraph.Tree.Eligibility

/-!
# Which joins an eligibility set waits for

A left join or an antijoin pads or drops rows of its right side. A set of tables that reaches into the
right side has everything ready for the join when it has the tables that the join conditions read and
one table of the left side. A set for which this is so at every such join is `Closed`.

## What is proved

* `readyIn_eligibility` — the eligibility set of a condition has everything ready for the joins into
  whose right side the condition itself reaches.
* `closed_iff` — a set is closed just when finding its own eligibility set adds nothing to it.
* `eligibility_exact` — so the eligibility set of a condition is closed just when finding it once more
  adds nothing. One pass need not be enough: an upper join may add a table from the right side of a
  lower one (`not_closed_chain`).
-/

namespace QueryGraph

open BitSet

variable {R : Type}

/-- The tables that a join waits for are in the set: all that its conditions read, and one of its left
side. -/
structure JoinNode.ReadyIn (n : JoinNode) (ts : TableSet) : Prop where
  /-- All tables that the conditions read are there. -/
  reads_subset : Expr.tablesOf n.info.allConds ⊆ ts
  /-- Some table of the left side is there. -/
  overlaps_left : ts.overlaps n.left.tables = true

theorem JoinNode.ReadyIn.mono {n : JoinNode} {ts us : TableSet} (h : n.ReadyIn ts) (hsub : ts ⊆ us) :
    n.ReadyIn us where
  reads_subset := Subset.trans h.reads_subset hsub
  overlaps_left := overlaps_mono hsub (Subset.refl _) h.overlaps_left

namespace Tree

/-- A set of tables has everything ready for every join that pads or drops rows of its right side, if it
reaches into that side. -/
def Closed (t : Tree) (ts : TableSet) : Prop :=
  ∀ n ∈ t.joins, guardsRight n.info.kind = true → ts.overlaps n.right.tables = true → n.ReadyIn ts

theorem Closed.side {n : JoinNode} {ts : TableSet} (h : n.tree.Closed ts) (s : Side) :
    (n.side s).Closed ts := fun a ha => h a (mem_joins_tree.2 (.inr ⟨s, ha⟩))

/-! ### What a pass adds -/

/-- What there is when the left side of a join has been looked at. -/
def fromLeft (n : JoinNode) (used : TableSet) : TableSet :=
  if used.overlaps n.left.tables then used ∪ n.left.eligibility used else used

/-- What there is when both sides of a join have been looked at, and the condition reads the right
one. -/
def fromBoth (n : JoinNode) (used : TableSet) : TableSet :=
  fromLeft n used ∪ n.right.eligibility used

theorem eligibility_of_not_overlaps {n : JoinNode} {used : TableSet}
    (h : ¬ used.overlaps n.right.tables = true) : n.tree.eligibility used = fromLeft n used :=
  if_neg h

theorem eligibility_of_overlaps {n : JoinNode} {used : TableSet}
    (h : used.overlaps n.right.tables = true) :
    n.tree.eligibility used =
      if guardsRight n.info.kind then
        if (fromBoth n used ∪ Expr.tablesOf n.info.allConds).overlaps n.left.tables then
          fromBoth n used ∪ Expr.tablesOf n.info.allConds
        else fromBoth n used ∪ Expr.tablesOf n.info.allConds ∪ n.left.tables
      else fromBoth n used := if_pos h

theorem fromBoth_subset_eligibility {n : JoinNode} {used : TableSet}
    (h : used.overlaps n.right.tables = true) : fromBoth n used ⊆ n.tree.eligibility used := by
  rw [eligibility_of_overlaps h]
  split_ifs
  · exact subset_union_left _ _
  · exact Subset.trans (subset_union_left _ _) (subset_union_left _ _)
  · exact Subset.refl _

theorem fromLeft_subset_eligibility (n : JoinNode) (used : TableSet) :
    fromLeft n used ⊆ n.tree.eligibility used := by
  by_cases h : used.overlaps n.right.tables = true
  · exact Subset.trans (subset_union_left _ _) (fromBoth_subset_eligibility h)
  · rw [eligibility_of_not_overlaps h]
    exact Subset.refl _

theorem subset_fromLeft (n : JoinNode) (used : TableSet) : used ⊆ fromLeft n used := by
  unfold fromLeft
  split
  · exact subset_union_left _ _
  · exact Subset.refl _

/-- The tables that the condition reads are eligible. -/
theorem subset_eligibility (used : TableSet) (t : Tree) : used ⊆ t.eligibility used := by
  cases t with
  | leaf i l => exact Subset.refl _
  | join i info l r =>
    exact Subset.trans (subset_fromLeft ⟨i, info, l, r⟩ used) (fromLeft_subset_eligibility _ used)

/-- What a side of a join adds is added by the join. -/
theorem eligibility_side_subset {n : JoinNode} {s : Side} {used : TableSet}
    (h : used.overlaps (n.side s).tables = true) :
    (n.side s).eligibility used ⊆ n.tree.eligibility used := by
  cases s with
  | left =>
    have hleft : fromLeft n used = used ∪ n.left.eligibility used := if_pos h
    exact Subset.trans (hleft ▸ subset_union_right _ _) (fromLeft_subset_eligibility n used)
  | right => exact Subset.trans (subset_union_right _ _) (fromBoth_subset_eligibility h)

/-- Where the condition reads the right side, what the join at the root waits for is added. -/
theorem readyIn_eligibility_tree {n : JoinNode} {used : TableSet}
    (hguards : guardsRight n.info.kind = true) (h : used.overlaps n.right.tables = true) :
    n.ReadyIn (n.tree.eligibility used) := by
  rw [eligibility_of_overlaps h, if_pos hguards]
  split
  next hleft => exact ⟨subset_union_right _ _, hleft⟩
  next =>
    refine ⟨Subset.trans (subset_union_right _ _) (subset_union_left _ _), ?_⟩
    obtain ⟨i, hi⟩ := ne_empty_iff.1 n.left.tables_ne_empty
    exact overlaps_iff.2 ⟨i, mem_union.2 (.inr hi), hi⟩

/-- Everything is ready for the joins into whose right side the condition reaches. -/
theorem readyIn_eligibility {t : Tree} {used : TableSet} {n : JoinNode} (hn : n ∈ t.joins)
    (hguards : guardsRight n.info.kind = true) (h : used.overlaps n.right.tables = true) :
    n.ReadyIn (t.eligibility used) := by
  induction t using inductSides with
  | leaf i l => exact nomatch hn
  | join a ih =>
    rcases mem_joins_tree.1 hn with rfl | ⟨s, hs⟩
    · exact readyIn_eligibility_tree hguards h
    · have hright : n.right.tables ⊆ (a.side s).tables :=
        Subset.trans (subset_union_right n.left.tables n.right.tables) (tables_tree_subset hs)
      exact (ih s hs).mono (eligibility_side_subset (overlaps_mono (Subset.refl _) hright h))

/-! ### Closed sets -/

/-- A pass adds nothing to a closed set. -/
theorem Closed.eligibility_eq {t : Tree} {ts : TableSet} (h : t.Closed ts) :
    t.eligibility ts = ts := by
  induction t using inductSides with
  | leaf i l => rfl
  | join n ih =>
    have hl : n.left.eligibility ts = ts := ih .left (h.side .left)
    have hr : n.right.eligibility ts = ts := ih .right (h.side .right)
    have hself : ts ∪ ts = ts := union_eq_left (Subset.refl ts)
    have hfrom : fromLeft n ts = ts := by rw [fromLeft, hl, hself, ite_self]
    have hboth : fromBoth n ts = ts := by rw [fromBoth, hfrom, hr, hself]
    by_cases hreached : ts.overlaps n.right.tables = true
    · rw [eligibility_of_overlaps hreached, hboth]
      split
      next hguards =>
        obtain ⟨hreads, hleft⟩ := h n (mem_joins_tree.2 (.inl rfl)) hguards hreached
        rw [union_eq_left hreads, if_pos hleft]
      next => rfl
    · rw [eligibility_of_not_overlaps hreached, hfrom]

/-- A set is closed just when finding its eligibility set adds nothing to it. -/
theorem closed_iff {t : Tree} {ts : TableSet} : t.Closed ts ↔ t.eligibility ts = ts := by
  constructor
  · exact Closed.eligibility_eq
  · intro h n hn hguards hreached
    have hready := readyIn_eligibility hn hguards hreached
    rwa [h] at hready

/-- **What an eligibility set waits for.** It has everything ready for every left join and antijoin into
whose right side the condition itself reaches. It has so for those into whose right side the set
reaches just when a second pass adds nothing. -/
theorem eligibility_exact (t : Tree) (used : TableSet) :
    (∀ n ∈ t.joins, guardsRight n.info.kind = true → used.overlaps n.right.tables = true →
      n.ReadyIn (t.eligibility used)) ∧
    (t.Closed (t.eligibility used) ↔
      t.eligibility (t.eligibility used) = t.eligibility used) :=
  ⟨fun _ hn hguards h => readyIn_eligibility hn hguards h, closed_iff⟩

/-- `(t0 ⟕ t1) ⟕ t2`, where equal columns match. -/
def chain : Tree := Spine.tree .left (JoinGraph.matching 0 1) (JoinGraph.matching 1 2)

theorem eligibility_exact_chain :
    let n : JoinNode := Spine.upperJoin .left (JoinGraph.matching 0 1) (JoinGraph.matching 1 2)
    n ∈ chain.joins ∧ guardsRight n.info.kind = true ∧
      BitSet.overlaps {2} n.right.tables = true ∧ n.ReadyIn (chain.eligibility {2}) ∧
      chain.eligibility (chain.eligibility {1}) = chain.eligibility {1} ∧
      chain.Closed (chain.eligibility {1}) := by
  intro n
  have hn : n ∈ chain.joins := mem_joins_tree.2 (.inl rfl)
  have hguards : guardsRight n.info.kind = true := rfl
  have hreached : BitSet.overlaps {2} n.right.tables = true := by decide
  have hstable : chain.eligibility (chain.eligibility {1}) = chain.eligibility {1} := by decide
  exact ⟨hn, hguards, hreached, (eligibility_exact chain {2}).1 n hn hguards hreached, hstable,
    (eligibility_exact chain {1}).2.2 hstable⟩

end Tree

/-! ### A filter that comes too early -/

/-- The rows of a plan in which a filter is applied as soon as the nodes that it waits for are joined. -/
def Plan.rowsWhere (m : Meaning R) (db : Contents R) (c : Expr) (awaited : NodeSet) : Plan → Bag R
  | .table i l =>
    ((Plan.table i l).rows m db).filter fun a => awaited ⊆ l.nodes → m.holds c a
  | .join (n, _) l r =>
    (n.info.kind.rows (m.holdsAll n.info.allConds) (l.rowsWhere m db c awaited)
      (r.rowsWhere m db c awaited)).filter fun a =>
        -- not again if a side has all nodes already
        ¬ awaited ⊆ l.nodes ∧ ¬ awaited ⊆ r.nodes ∧ awaited ⊆ l.nodes ∪ r.nodes → m.holds c a

namespace Tree

/-- A filter on `t2` waits for `t1` and `t2` in `(t0 ⟕ t1) ⟕ t2` and not for `t0`, although it reaches
into the right side of the lower join. So it comes too early in the plan `t0 ⟕ (t1 ⟕ t2)`, which is
admitted: a row of `t0` whose partners it drops is padded afterwards. -/
theorem not_closed_chain :
    chain.Separate ∧ ({2} : TableSet) ⊆ chain.tables ∧ chain.eligibility {2} = {1, 2} ∧
      ¬ chain.Closed (chain.eligibility {2}) ∧
      ∃ p : Plan, p.Admitted (JoinGraph.ofTree .default chain).value ∧
        p.rowsWhere Dialect.plain.meaning (fun _ => {JoinGraph.record (.int 1)})
            (.isNull (Dialect.sampleColumn 2)) {1, 2} ≠
          (chain.rows Dialect.plain.meaning fun _ => {JoinGraph.record (.int 1)}).filter fun a =>
            Dialect.plain.meaning.holds (.isNull (Dialect.sampleColumn 2)) a := by
  refine ⟨Spine.separate_tree _ _ _, by decide, by decide, ?_, ?_⟩
  · rw [closed_iff]
    decide
  · obtain ⟨n, a, h, hadmitted, -⟩ := Spine.exists_early (R := Assignment) .default .left .right
      (JoinGraph.matching 0 1) (JoinGraph.matching 1 2) (by decide) (by decide) (by decide)
      (by decide) (by decide)
    have hlower : a.info.allConds = JoinGraph.matching 0 1 := congrArg (·.info.allConds) h.lower_bare
    -- the plan pads the row of `t0`, and the tree has no row in which `t2` is NULL
    have hplan : ((Spine.early n a .right).rowsWhere Dialect.plain.meaning
        (fun _ => {JoinGraph.record (.int 1)}) (.isNull (Dialect.sampleColumn 2)) {1, 2}).card = 1 := by
      simp only [Spine.early, Plan.rowsWhere, Plan.nodes, h.upper_kind, h.upper_conds, h.lower_kind,
        hlower]
      decide +kernel
    have htree : ((chain.rows Dialect.plain.meaning fun _ => {JoinGraph.record (.int 1)}).filter
        fun a => Dialect.plain.meaning.holds (.isNull (Dialect.sampleColumn 2)) a).card = 0 := by
      decide +kernel
    refine ⟨_, hadmitted, fun heq => ?_⟩
    rw [heq, htree] at hplan
    cases hplan

end Tree

end QueryGraph
