import QueryGraph.Proofs.Eligibility.Closure

/-!
# Where the tables of an eligibility set come from

A condition waits for tables that it does not read itself because of left joins and antijoins into whose right
side it reaches. Every such join adds the tables that its own conditions read. If there is still no table of
its left side then, it adds the whole left side.

When the second test is made, the set has tables from joins below both sides already. They change nothing that
the two sides of the join do not show: a join below the left side adds something only if the condition reads
the left side, and a left side that is added below the right side belongs to the right side.

## What is proved

* `mem_eligibility_tree` — what the join at the root and its two sides add.
* `source_of_mem_eligibility` — so each table that is added is read by a join that delays the condition, or it
  is on the left side of such a join, which nothing else reads.
* `eligibility_sources` — what an eligibility set contains at least and at most. If no table is below both
  sides of a join, both together say exactly what it contains.
-/

namespace QueryGraph

open BitSet

namespace JoinNode

variable {n : JoinNode} {used : TableSet}

/-- The join pads or drops rows of its right side, and a condition that reads the tables `used` reaches into
that side. -/
structure Delays (n : JoinNode) (used : TableSet) : Prop where
  /-- The join pads or drops rows of its right side. -/
  guards : Tree.guardsRight n.info.kind = true
  /-- The condition reads a table of that side. -/
  reached : used.overlaps n.right.tables = true

/-- Neither the condition nor the conditions of the join read a table of the left side. -/
structure Detached (n : JoinNode) (used : TableSet) : Prop where
  /-- The condition does not. -/
  used_misses : used.overlaps n.left.tables = false
  /-- The conditions of the join do not. -/
  reads_miss : (Expr.tablesOf n.info.allConds).overlaps n.left.tables = false

/-- Neither the condition nor a join that delays it, be it this one or one below it, reads a table of the left
side. -/
structure Isolated (n : JoinNode) (used : TableSet) : Prop where
  /-- The condition does not. -/
  used_misses : used.overlaps n.left.tables = false
  /-- The conditions of the joins that delay it do not. -/
  reads_miss : ∀ a ∈ n.tree.joins, a.Delays used →
    (Expr.tablesOf a.info.allConds).overlaps n.left.tables = false

theorem Isolated.detached (h : n.Isolated used) (hdelays : n.Delays used) : n.Detached used :=
  ⟨h.used_misses, h.reads_miss n (Tree.mem_joins_tree.2 (.inl rfl)) hdelays⟩

/-- The tables that there are when a join that delays the condition decides on its left side. -/
def collected (n : JoinNode) (used : TableSet) : TableSet :=
  Tree.fromBoth n used ∪ Expr.tablesOf n.info.allConds

end JoinNode

namespace Tree

variable {t : Tree} {n : JoinNode} {used : TableSet} {i : Nat}

/-! ### One join -/

theorem mem_fromLeft : i ∈ fromLeft n used ↔
    i ∈ used ∨ used.overlaps n.left.tables = true ∧ i ∈ n.left.eligibility used := by
  unfold fromLeft
  split
  next h => rw [mem_union, and_iff_right h]
  next h => rw [or_iff_left fun hi => h hi.1]

/-- What is added at a join: what either side adds into which the condition reaches, what the conditions of
the join read if it delays the condition, and its left side if nothing of it is there by then. -/
theorem mem_eligibility_tree : i ∈ n.tree.eligibility used ↔ i ∈ used ∨
    (∃ s, used.overlaps (n.side s).tables = true ∧ i ∈ (n.side s).eligibility used) ∨
    n.Delays used ∧ (i ∈ Expr.tablesOf n.info.allConds ∨
      i ∈ n.left.tables ∧ (n.collected used).overlaps n.left.tables = false) := by
  have hsides : (∃ s, used.overlaps (n.side s).tables = true ∧ i ∈ (n.side s).eligibility used) ↔
      (used.overlaps n.left.tables = true ∧ i ∈ n.left.eligibility used) ∨
      used.overlaps n.right.tables = true ∧ i ∈ n.right.eligibility used := Side.exists_side
  rw [hsides]
  by_cases hreached : used.overlaps n.right.tables = true
  · rw [eligibility_of_overlaps hreached]
    split_ifs with hguards hleft
    · have hcollected : (n.collected used).overlaps n.left.tables = true := hleft
      have hdelays : n.Delays used := ⟨hguards, hreached⟩
      simp [fromBoth, mem_fromLeft, hreached, hdelays, hcollected, or_assoc]
    · have hcollected : (n.collected used).overlaps n.left.tables = false := Bool.eq_false_iff.2 hleft
      have hdelays : n.Delays used := ⟨hguards, hreached⟩
      simp [fromBoth, mem_fromLeft, hreached, hdelays, hcollected, or_assoc]
    · have hdelays : ¬ n.Delays used := fun h => hguards h.guards
      simp [fromBoth, mem_fromLeft, hreached, hdelays, or_assoc]
  · have hdelays : ¬ n.Delays used := fun h => hreached h.reached
    rw [eligibility_of_not_overlaps hreached]
    simp [mem_fromLeft, hreached, hdelays]

/-- A left side of which nothing has been collected is read by nobody. -/
theorem isolated_of_collected (hdelays : n.Delays used)
    (h : (n.collected used).overlaps n.left.tables = false) : n.Isolated used := by
  have hmiss {ts : TableSet} (hts : ts ⊆ n.collected used) : ts.overlaps n.left.tables = false :=
    overlaps_eq_false_iff.2 fun i hi => overlaps_eq_false_iff.1 h i (subset_iff.1 hts i hi)
  have hboth : fromBoth n used ⊆ n.collected used := subset_union_left _ _
  have hused : used.overlaps n.left.tables = false :=
    hmiss (Subset.trans (Subset.trans (subset_fromLeft n used) (subset_union_left _ _)) hboth)
  refine ⟨hused, fun a ha hadelays => hmiss ?_⟩
  rcases mem_joins_tree.1 ha with rfl | ⟨s, hs⟩
  · exact subset_union_right _ _
  · cases s with
    | left =>
      -- a join below the left side delays only conditions that read the left side
      have hreached := overlaps_mono (Subset.refl used) (tables_side_subset hs .right) hadelays.reached
      rw [show (n.side .left).tables = n.left.tables from rfl, hused] at hreached
      cases hreached
    | right =>
      have hready := readyIn_eligibility hs hadelays.guards hadelays.reached
      exact Subset.trans (Subset.trans hready.reads_subset (subset_union_right _ _)) hboth

/-! ### All joins -/

/-- Each table that is added is read by a join that delays the condition, or it is on the left side of such a
join, which nothing else reads. -/
theorem source_of_mem_eligibility (h : i ∈ t.eligibility used) :
    i ∈ used ∨ ∃ n ∈ t.joins, n.Delays used ∧
      (i ∈ Expr.tablesOf n.info.allConds ∨ i ∈ n.left.tables ∧ n.Isolated used) := by
  induction t using inductSides with
  | leaf j l => exact .inl h
  | join n ih =>
    obtain hused | ⟨s, -, hs⟩ | ⟨hdelays, hsource⟩ := mem_eligibility_tree.1 h
    · exact .inl hused
    · obtain hused | ⟨a, ha, hsource⟩ := ih s hs
      · exact .inl hused
      · exact .inr ⟨a, mem_joins_tree.2 (.inr ⟨s, ha⟩), hsource⟩
    · refine .inr ⟨n, mem_joins_tree.2 (.inl rfl), hdelays, hsource.imp_right ?_⟩
      exact And.imp_right (isolated_of_collected hdelays)

/-- When nobody reads the left side of a join, nothing of it is collected. -/
theorem collected_of_isolated (hseparate : n.tree.Separate) (hdelays : n.Delays used)
    (h : n.Isolated used) : (n.collected used).overlaps n.left.tables = false := by
  refine overlaps_eq_false_iff.2 fun i hi hleft => ?_
  have hunused : i ∉ used := fun hused => overlaps_eq_false_iff.1 h.used_misses i hused hleft
  have hunread {a : JoinNode} (ha : a ∈ n.tree.joins) (hadelays : a.Delays used) :
      i ∉ Expr.tablesOf a.info.allConds := fun hread =>
    overlaps_eq_false_iff.1 (h.reads_miss a ha hadelays) i hread hleft
  obtain (hi | hi) | hi := mem_union.1 hi |>.imp_left mem_union.1
  · obtain hi | ⟨hreached, -⟩ := mem_fromLeft.1 hi
    · exact hunused hi
    · rw [h.used_misses] at hreached
      cases hreached
  · obtain hi | ⟨a, ha, hadelays, hi | ⟨hi, -⟩⟩ := source_of_mem_eligibility hi
    · exact hunused hi
    · exact hunread (mem_joins_tree.2 (.inr ⟨.right, ha⟩)) hadelays hi
    · have hright : i ∈ n.right.tables := subset_iff.1 (tables_side_subset ha .left) i hi
      exact not_mem_of_separate hseparate i hleft hright
  · exact hunread (mem_joins_tree.2 (.inl rfl)) hdelays hi

/-- The left side of a join that delays the condition is added if nobody reads it. -/
theorem left_subset_eligibility (hseparate : t.Separate) (hn : n ∈ t.joins) (hdelays : n.Delays used)
    (h : n.Isolated used) : n.left.tables ⊆ t.eligibility used := by
  induction t using inductSides with
  | leaf j l => exact nomatch hn
  | join a ih =>
    rcases mem_joins_tree.1 hn with rfl | ⟨s, hs⟩
    · refine subset_iff.2 fun i hi => mem_eligibility_tree.2 (.inr (.inr ⟨hdelays, .inr ⟨hi, ?_⟩⟩))
      exact collected_of_isolated hseparate hdelays h
    · have hreached := overlaps_mono (Subset.refl used) (tables_side_subset hs .right) hdelays.reached
      exact Subset.trans (ih s (separate_side hseparate s) hs) (eligibility_side_subset hreached)

/-- **What an eligibility set contains.** It has the tables that the condition reads, and it has everything
ready for the joins that delay the condition. Every other table is read by such a join, or it is on the left
side of such a join, where neither the condition nor the join reads any table. With `Isolated` in place of
`Detached`, these are exactly its tables. -/
theorem eligibility_sources (hseparate : t.Separate) (used : TableSet) :
    used ⊆ t.eligibility used ∧
    (∀ n ∈ t.joins, n.Delays used → n.ReadyIn (t.eligibility used)) ∧
    (∀ i ∈ t.eligibility used, i ∉ used → ∃ n ∈ t.joins, n.Delays used ∧
      (i ∈ Expr.tablesOf n.info.allConds ∨ i ∈ n.left.tables ∧ n.Detached used)) ∧
    ∀ i, i ∈ t.eligibility used ↔ i ∈ used ∨ ∃ n ∈ t.joins, n.Delays used ∧
      (i ∈ Expr.tablesOf n.info.allConds ∨ i ∈ n.left.tables ∧ n.Isolated used) := by
  have hready : ∀ n ∈ t.joins, n.Delays used → n.ReadyIn (t.eligibility used) :=
    fun n hn hdelays => readyIn_eligibility hn hdelays.guards hdelays.reached
  refine ⟨subset_eligibility used t, hready, fun i hi hunused => ?_, fun i => ⟨source_of_mem_eligibility, ?_⟩⟩
  · obtain hused | ⟨n, hn, hdelays, hsource⟩ := source_of_mem_eligibility hi
    · exact absurd hused hunused
    · exact ⟨n, hn, hdelays, hsource.imp_right (And.imp_right fun h => h.detached hdelays)⟩
  · rintro (hused | ⟨n, hn, hdelays, hread | ⟨hleft, hisolated⟩⟩)
    · exact subset_iff.1 (subset_eligibility used t) i hused
    · exact subset_iff.1 (hready n hn hdelays).reads_subset i hread
    · exact subset_iff.1 (left_subset_eligibility hseparate hn hdelays hisolated) i hleft

/-- In `(t0 ⟕ t1) ⟕ t2`, where the lower join reads `t1` alone and the upper one `t1` and `t2`, a condition on
`t1` and `t2` waits for `t0` because the lower join does not read it. -/
theorem eligibility_sources_detached :
    let t : Tree := Spine.tree .left [.isNull (Dialect.sampleColumn 1)] (JoinGraph.matching 1 2)
    let n : JoinNode := Spine.upperJoin .left [.isNull (Dialect.sampleColumn 1)] (JoinGraph.matching 1 2)
    t.Separate ∧ n ∈ t.joins ∧ n.Delays {1, 2} ∧ n.ReadyIn (t.eligibility {1, 2}) ∧
      0 ∈ t.eligibility {1, 2} ∧ 0 ∉ ({1, 2} : TableSet) ∧ ∃ a ∈ t.joins, a.Delays {1, 2} ∧
        (0 ∈ Expr.tablesOf a.info.allConds ∨ 0 ∈ a.left.tables ∧ a.Detached {1, 2}) := by
  intro t n
  have hseparate : t.Separate := Spine.separate_tree _ _ _
  have hn : n ∈ t.joins := mem_joins_tree.2 (.inl rfl)
  have hdelays : n.Delays {1, 2} := ⟨rfl, by decide⟩
  have hadded : 0 ∈ t.eligibility {1, 2} := by decide
  have hunused : 0 ∉ ({1, 2} : TableSet) := by decide
  obtain ⟨-, hready, hsource, -⟩ := eligibility_sources hseparate {1, 2}
  exact ⟨hseparate, hn, hdelays, hready n hn hdelays, hadded, hunused, hsource 0 hadded hunused⟩

end Tree

end QueryGraph
