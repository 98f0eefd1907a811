import QueryGraph.JoinGraph.Basic
import QueryGraph.Proofs.Conflict.Folding
import QueryGraph.Proofs.Reordering.Separation

/-!
# Plans

The orders of joins that a join graph admits.

## The model

A plan is a binary tree over the nodes of the graph. Every join comes with its edge, and it may be
applied to two inputs that contain the two ends of the edge and together obey the rules of the join
(`Applicable`). Inputs are taken as they come, except that those of an inner join may be changed round.
A plan that uses all nodes and all joins once, each where it may be applied, is `Admitted`.

## What is proved

* `sound_join` — the result of a plan is that of the part of the tree on its nodes, if this is so for
  the inputs of its last join.
* `rows_of_admitted` — an admitted plan returns what the tree of the graph does.
-/

namespace QueryGraph

open BitSet

variable {R : Type}

/-- An order in which nodes are put together by joins. -/
inductive Plan where
  /-- A table. -/
  | table (id : Nat) (leaf : Leaf)
  /-- A join with its edge, applied to two inputs. -/
  | join (arc : JoinNode × Hyperedge) (left right : Plan)

namespace Plan

/-- The tables that are put together. -/
def leaves : Plan → List (Nat × Leaf)
  | table i l => [(i, l)]
  | join _ l r => l.leaves ++ r.leaves

/-- The nodes that are put together. -/
def nodes : Plan → NodeSet
  | table _ l => l.nodes
  | join _ l r => l.nodes ∪ r.nodes

/-- The joins with their edges. -/
def arcs : Plan → List (JoinNode × Hyperedge)
  | table _ _ => []
  | join arc l r => arc :: (l.arcs ++ r.arcs)

/-- The joins. -/
def joins (p : Plan) : List JoinNode := p.arcs.map Prod.fst

/-- The rows that a plan returns. -/
def rows (m : Meaning R) (db : Contents R) : Plan → Bag R
  | table i l => (Tree.leaf i l).rows m db
  | join (n, _) l r => n.info.kind.rows (m.holdsAll n.info.allConds) (l.rows m db) (r.rows m db)

/-- The join may be applied to inputs with these nodes. -/
structure Applicable (arc : JoinNode × Hyperedge) (left right : NodeSet) : Prop where
  /-- The left end of its edge is in the left input. -/
  left_subset : arc.2.left ⊆ left
  /-- The right end of its edge is in the right input. -/
  right_subset : arc.2.right ⊆ right
  /-- The inputs together obey the rules of the join. -/
  obeyed : ∀ r ∈ arc.1.info.rules, r.Obeyed (left ∪ right)

/-- Every join may be applied where it is. -/
def Legal : Plan → Prop
  | table _ _ => True
  | join arc l r =>
    (Applicable arc l.nodes r.nodes ∨
      arc.1.info.kind = .inner ∧ Applicable arc r.nodes l.nodes) ∧ l.Legal ∧ r.Legal

/-- The graph admits the plan. -/
structure Admitted (g : JoinGraph) (p : Plan) : Prop where
  /-- The plan puts all nodes together. -/
  leaves_perm : p.leaves.Perm g.tree.leaves
  /-- It uses every join once, with the edge of the join. -/
  arcs_perm : p.arcs.Perm (g.tree.joins.zip g.shape.addedEdges)
  /-- Every join may be applied where it is. -/
  legal : p.Legal

theorem joins_join (arc : JoinNode × Hyperedge) (l r : Plan) :
    (join arc l r).joins = arc.1 :: (l.joins ++ r.joins) := by
  simp [joins, arcs]

theorem mem_nodes_leaves {p : Plan} {v : Nat} : v ∈ p.nodes ↔ ∃ x ∈ p.leaves, v ∈ x.2.nodes := by
  induction p with
  | table i l => simp [nodes, leaves]
  | join arc l r ihl ihr =>
    rw [nodes, mem_union, ihl, ihr, leaves]
    simp only [List.mem_append, or_and_right, exists_or]

end Plan

/-! ### The edge of a join -/

namespace JoinNode

/-- The nodes that the conditions of a join read. -/
def reads (n : JoinNode) : NodeSet := n.tree.nodesAmong (Expr.tablesOf n.info.allConds)

/-- The edge of a join. -/
def edge (n : JoinNode) : Hyperedge := (n.hyperedge n.reads).1

variable {n : JoinNode} {x y : NodeSet}

/-- An input to which a join may be applied has nodes of the side that it is for. -/
theorem overlaps_of_applicable (hn : n.tree.Numbered) (h : Plan.Applicable (n, n.edge) x y) :
    n.left.nodes.overlaps x = true ∧ n.right.nodes.overlaps y = true := by
  have hleft : n.left.nodes ≠ ∅ := (numbered_side hn .left).nodes_ne_empty
  have hright : n.right.nodes ≠ ∅ := (numbered_side hn .right).nodes_ne_empty
  obtain ⟨v, hv, hvl⟩ := overlaps_iff.1
    (ConflictRule.fold_overlaps_left hleft n.conflictRules n.reads n.right.nodes)
  obtain ⟨w, hw, hwr⟩ := overlaps_iff.1
    (ConflictRule.fold_overlaps_right hright n.conflictRules n.reads n.left.nodes)
  exact ⟨overlaps_iff.2 ⟨v, hvl, subset_iff.1 h.left_subset v (mem_inter.2 ⟨hv, hvl⟩)⟩,
    overlaps_iff.2 ⟨w, hwr, subset_iff.1 h.right_subset w (mem_inter.2 ⟨hw, hwr⟩)⟩⟩

/-- A join that has been applied where it may be has found there all that it reads, and its rules are
obeyed, those that its edge stands for as well. -/
theorem applied_of_applicable (hn : n.tree.Numbered)
    (hrules : n.info.rules = (n.hyperedge n.reads).2) (h : Plan.Applicable (n, n.edge) x y) :
    n.Applied (x ∪ y) := by
  have hleft : n.edge.left ⊆ x ∪ y := Subset.trans h.left_subset (subset_union_left x y)
  have hright : n.edge.right ⊆ x ∪ y := Subset.trans h.right_subset (subset_union_right x y)
  obtain ⟨hx, hy⟩ := overlaps_of_applicable hn h
  refine ⟨x ∪ y, Subset.refl _, Side.forall_side.2 ⟨?_, ?_⟩, subset_iff.2 fun v hv => ?_, ?_⟩
  · exact overlaps_mono (Subset.refl _) (subset_union_left x y) hx
  · exact overlaps_mono (Subset.refl _) (subset_union_right x y) hy
  · have hwaiting : v ∈ n.waiting n.reads := subset_iff.1 (ConflictRule.subset_fold _ _ _ _) v hv
    exact mem_of_waiting hn hleft hright hwaiting (subset_iff.1 (Tree.nodesAmong_subset hn _) v hv)
  · refine (obeyed_iff_kept hn hleft hright).2 fun r hr => ?_
    exact h.obeyed r (hrules ▸ hr)

/-- A join that reads something on either side may be applied wherever it finds that and its rules are
obeyed. -/
theorem applicable_of_obeyed (hn : n.tree.Numbered)
    (hrules : n.info.rules = (n.hyperedge n.reads).2) (hx : x ⊆ n.left.nodes)
    (hy : y ⊆ n.right.nodes) (hreads : n.reads ⊆ x ∪ y)
    (hleft : n.reads.overlaps n.left.nodes = true) (hright : n.reads.overlaps n.right.nodes = true)
    (hobeyed : ∀ r ∈ n.conflictRules, r.Obeyed (x ∪ y)) : Plan.Applicable (n, n.edge) x y := by
  have hsub := ConflictRule.subset_saturate n.conflictRules n.reads
  have hwaiting : n.waiting n.reads ⊆ x ∪ y := by
    rw [waiting, ConflictRule.fold_eq_saturate (overlaps_mono hsub (Subset.refl _) hleft)
      (overlaps_mono hsub (Subset.refl _) hright)]
    exact ConflictRule.saturate_subset hreads hobeyed
  have hapart := overlaps_eq_false_iff.1 hn.2.1
  have hx' : n.edge.left ⊆ x := subset_iff.2 fun v hv => by
    obtain ⟨hv, hvl⟩ := mem_inter.1 hv
    rcases mem_union.1 (subset_iff.1 hwaiting v hv) with hvx | hvy
    · exact hvx
    · exact absurd (subset_iff.1 hy v hvy) (hapart v hvl)
  have hy' : n.edge.right ⊆ y := subset_iff.2 fun v hv => by
    obtain ⟨hv, hvr⟩ := mem_inter.1 hv
    rcases mem_union.1 (subset_iff.1 hwaiting v hv) with hvx | hvy
    · exact absurd hvr (hapart v (subset_iff.1 hx v hvx))
    · exact hvy
  have hkept := (obeyed_iff_kept hn (Subset.trans hx' (subset_union_left x y))
    (Subset.trans hy' (subset_union_right x y))).1 hobeyed
  exact ⟨hx', hy', fun r hr => hkept r (hrules ▸ hr)⟩

end JoinNode

namespace Tree

/-- Every join keeps the rules that are left of its edge. -/
def Ruled (t : Tree) : Prop := ∀ n ∈ t.joins, n.info.rules = (n.hyperedge n.reads).2

/-- No join is in a tree twice. -/
theorem nodup_joins {t : Tree} (ht : t.Numbered) : t.joins.Nodup := by
  induction t using inductSides with
  | leaf i l => exact List.nodup_nil
  | join n ih =>
    have hl : n.left.joins.Nodup := ih .left (JoinNode.numbered_side ht .left)
    have hr : n.right.joins.Nodup := ih .right (JoinNode.numbered_side ht .right)
    have hbelow (s : Side) : n ∉ (n.side s).joins := fun h => Nat.lt_irrefl _ (size_lt_of_mem h)
    rw [JoinNode.tree, joins, List.nodup_append, List.nodup_append]
    refine ⟨⟨hl, hr, fun a ha b hb hab => ?_⟩, List.nodup_singleton _, fun a ha b hb hab => ?_⟩
    · obtain ⟨hnum, hsub⟩ := JoinNode.numbered_of_mem (JoinNode.numbered_side ht .left) ha
      obtain ⟨v, hv⟩ := ne_empty_iff.1 hnum.nodes_ne_empty
      have hsub' := (JoinNode.numbered_of_mem (JoinNode.numbered_side ht .right) (hab ▸ hb)).2
      exact JoinNode.not_mem_other_side ht (subset_iff.1 hsub v hv)
        (subset_iff.1 hsub' v hv)
    · obtain rfl := hab.trans (List.mem_singleton.1 hb)
      rcases List.mem_append.1 ha with ha | ha
      · exact hbelow .left ha
      · exact hbelow .right ha

theorem Settled.congr {t : Tree} {js js' : List JoinNode} {x : NodeSet} (h : t.Settled js x)
    (hjs : ∀ n, n ∈ js ↔ n ∈ js') : t.Settled js' x where
  applied n hn := h.applied n ((hjs n).2 hn)
  complete n hn hboth := (hjs n).1 (h.complete n hn hboth)

end Tree

/-! ### Sound plans -/

namespace Plan

/-- In a plan the joins with nodes on either side have been applied, and it returns what the tree does
on its nodes. -/
structure Sound (m : Meaning R) (db : Contents R) (t : Tree) (p : Plan) : Prop where
  /-- The joins of the plan have been applied, and no others have nodes on either side. -/
  settled : t.Settled p.joins p.nodes
  /-- The plan returns what the tree does on its nodes. -/
  rows_eq : t.rowsOn m db p.nodes = some (p.rows m db)

variable {m : Meaning R} {db : Contents R} {t : Tree}

theorem sound_table (ht : t.Numbered) (hone : t.OneEach) {i : Nat} {l : Leaf}
    (hl : (i, l) ∈ t.leaves) : (table i l).Sound m db t where
  settled := by
    refine ⟨nofun, fun n hn hboth => ?_⟩
    obtain ⟨v, hv, hvl⟩ := overlaps_iff.1 (hboth .left)
    obtain ⟨w, hw, hwl⟩ := overlaps_iff.1 (hboth .right)
    obtain rfl : v = w := Tree.oneEach_leaf hone hl v hvl w hwl
    have hnot : v ∉ (n.side Side.left.other).nodes :=
      JoinNode.not_mem_other_side (JoinNode.numbered_of_mem ht hn).1 hv
    exact absurd hw hnot
  rows_eq := Tree.rowsOn_leaf ht hl

/-- The inputs of a join by its sides. -/
def input (l r : Plan) : Side → Plan
  | .left => l
  | .right => r

/-- A join that is applied where it may be goes on from sound plans to a sound plan. -/
theorem sound_join (hreg : t.Regular) (hjudged : t.JudgedRightly m) (hruled : t.Ruled)
    {n : JoinNode} (hn : n ∈ t.joins) {l r : Plan} (hl : l.Sound m db t) (hr : r.Sound m db t)
    (hdisjoint : ∀ v ∈ l.nodes, v ∉ r.nodes) (hnodup : (join (n, n.edge) l r).joins.Nodup)
    (happ : Applicable (n, n.edge) l.nodes r.nodes) : (join (n, n.edge) l r).Sound m db t := by
  have hnum := (JoinNode.numbered_of_mem hreg.numbered hn).1
  let q : Side → NodeSet := fun s => (input l r s).nodes
  let js : Side → List JoinNode := fun s => (input l r s).joins
  rw [joins_join, List.nodup_cons, List.nodup_append] at hnodup
  obtain ⟨hfresh, -, -, hapart⟩ := hnodup
  have hsound (s : Side) : (input l r s).Sound m db t := by cases s <;> assumption
  have hsettled (s : Side) : t.Settled (js s) (q s) := (hsound s).settled
  have hq (s : Side) : ∀ v ∈ q s, v ∉ q s.other := by
    cases s
    · exact hdisjoint
    · exact fun v hvr hvl => hdisjoint v hvl hvr
  have hnear : ∀ s, (n.side s).nodes.overlaps (q s) = true :=
    Side.forall_side.2 (JoinNode.overlaps_of_applicable hnum happ)
  have hnew : ∀ s, n ∉ js s :=
    Side.forall_side.2 (not_or.1 fun h => hfresh (List.mem_append.2 h))
  have honce (s : Side) : ∀ a ∈ js s, a ∉ js s.other := by
    cases s
    · exact fun a ha ha' => hapart a ha a ha' rfl
    · exact fun a ha ha' => hapart a ha' a ha rfl
  have happlied := JoinNode.applied_of_applicable hnum (hruled n hn) happ
  refine ⟨joins_join _ l r ▸
    Tree.settled_union hreg.numbered hn hsettled hnear hnew honce happlied, ?_⟩
  have hfits := Tree.fits_of_settled hreg.numbered hjudged hn hsettled hq hnear hnew honce
  obtain ⟨b, hb, hunion⟩ := Tree.rowsOn_union hreg hn hfits
  have hleft : b .left = l.rows m db := Option.some.inj ((hb .left).symm.trans hl.rows_eq)
  have hright : b .right = r.rows m db := Option.some.inj ((hb .right).symm.trans hr.rows_eq)
  rw [hleft, hright] at hunion
  exact hunion

/-- The inputs of an inner join may be changed round. -/
theorem Sound.swap (hreg : t.Regular) {arc : JoinNode × Hyperedge} {l r : Plan}
    (hkind : arc.1.info.kind = .inner) (hl : l.Sound m db t) (hr : r.Sound m db t)
    (hdisjoint : ∀ v ∈ l.nodes, v ∉ r.nodes) (h : (join arc r l).Sound m db t) :
    (join arc l r).Sound m db t := by
  have hnodes : (join arc r l).nodes = (join arc l r).nodes := union_comm r.nodes l.nodes
  have hjoins (n : JoinNode) : n ∈ (join arc r l).joins ↔ n ∈ (join arc l r).joins := by
    simp only [joins_join, List.mem_cons, List.mem_append, Or.comm]
  have hapart : JoinKind.Apart (r.rows m db) (l.rows m db) :=
    JoinKind.apart_of_within (Tree.within_tablesOn hr.rows_eq) (Tree.within_tablesOn hl.rows_eq)
      fun i hi hi' => Tree.not_mem_tablesOn hreg.separate hreg.oneEach hdisjoint hi' hi
  have hrows : (join arc r l).rows m db = (join arc l r).rows m db := by
    rw [rows, rows, hkind]
    exact JoinKind.rows_inner_comm hapart
  exact ⟨hnodes ▸ h.settled.congr hjoins, hnodes ▸ hrows ▸ h.rows_eq⟩

/-- A plan whose joins are applied where they may be is sound. -/
theorem sound_of_legal (hreg : t.Regular) (hjudged : t.JudgedRightly m) (hruled : t.Ruled)
    {p : Plan} (hlegal : p.Legal) (hleaves : ∀ x ∈ p.leaves, x ∈ t.leaves)
    (hpairwise : p.leaves.Pairwise fun x y => x.2.nodes.overlaps y.2.nodes = false)
    (harcs : ∀ arc ∈ p.arcs, arc.1 ∈ t.joins ∧ arc.2 = arc.1.edge) (hnodup : p.joins.Nodup) :
    p.Sound m db t := by
  induction p with
  | table i l =>
    exact sound_table hreg.numbered hreg.oneEach (hleaves (i, l) (List.mem_singleton_self _))
  | join arc l r ihl ihr =>
    obtain ⟨n, e⟩ := arc
    obtain ⟨happ, hlegall, hlegalr⟩ := hlegal
    obtain ⟨hpl, hpr, hcross⟩ := List.pairwise_append.1 hpairwise
    obtain ⟨⟨hn, he⟩, harcs'⟩ := List.forall_mem_cons.1 harcs
    obtain ⟨harcsl, harcsr⟩ := List.forall_mem_append.1 harcs'
    obtain ⟨hleavesl, hleavesr⟩ := List.forall_mem_append.1 hleaves
    have hcons : (n :: (l.joins ++ r.joins)).Nodup := joins_join (n, e) l r ▸ hnodup
    obtain ⟨hnodupl, hnodupr, -⟩ := List.nodup_append.1 (List.nodup_cons.1 hcons).2
    have hl := ihl hlegall hleavesl hpl harcsl hnodupl
    have hr := ihr hlegalr hleavesr hpr harcsr hnodupr
    have hdisjoint : ∀ v ∈ l.nodes, v ∉ r.nodes := by
      intro v hv hv'
      obtain ⟨x, hx, hvx⟩ := mem_nodes_leaves.1 hv
      obtain ⟨y, hy, hvy⟩ := mem_nodes_leaves.1 hv'
      exact overlaps_eq_false_iff.1 (hcross x hx y hy) v hvx hvy
    obtain rfl : e = n.edge := he
    rcases happ with happ | ⟨hkind, happ⟩
    · exact sound_join hreg hjudged hruled hn hl hr hdisjoint hnodup happ
    · have hnodup' : (join (n, n.edge) r l).joins.Nodup := by
        rw [joins_join] at hnodup ⊢
        exact (List.perm_append_comm.cons n).nodup hnodup
      exact .swap hreg hkind hl hr hdisjoint
        (sound_join hreg hjudged hruled hn hr hl (fun v hv hv' => hdisjoint v hv' hv) hnodup' happ)

/-- An admitted plan returns what the tree of the graph does. -/
theorem rows_of_admitted {g : JoinGraph} (hreg : g.tree.Regular) (hjudged : g.tree.JudgedRightly m)
    (hruled : g.tree.Ruled) (hedges : g.shape.addedEdges = g.tree.joins.map JoinNode.edge)
    {p : Plan} (h : p.Admitted g) : p.rows m db = g.tree.rows m db := by
  have hzip : p.arcs.Perm (g.tree.joins.map fun n => (n, n.edge)) := by
    rw [List.map_prod_left_eq_zip, ← hedges]
    exact h.arcs_perm
  have harcs : ∀ arc ∈ p.arcs, arc.1 ∈ g.tree.joins ∧ arc.2 = arc.1.edge := by
    intro arc harc
    obtain ⟨n, hn, rfl⟩ := List.mem_map.1 (hzip.mem_iff.1 harc)
    exact ⟨hn, rfl⟩
  have hjoins : p.joins.Perm g.tree.joins := by
    have hperm := hzip.map Prod.fst
    rwa [List.map_map, show Prod.fst ∘ (fun n : JoinNode => (n, n.edge)) = id from rfl,
      List.map_id] at hperm
  have hleaves : ∀ x ∈ p.leaves, x ∈ g.tree.leaves := fun x => h.leaves_perm.mem_iff.1
  have hpairwise : p.leaves.Pairwise fun x y => x.2.nodes.overlaps y.2.nodes = false := by
    refine (h.leaves_perm.pairwise_iff fun hxy => ?_).2 (Tree.pairwise_leaves hreg.numbered)
    exact overlaps_eq_false_iff.2 fun v hv hv' => overlaps_eq_false_iff.1 hxy v hv' hv
  have hnodup : p.joins.Nodup := hjoins.nodup_iff.2 (Tree.nodup_joins hreg.numbered)
  have hsound : p.Sound m db g.tree :=
    sound_of_legal hreg hjudged hruled h.legal hleaves hpairwise harcs hnodup
  have hnodes : g.tree.nodes ⊆ p.nodes := subset_iff.2 fun v hv => by
    obtain ⟨x, hx, hvx⟩ := (Tree.mem_nodes_leaves hreg.numbered).1 hv
    exact mem_nodes_leaves.2 ⟨x, h.leaves_perm.mem_iff.2 hx, hvx⟩
  have hall : g.tree.rowsOn m db p.nodes = some (g.tree.rows m db) :=
    Tree.rowsOn_of_subset hreg.numbered hnodes
  exact Option.some.inj (hsound.rows_eq.symm.trans hall)

end Plan

end QueryGraph
