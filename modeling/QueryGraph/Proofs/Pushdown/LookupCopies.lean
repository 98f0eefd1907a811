import QueryGraph.Proofs.Pushdown.Arrivals

/-!
# Where lookups arrive

A condition on tables of both sides of a join could be evaluated by looking up records of one table, with what
it reads of the others as parameters. Copies of it are sent to these tables, and the joins on the way decide
which of them arrive.

## The model

On its way a copy takes parameters. They hold everything that the condition reads elsewhere and nothing that
is below, and something is left that it reads below (`Parametrized`). Where a copy is sent to both sides of a
join again, each takes what the condition reads of the other side as more parameters, so this stays so. What
is sent besides are parts of the condition, and these are on one side alone.

## What is proved

* `Parametrized.side`, `Parametrized.split` — the parameters on the way into one side, or into both.
* `lookup_arrives_iff` — a copy with parameters arrives at the tables that the condition reads and that the
  joins on the way let it get to.
* `lookup_arrives_of_lowest_iff` — so do the copies of a condition that has none: they start from the lowest
  node with its tables, if this is a join.
* `pushDown_lookups` — which tables of a forest have got the condition as a lookup.
-/

namespace QueryGraph

open BitSet

namespace Tree

variable {c : Expr} {own : Bool} {params ts : TableSet} {t u : Tree} {path : List Side} {n : JoinNode}

/-! ### Parameters -/

/-- The condition, which reads something below, takes what it reads elsewhere as parameters. -/
structure Parametrized (c : Expr) (params : TableSet) (t : Tree) : Prop where
  /-- There are parameters. -/
  ne_empty : params ≠ ∅
  /-- No table below is one of them. -/
  apart : ∀ i ∈ t.tables, i ∉ params
  /-- The condition reads nothing else than them and tables below. -/
  covers : c.tables ⊆ t.tables ∪ params
  /-- It reads some table below. -/
  reads : ∃ i ∈ c.tables, i ∈ t.tables

namespace Parametrized

/-- A copy goes into one side with the parameters that it has. -/
theorem side (h : Parametrized c params n.tree) {s : Side} (hside : c.tables ⊆ (n.side s).tables ∪ params) :
    Parametrized c params (n.side s) where
  ne_empty := h.ne_empty
  apart := fun i hi => h.apart i (mem_tables_tree.2 ⟨s, hi⟩)
  covers := hside
  reads := by
    obtain ⟨i, hic, hi⟩ := h.reads
    exact ⟨i, hic, (mem_union.1 (subset_iff.1 hside i hic)).resolve_right (h.apart i hi)⟩

/-- Into both sides it goes with what it reads of the other side as more parameters. -/
theorem split (hsep : n.tree.Separate) (hapart : ∀ i ∈ n.tree.tables, i ∉ params)
    (hcovers : c.tables ⊆ n.tree.tables ∪ params) (hboth : ∀ s, ¬ c.tables ⊆ (n.side s).tables ∪ params)
    (s : Side) : Parametrized c (lookupParams c params (n.side s.other).tables) (n.side s) where
  ne_empty := lookupParams_ne_empty c (.inr (n.side s.other).tables_ne_empty)
  apart := by
    intro i hi hparams
    rcases mem_union.1 hparams with hparams | hother
    · exact hapart i (mem_tables_tree.2 ⟨s, hi⟩) hparams
    · exact not_mem_tables_other hsep hi (subset_iff.1 (wantedOrAll_subset _ _) i hother)
  covers := by
    refine subset_iff.2 fun i hi => mem_union.2 ?_
    by_cases hs : i ∈ (n.side s).tables
    · exact .inl hs
    refine .inr (mem_union.2 ?_)
    rcases mem_union.1 (subset_iff.1 hcovers i hi) with hn | hparams
    · obtain ⟨s', hs'⟩ := mem_tables_tree.1 hn
      obtain rfl := (Side.eq_or_eq_other s' s).resolve_left fun heq => hs (heq ▸ hs')
      refine .inr ?_
      rw [wantedOrAll, if_pos (overlaps_iff.2 ⟨i, hi, hs'⟩)]
      exact mem_inter.2 ⟨hi, hs'⟩
    · exact .inl hparams
  reads := by
    obtain ⟨i, hi, hout⟩ := not_subset_iff.1 (hboth s.other)
    rw [mem_union, not_or] at hout
    refine ⟨i, hi, ?_⟩
    have hn := (mem_union.1 (subset_iff.1 hcovers i hi)).resolve_right hout.2
    obtain ⟨s', hs'⟩ := mem_tables_tree.1 hn
    obtain rfl := (Side.eq_or_eq_other s' s).resolve_right fun heq => hout.1 (heq ▸ hs')
    exact hs'

end Parametrized

/-! ### Tables that are read -/

/-- The path leads to one of these tables. -/
def LeadsInto (ts : TableSet) (t : Tree) (path : List Side) : Prop :=
  ∃ i l, t.descend? path = some (leaf i l) ∧ (leaf i l).tables ⊆ ts

theorem leadsInto_cons {s : Side} : n.tree.LeadsInto ts (s :: path) ↔ (n.side s).LeadsInto ts path := by
  simp only [LeadsInto, descend?_cons]

theorem leadsInto_append (h : t.descend? path = some u) {path' : List Side} :
    t.LeadsInto ts (path ++ path') ↔ u.LeadsInto ts path' := by
  simp only [LeadsInto, descend?_append h]

theorem not_leadsInto_nil : ¬ n.tree.LeadsInto ts [] := fun ⟨_, _, h, _⟩ => nomatch h

theorem LeadsInto.exists_mem (h : t.LeadsInto ts path) : ∃ i ∈ ts, i ∈ t.tables := by
  obtain ⟨i, l, hleaf, hsub⟩ := h
  obtain ⟨j, hj⟩ := ne_empty_iff.1 (leaf i l).tables_ne_empty
  exact ⟨j, subset_iff.1 hsub j hj, subset_iff.1 (tables_subset_of_descend? hleaf) j hj⟩

/-- A table that is read from is all of itself. -/
theorem leadsInto_leaf {i : Nat} {l : Leaf} (h : ∃ j ∈ ts, j ∈ (leaf i l).tables) :
    (leaf i l).LeadsInto ts [] := by
  refine ⟨i, l, rfl, subset_iff.2 fun k hk => ?_⟩
  obtain ⟨j, hts, hj⟩ := h
  rw [tables, ← singleton_mod, mem_singleton (Nat.mod_lt _ (by decide))] at hj hk
  rwa [hk, ← hj]

/-! ### Copies -/

/-- No lookup arrives at a join. -/
theorem lookup_arrivals_nil (n : JoinNode) : arrivals .lookup [] (n.tree.route c own params).steps = [] := by
  rcases exists_side_or_both n c params with ⟨s, hside, hfirst⟩ | hboth
  · exact arrivals_of_side_nil hside hfirst
  · exact (arrivals_of_both_nil hboth).trans (if_neg fun h => nomatch h.2.2)

/-- No part of a condition on one side is the condition, if that has tables elsewhere. -/
theorem not_isIn_part {p : Expr} (hp : c.restrict t.tables = some p) (hc : ¬ c.tables ⊆ t.tables ∪ params) :
    ¬ c.IsIn (arrivals .lookup path (t.route p own params).steps) := by
  rintro ⟨d, hd, halike⟩
  have hputs := puts_route (keptByParts_tables_subset t.tables) (Expr.tables_subset_of_restrict hp) own params t
  have hsub : d.tables ⊆ t.tables := hputs _ (mem_arrivals.1 hd)
  rw [halike.tables_eq] at hsub
  exact hc (Subset.trans hsub (subset_union_left _ _))

/-- Of the copies below a join, those of the condition itself are the ones that take parameters. -/
theorem lookup_copied_iff (hboth : ∀ s, ¬ c.tables ⊆ (n.side s).tables ∪ params) (s : Side) :
    c.IsIn (arrivals .lookup (s :: path) (copies c own params n.info.kind n.left n.right)) ↔
      n.info.kind.opens own s = true ∧ c.IsIn (arrivals .lookup path
        ((n.side s).route c false (lookupParams c params (n.side s.other).tables)).steps) := by
  rw [arrivals_copies_cons]
  cases n.info.kind.opens own s with
  | false => simp [Expr.not_isIn_nil]
  | true =>
    rw [if_pos rfl, and_iff_right rfl, Expr.isIn_append]
    refine or_iff_right ?_
    cases hpart : c.restrict (n.side s).tables with
    | none => exact Expr.not_isIn_nil
    | some p => exact not_isIn_part hpart (hboth s)

/-- **A copy with parameters arrives where it is read**: at the tables that the condition reads, if the joins
on the way there let it pass. -/
theorem lookup_arrives_iff (hsep : t.Separate) (h : Parametrized c params t) :
    c.IsIn (arrivals .lookup path (t.route c own params).steps) ↔
      t.LeadsInto c.tables path ∧ t.Passable own path := by
  induction t using inductSides generalizing own params path with
  | leaf i l =>
    rw [route, if_neg h.ne_empty]
    cases path with
    | nil => exact iff_of_true ⟨c, List.mem_cons_self, .inl rfl⟩ ⟨leadsInto_leaf h.reads, passable_nil own _⟩
    | cons s path =>
      refine iff_of_false Expr.not_isIn_nil ?_
      rintro ⟨⟨j, k, hnone, -⟩, -⟩
      cases s <;> cases hnone
  | join n ih =>
    cases path with
    | nil =>
      rw [lookup_arrivals_nil]
      exact iff_of_false Expr.not_isIn_nil fun hleads => not_leadsInto_nil hleads.1
    | cons s path =>
      rw [leadsInto_cons, passable_cons]
      rcases exists_side_or_both n c params with ⟨s', hside, hfirst⟩ | hboth
      · rw [arrivals_of_side_cons hside hfirst]
        by_cases hs : s = s'
        · subst hs
          cases n.info.kind.opens own s with
          | false => simp [Expr.not_isIn_nil]
          | true => rw [if_pos ⟨rfl, rfl⟩, ih s (separate_side hsep s) (h.side hside), and_iff_right rfl]
        · rw [if_neg fun hopen => hs hopen.1]
          refine iff_of_false Expr.not_isIn_nil fun hleads => ?_
          -- the condition reads nothing on this side
          obtain ⟨i, hic, hi⟩ := hleads.1.exists_mem
          obtain rfl := (Side.eq_or_eq_other s s').resolve_left hs
          have hi' := (mem_union.1 (subset_iff.1 hside i hic)).resolve_right
            (h.apart i (mem_tables_tree.2 ⟨_, hi⟩))
          exact not_mem_tables_other hsep hi' hi
      · have hsplit := Parametrized.split hsep h.apart h.covers hboth s
        rw [arrivals_of_both_cons hboth, lookup_copied_iff hboth, ih s (separate_side hsep s) hsplit,
          and_left_comm]

/-! ### The tables of a tree -/

theorem mem_leaves_of_descend? {i : Nat} {l : Leaf} (h : t.descend? path = some (leaf i l)) :
    (i, l) ∈ t.leaves := by
  induction path generalizing t with
  | nil =>
    cases h
    exact List.mem_cons_self
  | cons s path ih =>
    obtain ⟨n, rfl, hu⟩ := exists_join_of_descend? h
    have hside := ih hu
    rw [JoinNode.tree, leaves]
    cases s with
    | left => exact List.mem_append_left _ hside
    | right => exact List.mem_append_right _ hside

/-- Where a tree has a table, every tree with the same outline has it, too. -/
theorem exists_leaf_of_outline {t' : Tree} (h : t'.outline = t.outline) {i : Nat} {l : Leaf}
    (hleaf : t'.descend? path = some (leaf i l)) :
    ∃ l', t.descend? path = some (leaf i l') ∧ l.table = l'.table := by
  obtain ⟨u, hu, houtline⟩ := exists_descend?_of_outline h hleaf
  cases u with
  | leaf j l' =>
    rw [outline, outline] at houtline
    injection houtline with hi hl
    exact ⟨l', hi ▸ hu, (congrArg Leaf.table hl).symm⟩
  | join j info l r => cases houtline

/-! ### The way of a condition without parameters -/

theorem passable_append (h : t.descend? path = some u) {path' : List Side} :
    t.Passable own (path ++ path') ↔ t.Passable own path ∧ u.Passable (own && path.isEmpty) path' := by
  induction path generalizing t own with
  | nil =>
    obtain rfl : t = u := Option.some.inj h
    rw [List.isEmpty_nil, Bool.and_true, and_iff_right (passable_nil own t)]
    rfl
  | cons s path ih =>
    obtain ⟨n, rfl, hu⟩ := exists_join_of_descend? h
    rw [List.cons_append, passable_cons, passable_cons, ih hu, List.isEmpty_cons, Bool.and_false,
      Bool.false_and, and_assoc]

theorem separate_of_descend? (hsep : t.Separate) (h : t.descend? path = some u) : u.Separate := by
  induction path generalizing t with
  | nil =>
    cases h
    exact hsep
  | cons s path ih =>
    obtain ⟨n, rfl, hu⟩ := exists_join_of_descend? h
    exact ih (separate_side hsep s) hu

/-- At the lowest node with its tables a condition stops. From there its copies go to the tables that it
reads, if the node is a join. -/
theorem lookup_stops_iff (hsep : u.Separate) (hlow : Lowest c.tables t path u) {path' : List Side} :
    c.IsIn (arrivals .lookup path' (u.route c own ∅).steps) ↔
      (∃ n : JoinNode, u = n.tree) ∧ u.LeadsInto c.tables path' ∧ u.Passable own path' := by
  cases u using inductSides with
  | leaf i l =>
    refine iff_of_false ?_ ?_
    · rw [route, if_pos rfl]
      simp [arrivals, Step.arrival?, Expr.not_isIn_nil]
    · rintro ⟨⟨n, hn⟩, -⟩
      cases hn
  | join n =>
    have hboth (s : Side) : ¬ c.tables ⊆ (n.side s).tables ∪ ∅ := by
      rw [union_empty]
      exact hlow.not_subset_side s
    rw [and_iff_right ⟨n, rfl⟩]
    cases path' with
    | nil =>
      rw [lookup_arrivals_nil]
      exact iff_of_false Expr.not_isIn_nil fun h => not_leadsInto_nil h.1
    | cons s path' =>
      have hcovers : c.tables ⊆ n.tree.tables ∪ ∅ := by
        rw [union_empty]
        exact hlow.covers
      have hsplit := Parametrized.split hsep (fun i _ => not_mem_empty i) hcovers hboth s
      rw [arrivals_of_both_cons hboth, lookup_copied_iff hboth,
        lookup_arrives_iff (separate_side hsep s) hsplit, leadsInto_cons, passable_cons, and_left_comm]

/-- **A condition arrives as a lookup where it is read**, if the lowest node with its tables is a join and the
joins on the way let it pass, first to there and then further down. -/
theorem lookup_arrives_of_lowest_iff (hsep : t.Separate) (hlow : Lowest c.tables t path u)
    {path' : List Side} : c.IsIn (arrivals .lookup path' (t.route c own ∅).steps) ↔
      (∃ n : JoinNode, u = n.tree) ∧ t.LeadsInto c.tables path' ∧ path <+: path' ∧ t.Passable own path' := by
  by_cases hpass : t.Passable own path
  · rw [route_of_passable hlow hpass]
    by_cases hprefix : path <+: path'
    · obtain ⟨rest, rfl⟩ := hprefix
      rw [arrivals_along, leadsInto_append hlow.reached, passable_append hlow.reached, and_iff_right hpass,
        and_iff_right (List.prefix_append path rest)]
      exact lookup_stops_iff (separate_of_descend? hsep hlow.reached) hlow
    · rw [arrivals_along_eq_nil hprefix]
      exact iff_of_false Expr.not_isIn_nil fun h => hprefix h.2.2.1
  · rw [route_of_not_passable hlow hpass]
    refine iff_of_false Expr.not_isIn_nil ?_
    rintro ⟨-, -, ⟨rest, rfl⟩, hpass'⟩
    exact hpass ((passable_append hlow.reached).1 hpass').1

end Tree

namespace Forest

/-- **Lookups get to all tables that are read and may be got to, and to no others.** A condition is pushed down
from a node, and no table below has it as a lookup yet. Afterwards a table below has it just when the lowest
node with the tables of the condition is a join, the condition reads the table, and the joins let it pass on
the way to that join and on to the table. -/
theorem pushDown_lookups {f : Forest} {i : Nat} {t : Tree} (ht : f.tree? i = some t) (hsep : t.Separate)
    {c : Expr} (hc : c.tables ⊆ t.tables) (hnew : ∀ x ∈ t.leaves, ¬ c.IsIn x.2.lookups) (own : Bool) :
    ∃ f' remains t' path u, (f.pass? i (Tree.pushDown c own ∅)).map Reported.value = some (f', remains) ∧
      f.ChangedBelow i t f' t' ∧ t.Lowest c.tables path u ∧
      ∀ q j l, t'.descend? q = some (.leaf j l) → (c.IsIn l.lookups ↔
        (∃ n : JoinNode, u = n.tree) ∧ (Tree.leaf j l).tables ⊆ c.tables ∧ path <+: q ∧ t.Passable own q) := by
  obtain ⟨path, u, hlow⟩ := Tree.exists_lowest hsep hc
  have hvalue : (f.pass? i (Tree.pushDown c own ∅)).map Reported.value =
      some (f.record ((t.route c own ∅).steps.foldl Tree.step t), (t.route c own ∅).remains) := by
    rw [pass?, ht, Option.map_some, Option.map_some, Reported.value_bind, Tree.value_pushDown]
    rfl
  have houtline := Tree.outline_foldl_step (t.route c own ∅).steps t
  refine ⟨_, _, _, path, u, hvalue, changedBelow_record ht hsep houtline, hlow, fun q j l hleaf => ?_⟩
  obtain ⟨l₀, hleaf₀, htable⟩ := Tree.exists_leaf_of_outline houtline hleaf
  have hlookups : l.lookups =
      (arrivals .lookup q (t.route c own ∅).steps).foldl Role.lookup.add l₀.lookups := by
    have hrun := Tree.listedAt?_foldl_step .lookup q (t.route c own ∅).steps t
    rw [Tree.listedAt?, Tree.listedAt?, hleaf, hleaf₀] at hrun
    exact Option.some.inj hrun
  have hnone : ¬ c.IsIn l₀.lookups := hnew _ (Tree.mem_leaves_of_descend? hleaf₀)
  have hleads : t.LeadsInto c.tables q ↔ (Tree.leaf j l).tables ⊆ c.tables := by
    rw [Tree.tables, htable]
    constructor
    · rintro ⟨_, _, hleaf', hsub⟩
      cases hleaf₀.symm.trans hleaf'
      exact hsub
    · exact fun hsub => ⟨j, l₀, hleaf₀, hsub⟩
  rw [hlookups, isIn_foldl_add, or_iff_right hnone, Tree.lookup_arrives_of_lowest_iff hsep hlow, hleads]

/-- A semijoin below a left join, `(t0 ⋉ t1) ⟕ t3`, with all conditions taken off. -/
def padded : Tree :=
  let table (i : Nat) : Tree := .leaf i { table := ⟨i, "t"⟩ }
  .join 4 { kind := .left, conds := [] }
    (.join 2 { kind := .semi, conds := [] } (table 0) (table 1)) (table 3)

/-- The condition `t0.x = t3.x`. -/
def paddedCond : Expr := (Dialect.sampleColumn 0).equals (Dialect.sampleColumn 3)

theorem pushDown_lookups_padded :
    (ofTree padded).tree? 4 = some padded ∧ padded.Separate ∧ paddedCond.tables ⊆ padded.tables ∧
      (∀ x ∈ padded.leaves, ¬ paddedCond.IsIn x.2.lookups) ∧ ∃ f' remains t' path u,
        ((ofTree padded).pass? 4 (Tree.pushDown paddedCond false ∅)).map Reported.value = some (f', remains) ∧
        (ofTree padded).ChangedBelow 4 padded f' t' ∧ padded.Lowest paddedCond.tables path u ∧
        ∀ q j l, t'.descend? q = some (.leaf j l) → (paddedCond.IsIn l.lookups ↔
          (∃ n : JoinNode, u = n.tree) ∧ (Tree.leaf j l).tables ⊆ paddedCond.tables ∧ path <+: q ∧
            padded.Passable false q) := by
  have hlower : (ofTree padded).tree? 2 = some _ :=
    tree?_of_join rfl (by decide) (by decide) (tree?_of_leaf rfl) (tree?_of_leaf rfl)
  have htree : (ofTree padded).tree? 4 = some padded :=
    tree?_of_join rfl (by decide) (by decide) hlower (tree?_of_leaf rfl)
  have hsep : padded.Separate := by decide
  have hc : paddedCond.tables ⊆ padded.tables := by decide
  have hnew : ∀ x ∈ padded.leaves, ¬ paddedCond.IsIn x.2.lookups := by
    simp [padded, Tree.leaves, Expr.not_isIn_nil]
  exact ⟨htree, hsep, hc, hnew, pushDown_lookups htree hsep hc hnew false⟩

/-- As a filter above the left join it gets through the semijoin to `t0`. It does not read `t1`, and it may
not get to `t3`. -/
example : (arrivals .lookup [.left, .left] (padded.route paddedCond false ∅).steps).length = 1 ∧
    arrivals .lookup [.left, .right] (padded.route paddedCond false ∅).steps = [] ∧
    arrivals .lookup [.right] (padded.route paddedCond false ∅).steps = [] := by
  refine ⟨?_, ?_, ?_⟩ <;> rfl

end Forest

end QueryGraph
