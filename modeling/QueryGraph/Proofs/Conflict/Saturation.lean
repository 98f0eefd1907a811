import QueryGraph.BitSet.Lemmas
import QueryGraph.Conflict.Detection

/-!
# Folding conflict rules

What is true of the set of nodes that `saturate` returns, and of the rules that it leaves.

## What is proved

* `settled_saturate`: the set obeys every rule it was given, and the rules that are left are those
  that it does not meet for good. Both outlive a widening by a side (`Settled.widen`), hence the whole
  of `fold` (`settled_fold`).
* `saturate_subset`: the set is the least one that contains the start and obeys the rules.
* `fold_inter`: nodes that no rule speaks of are carried along and change nothing else.
-/

namespace QueryGraph.ConflictRule

open BitSet

/-! ### One round -/

theorem subset_fire (s : NodeSet) (r : ConflictRule) : s ⊆ fire s r := by
  unfold fire
  split
  · exact subset_union_left _ _
  · exact Subset.refl _

theorem fire_subset {s t : NodeSet} {r : ConflictRule} (hs : s ⊆ t) (hr : r.Obeyed t) :
    fire s r ⊆ t := by
  unfold fire
  split
  next ha => exact union_subset hs (hr (overlaps_mono (Subset.refl _) hs ha))
  next => exact hs

theorem subset_fireAll (rules : List ConflictRule) (s : NodeSet) : s ⊆ fireAll rules s := by
  induction rules generalizing s with
  | nil => exact Subset.refl _
  | cons r rules ih => exact Subset.trans (subset_fire s r) (ih (fire s r))

theorem fireAll_subset {rules : List ConflictRule} {s t : NodeSet} (hs : s ⊆ t)
    (hr : ∀ r ∈ rules, r.Obeyed t) : fireAll rules s ⊆ t := by
  induction rules generalizing s with
  | nil => exact hs
  | cons r rules ih =>
    exact ih (fire_subset hs (hr r List.mem_cons_self)) fun r' h => hr r' (List.mem_cons_of_mem _ h)

/-- A set that a round adds nothing to obeys all rules. -/
theorem obeyed_of_fireAll_eq {rules : List ConflictRule} {s : NodeSet} (h : fireAll rules s = s) :
    ∀ r ∈ rules, r.Obeyed s := by
  induction rules with
  | nil => exact fun _ hr => nomatch hr
  | cons r rules ih =>
    have hfire : fire s r = s := by
      refine Subset.antisymm ?_ (subset_fire s r)
      have hrest : fire s r ⊆ fireAll rules (fire s r) := subset_fireAll _ _
      rwa [show fireAll rules (fire s r) = s from h] at hrest
    intro r' hr'
    rcases List.mem_cons.1 hr' with rfl | hr'
    · intro ha
      rw [fire, if_pos ha] at hfire
      exact hfire ▸ subset_union_right _ _
    · refine ih ?_ r' hr'
      rw [fireAll, List.foldl_cons, hfire] at h
      exact h

theorem mem_unmet {rules : List ConflictRule} {s : NodeSet} {r : ConflictRule} :
    r ∈ unmet rules s ↔ r ∈ rules ∧ ¬ r.requires ⊆ s := by
  simp [unmet]

/-- Rules that are met for good stay so when the set grows. -/
theorem unmet_unmet {rules : List ConflictRule} {s t : NodeSet} (h : s ⊆ t) :
    unmet (unmet rules s) t = unmet rules t := by
  unfold unmet
  rw [List.filter_filter]
  refine List.filter_congr fun r _ => ?_
  by_cases hr : r.requires ⊆ t
  · simp [hr]
  · have hs : ¬ r.requires ⊆ s := fun hs => hr (Subset.trans hs h)
    simp [hr, hs]

/-! ### All rounds -/

/-- A set of nodes that obeys the rules, with those of them that it does not meet for good. -/
structure Settled (rules : List ConflictRule) (out : NodeSet × List ConflictRule) : Prop where
  /-- The set obeys every rule. -/
  obeyed : ∀ r ∈ rules, r.Obeyed out.1
  /-- What is left of the rules, in their order. -/
  rest : out.2 = unmet rules out.1

/-- A rule that is left is not active. -/
theorem Settled.inactive {rules : List ConflictRule} {out : NodeSet × List ConflictRule}
    (h : Settled rules out) {r : ConflictRule} (hr : r ∈ out.2) :
    r.activates.overlaps out.1 = false := by
  rw [h.rest, mem_unmet] at hr
  rw [← Bool.not_eq_true]
  exact fun ha => hr.2 (h.obeyed r hr.1 ha)

/-- What settles the rules left by a smaller set settles all of them. -/
theorem Settled.of_unmet {rules : List ConflictRule} {s : NodeSet}
    {out : NodeSet × List ConflictRule} (h : Settled (unmet rules s) out) (hs : s ⊆ out.1) :
    Settled rules out := by
  refine ⟨fun r hr ha => ?_, h.rest.trans (unmet_unmet hs)⟩
  by_cases hmet : r.requires ⊆ s
  · exact Subset.trans hmet hs
  · exact h.obeyed r (mem_unmet.2 ⟨hr, hmet⟩) ha

theorem subset_saturate (rules : List ConflictRule) (s : NodeSet) : s ⊆ (saturate rules s).1 := by
  fun_induction saturate rules s with
  | case1 rules s grown left h => exact subset_fireAll rules s
  | case2 rules s grown left h ih => exact Subset.trans (subset_fireAll rules s) ih

theorem settled_saturate (rules : List ConflictRule) (s : NodeSet) :
    Settled rules (saturate rules s) := by
  fun_induction saturate rules s with
  | case1 rules s grown left h =>
    refine ⟨fun r hr => ?_, rfl⟩
    rcases h with h | h
    · rw [show grown = s from h]
      exact obeyed_of_fireAll_eq h r hr
    · -- No rule is left, so what this one requires is there.
      refine fun _ => Classical.byContradiction fun hmet => ?_
      have hleft : r ∈ left := mem_unmet.2 ⟨hr, hmet⟩
      exact List.not_mem_nil (h ▸ hleft)
  | case2 rules s grown left h ih => exact ih.of_unmet (subset_saturate left grown)

/-- A set that contains the start and obeys the rules contains all that they add to it. -/
theorem saturate_subset {rules : List ConflictRule} {s t : NodeSet} (hs : s ⊆ t)
    (hr : ∀ r ∈ rules, r.Obeyed t) : (saturate rules s).1 ⊆ t := by
  fun_induction saturate rules s with
  | case1 rules s grown left h => exact fireAll_subset hs hr
  | case2 rules s grown left h ih =>
    exact ih (fireAll_subset hs hr) fun r h => hr r (mem_unmet.1 h).1

/-! ### Widening -/

theorem subset_widen (side : NodeSet) (state : NodeSet × List ConflictRule) :
    state.1 ⊆ (widen side state).1 := by
  unfold widen
  split
  · exact Subset.refl _
  · exact Subset.trans (subset_union_left _ _) (subset_saturate _ _)

/-- A widened set reaches the side, unless the side is empty. -/
theorem widen_overlaps {side : NodeSet} (hside : side ≠ ∅) (state : NodeSet × List ConflictRule) :
    (widen side state).1.overlaps side = true := by
  unfold widen
  split
  next h => exact h
  next =>
    obtain ⟨i, hi⟩ := ne_empty_iff.1 hside
    have hsub := Subset.trans (subset_union_right state.1 side) (subset_saturate state.2 _)
    exact overlaps_iff.2 ⟨i, subset_iff.1 hsub i hi, hi⟩

theorem Settled.widen {rules : List ConflictRule} {state : NodeSet × List ConflictRule}
    (h : Settled rules state) (side : NodeSet) : Settled rules (widen side state) := by
  unfold ConflictRule.widen
  split
  · exact h
  · have hout := settled_saturate state.2 (state.1 ∪ side)
    rw [h.rest] at hout ⊢
    exact hout.of_unmet (Subset.trans (subset_union_left _ _) (subset_saturate _ _))

theorem settled_fold (rules : List ConflictRule) (used left right : NodeSet) :
    Settled rules (fold rules used left right) :=
  ((settled_saturate rules used).widen left).widen right

theorem subset_fold (rules : List ConflictRule) (used left right : NodeSet) :
    used ⊆ (fold rules used left right).1 :=
  Subset.trans (subset_saturate rules used)
    (Subset.trans (subset_widen left _) (subset_widen right _))

theorem fold_overlaps_left {left : NodeSet} (h : left ≠ ∅) (rules : List ConflictRule)
    (used right : NodeSet) : (fold rules used left right).1.overlaps left = true :=
  overlaps_mono (subset_widen right _) (Subset.refl left) (widen_overlaps h _)

theorem fold_overlaps_right {right : NodeSet} (h : right ≠ ∅) (rules : List ConflictRule)
    (used left : NodeSet) : (fold rules used left right).1.overlaps right = true :=
  widen_overlaps h _

/-- A set that reaches both sides is not widened. -/
theorem fold_eq_saturate {rules : List ConflictRule} {used left right : NodeSet}
    (hl : (saturate rules used).1.overlaps left = true)
    (hr : (saturate rules used).1.overlaps right = true) :
    fold rules used left right = saturate rules used := by
  rw [fold, widen, widen, if_pos hl, if_pos hr]

/-! ### Nodes elsewhere -/

/-- The rule speaks of the given nodes only. -/
structure Among (nodes : NodeSet) (r : ConflictRule) : Prop where
  /-- These make it active. -/
  activates_subset : r.activates ⊆ nodes
  /-- These are asked for. -/
  requires_subset : r.requires ⊆ nodes

section

variable {nodes : NodeSet} {rules : List ConflictRule} (hrules : ∀ r ∈ rules, r.Among nodes)

include hrules

theorem unmet_inter (s : NodeSet) : unmet rules (s ∩ nodes) = unmet rules s :=
  List.filter_congr fun r hr => by simp only [subset_inter_iff (hrules r hr).requires_subset]

/-- Nodes that no rule speaks of are carried along. -/
theorem saturate_inter (s : NodeSet) :
    saturate rules (s ∩ nodes) = ((saturate rules s).1 ∩ nodes, (saturate rules s).2) := by
  have hfull := settled_saturate rules s
  have hpart := settled_saturate rules (s ∩ nodes)
  have heq : (saturate rules (s ∩ nodes)).1 = (saturate rules s).1 ∩ nodes := by
    refine Subset.antisymm ?_ ?_
    · refine saturate_subset (inter_mono (subset_saturate rules s) (Subset.refl nodes)) ?_
      intro r hr hactive
      rw [overlaps_inter (hrules r hr).activates_subset] at hactive
      exact (subset_inter_iff (hrules r hr).requires_subset).2 (hfull.obeyed r hr hactive)
    · -- What is reached from the nodes that the rules speak of, with all others, obeys the rules too.
      have hreached : (saturate rules s).1 ⊆ (saturate rules (s ∩ nodes)).1 ∪ s := by
        refine saturate_subset (subset_union_right _ _) fun r hr hactive => ?_
        refine Subset.trans (hpart.obeyed r hr ?_) (subset_union_left _ _)
        obtain ⟨v, hv, hv'⟩ := overlaps_iff.1 hactive
        refine overlaps_iff.2 ⟨v, hv, (mem_union.1 hv').elim id fun hvs => ?_⟩
        have hvn : v ∈ nodes := subset_iff.1 (hrules r hr).activates_subset v hv
        exact subset_iff.1 (subset_saturate rules _) v (mem_inter.2 ⟨hvs, hvn⟩)
      refine Subset.trans (inter_mono hreached (Subset.refl nodes)) ?_
      rw [union_inter]
      exact union_subset (inter_subset_left _ _) (subset_saturate rules _)
  have hrest : (saturate rules (s ∩ nodes)).2 = (saturate rules s).2 := by
    rw [hpart.rest, heq, unmet_inter hrules, hfull.rest]
  exact Prod.ext heq hrest

theorem widen_inter {side : NodeSet} (hside : side ⊆ nodes) (s : NodeSet) :
    widen side (s ∩ nodes, rules) =
      ((widen side (s, rules)).1 ∩ nodes, (widen side (s, rules)).2) := by
  have hreaches : (s ∩ nodes).overlaps side = s.overlaps side := by
    rw [overlaps_comm, overlaps_inter hside, overlaps_comm]
  rw [widen, widen, hreaches]
  split
  · rfl
  · show saturate rules (s ∩ nodes ∪ side) = _
    rw [← saturate_inter hrules, union_inter, inter_eq_left hside]

theorem fold_inter {left right : NodeSet} (hleft : left ⊆ nodes) (hright : right ⊆ nodes)
    (used : NodeSet) :
    fold rules (used ∩ nodes) left right =
      ((fold rules used left right).1 ∩ nodes, (fold rules used left right).2) := by
  have hsettled := settled_saturate rules used
  have hrules' : ∀ r ∈ (saturate rules used).2, r.Among nodes := fun r hr =>
    hrules r (mem_unmet.1 (hsettled.rest ▸ hr)).1
  have hrules'' : ∀ r ∈ (widen left (saturate rules used)).2, r.Among nodes := fun r hr =>
    hrules r (mem_unmet.1 ((hsettled.widen left).rest ▸ hr)).1
  rw [fold, fold, saturate_inter hrules, widen_inter hrules' hleft, widen_inter hrules'' hright]

end

end QueryGraph.ConflictRule
