import Mathlib.Logic.Function.Iterate
import QueryGraph.Proofs.Conflict.Saturation

/-!
# The least set that obeys the rules

`saturate` fires the rules one after the other while the set is growing, drops those that are met for good
between two rounds, and stops early when no rule is left. None of this can be seen in what it returns.

## The model

`Absorbed` says what a set of nodes and a list of rules have to be, in terms of the start and of the rules
alone: the set is the least one that contains the start and obeys the rules, and the list has the rules that
require more than the set. There is only one such pair (`Absorbed.eq`).

A `pass` is one round of the loop, and a round is the last one if the set has not grown in it or no rule is
left after it (`IsLast`).

## What is proved

* `absorbed_saturate` — `saturate` returns this pair.
* `exists_passes` — it does so within one round more than there are rules, since every round but the last one
  drops a rule.
* `saturate_least` — the two together. So the order of the rules does not matter, and the rules that are left
  add nothing to the set.
-/

namespace QueryGraph.ConflictRule

open BitSet

variable {rules rules' : List ConflictRule} {s : NodeSet} {out out' : NodeSet × List ConflictRule}

/-! ### What is returned -/

/-- The least set of nodes that contains `s` and obeys the rules, with the rules that it does not meet for
good. -/
structure Absorbed (rules : List ConflictRule) (s : NodeSet) (out : NodeSet × List ConflictRule) :
    Prop where
  /-- The start is in the set. -/
  start_subset : s ⊆ out.1
  /-- The set obeys every rule. -/
  obeyed : ∀ r ∈ rules, r.Obeyed out.1
  /-- Every other set with the start that obeys the rules is larger. -/
  least : ∀ t, s ⊆ t → (∀ r ∈ rules, r.Obeyed t) → out.1 ⊆ t
  /-- The rules that require more than the set are left, in their order. -/
  left : out.2 = rules.filter fun r => ¬ r.requires ⊆ out.1
  /-- None of them is active. -/
  inactive : ∀ r ∈ out.2, r.activates.overlaps out.1 = false

theorem absorbed_saturate (rules : List ConflictRule) (s : NodeSet) :
    Absorbed rules s (saturate rules s) where
  start_subset := subset_saturate rules s
  obeyed := (settled_saturate rules s).obeyed
  least _ := saturate_subset
  left := (settled_saturate rules s).rest
  inactive _ := (settled_saturate rules s).inactive

/-- The order of the rules does not matter. -/
theorem Absorbed.perm (h : Absorbed rules s out) (h' : Absorbed rules' s out')
    (hperm : rules.Perm rules') : out.1 = out'.1 ∧ out.2.Perm out'.2 := by
  have hset : out.1 = out'.1 := by
    refine Subset.antisymm ?_ ?_
    · exact h.least _ h'.start_subset fun r hr => h'.obeyed r (hperm.subset hr)
    · exact h'.least _ h.start_subset fun r hr => h.obeyed r (hperm.symm.subset hr)
  refine ⟨hset, ?_⟩
  rw [h.left, h'.left, ← hset]
  exact hperm.filter _

theorem Absorbed.eq (h : Absorbed rules s out) (h' : Absorbed rules s out') : out = out' := by
  have hset := (h.perm h' (List.Perm.refl rules)).1
  exact Prod.ext hset (by rw [h.left, h'.left, hset])

/-- The rules that are left are absorbed already. -/
theorem Absorbed.again (h : Absorbed rules s out) : Absorbed out.2 out.1 out where
  start_subset := Subset.refl _
  obeyed r hr hactive := by
    rw [h.inactive r hr] at hactive
    cases hactive
  least _ hsub _ := hsub
  left := by
    rw [h.left, List.filter_filter]
    simp only [Bool.and_self]
  inactive := h.inactive

/-! ### How many rounds it takes -/

/-- One round: all rules are looked at once, and then those that are met for good are dropped. -/
def pass (state : NodeSet × List ConflictRule) : NodeSet × List ConflictRule :=
  (fireAll state.2 state.1, unmet state.2 (fireAll state.2 state.1))

/-- The round that begins in a state is the last one. -/
def IsLast (state : NodeSet × List ConflictRule) : Prop :=
  (pass state).1 = state.1 ∨ (pass state).2 = []

theorem saturate_of_isLast (h : IsLast (s, rules)) : saturate rules s = pass (s, rules) := by
  rw [saturate]
  exact dif_pos h

theorem saturate_of_not_isLast (h : ¬ IsLast (s, rules)) :
    saturate rules s = saturate (pass (s, rules)).2 (pass (s, rules)).1 := by
  rw [saturate]
  exact dif_neg h

/-- If a set grows in a round, what some rule requires has been added. -/
theorem exists_requires_subset_fireAll (h : fireAll rules s ≠ s) :
    ∃ r ∈ rules, r.requires ⊆ fireAll rules s := by
  induction rules with
  | nil => exact absurd rfl h
  | cons r rules ih =>
    by_cases hactive : r.activates.overlaps s = true
    · refine ⟨r, List.mem_cons_self, Subset.trans ?_ (subset_fireAll rules (fire s r))⟩
      rw [fire, if_pos hactive]
      exact subset_union_right _ _
    · have hsame : fireAll (r :: rules) s = fireAll rules s := by
        rw [fireAll, List.foldl_cons, fire, if_neg hactive, fireAll]
      rw [hsame] at h ⊢
      obtain ⟨r', hr', hsub⟩ := ih h
      exact ⟨r', List.mem_cons_of_mem r hr', hsub⟩

/-- A round that is not the last one drops a rule. -/
theorem length_pass_lt (h : ¬ IsLast (s, rules)) : (pass (s, rules)).2.length < rules.length := by
  obtain ⟨r, hr, hsub⟩ := exists_requires_subset_fireAll fun heq => h (.inl heq)
  exact List.length_filter_lt_length_iff_exists.2 ⟨r, hr, by simp [hsub]⟩

/-- The loop stops after the first round that is the last one, and there are at most as many rounds before it
as there are rules. -/
theorem exists_passes (rules : List ConflictRule) (s : NodeSet) :
    ∃ n ≤ rules.length, (∀ k < n, ¬ IsLast (pass^[k] (s, rules))) ∧ IsLast (pass^[n] (s, rules)) ∧
      saturate rules s = pass^[n + 1] (s, rules) := by
  induction hlength : rules.length using Nat.strongRecOn generalizing rules s with
  | _ length ih =>
    by_cases hlast : IsLast (s, rules)
    · refine ⟨0, Nat.zero_le _, fun k hk => absurd hk (Nat.not_lt_zero k), hlast, ?_⟩
      exact saturate_of_isLast hlast
    · have hshorter : (pass (s, rules)).2.length < length := hlength ▸ length_pass_lt hlast
      obtain ⟨n, hn, hbefore, hend, heq⟩ := ih _ hshorter (pass (s, rules)).2 (pass (s, rules)).1 rfl
      refine ⟨n + 1, by omega, fun k hk => ?_, hend, (saturate_of_not_isLast hlast).trans heq⟩
      cases k with
      | zero => exact hlast
      | succ k => exact hbefore k (Nat.lt_of_succ_lt_succ hk)

/-- **The least set that obeys the rules.** After at most one round more than there are rules, `saturate`
returns the least set that contains the start and obeys the rules, with the rules that it does not meet for
good. Permuting the rules changes neither, and the rules that are left add nothing. -/
theorem saturate_least (rules : List ConflictRule) (s : NodeSet) :
    Absorbed rules s (saturate rules s) ∧
    (∃ n ≤ rules.length, (∀ k < n, ¬ IsLast (pass^[k] (s, rules))) ∧ IsLast (pass^[n] (s, rules)) ∧
      saturate rules s = pass^[n + 1] (s, rules)) ∧
    (∀ rules', rules'.Perm rules → (saturate rules' s).1 = (saturate rules s).1 ∧
      (saturate rules' s).2.Perm (saturate rules s).2) ∧
    saturate (saturate rules s).2 (saturate rules s).1 = saturate rules s := by
  have habsorbed := absorbed_saturate rules s
  refine ⟨habsorbed, exists_passes rules s, fun rules' hperm => ?_, ?_⟩
  · exact (absorbed_saturate rules' s).perm habsorbed hperm
  · exact (absorbed_saturate _ _).eq habsorbed.again

/-- The first rule adds `0`, and that makes the second one active. In the reversed order the second one is
looked at before `0` is there, so there is one round more. -/
theorem saturate_least_chained :
    let rules : List ConflictRule := [⟨{1}, {0}⟩, ⟨{0}, {3}⟩, ⟨{4}, {2}⟩, ⟨{5}, {4}⟩]
    rules.reverse.Perm rules ∧ saturate rules {1, 2} = ({0, 1, 2, 3}, [⟨{5}, {4}⟩]) ∧
      (saturate rules.reverse {1, 2}).1 = (saturate rules {1, 2}).1 ∧
      (saturate rules.reverse {1, 2}).2.Perm (saturate rules {1, 2}).2 := by
  intro rules
  have hperm : rules.reverse.Perm rules := List.reverse_perm rules
  exact ⟨hperm, by decide +kernel, (saturate_least rules {1, 2}).2.2.1 rules.reverse hperm⟩

end QueryGraph.ConflictRule
