import Mathlib.Logic.Equiv.Fintype
import QueryGraph.Proofs.Relabeling.Agreement

/-!
# Table numbers are names

A query block with other table numbers has the same join graph, with the other numbers in it.

## The model

A renumbering is an injective function, and all that is asked of it besides is that sets of tables have
room for the numbers in the block, before and after. As a relabeling it need not be faithful, since sets
may not tell apart what it makes of other numbers. So it is compared with two relabelings that are. One is
a permutation that does the same to the numbers with room (`permuting`). The other one leaves exactly these
numbers (`marking`), so it leaves the block and with it what comes of the block.

## What is proved

* `exists_perm` — the permutation that continues a renumbering.
* `build_renumbered` — planning a block with other table numbers has the same outcome with these numbers.
-/

namespace QueryGraph

namespace Relabeling

/-- New table numbers. Constants stay. -/
def numbers (f : Nat → Nat) : Relabeling := ⟨f, id⟩

theorem faithful_numbers {f : Nat → Nat} (hf : Function.Injective f)
    (hmod : ∀ i j, f i % 64 = f j % 64 ↔ i % 64 = j % 64) : (numbers f).Faithful where
  injective := hf
  mod_iff := hmod
  type_value _ := rfl
  truth_value _ := rfl
  compare?_value _ _ := rfl
  same_value _ _ := rfl

/-! ### A permutation -/

/-- The numbers below 64 as a permutation says, and in the same way those from each multiple of 64 to the
next. -/
def permuting (τ : Equiv.Perm (Fin 64)) : Relabeling :=
  numbers fun i => 64 * (i / 64) + τ (Fin.ofNat 64 i)

instance (τ : Equiv.Perm (Fin 64)) : (permuting τ).Faithful := by
  have hlt (i : Nat) : (τ (Fin.ofNat 64 i) : Nat) < 64 := (τ _).isLt
  have hmod (i j : Nat) :
      (τ (Fin.ofNat 64 i) : Nat) = τ (Fin.ofNat 64 j) ↔ i % 64 = j % 64 := by
    rw [Fin.val_inj, τ.injective.eq_iff, Fin.ext_iff]
    rfl
  refine faithful_numbers (fun i j (hij : 64 * (i / 64) + _ = 64 * (j / 64) + _) => ?_) fun i j => ?_
  · have hi := hlt i
    have hj := hlt j
    have hrest := hmod i j
    omega
  · rw [Nat.mul_add_mod, Nat.mul_add_mod, Nat.mod_eq_of_lt (hlt i), Nat.mod_eq_of_lt (hlt j), hmod]

/-- A renumbering is continued by a permutation of all numbers that there is room for. -/
theorem exists_perm {f : Nat → Nat} (hf : Function.Injective f) :
    ∃ τ : Equiv.Perm (Fin 64), ∀ i, (numbers f).Fits i → (permuting τ).number i = f i := by
  classical
  let g : {i : Fin 64 // f i < 64} → Fin 64 := fun i => ⟨f i, i.2⟩
  have hg : Function.Injective g := fun i j hij => Subtype.ext (Fin.ext (hf (Fin.mk.inj hij)))
  refine ⟨(Equiv.ofInjective g hg).extendSubtype, ?_⟩
  rintro i ⟨hlt, hfits⟩
  have hval : (Fin.ofNat 64 i : Nat) = i := Nat.mod_eq_of_lt hlt
  have hmem : f (Fin.ofNat 64 i) < 64 := by
    rw [hval]
    exact hfits
  change 64 * (i / 64) + _ = f i
  rw [(Equiv.ofInjective g hg).extendSubtype_apply_of_mem _ hmem, Nat.div_eq_of_lt hlt]
  exact (Nat.zero_add _).trans (congrArg f hval)

/-! ### Marking -/

/-- The numbers that a renumbering finds room for, before and after, stay. The others are 64 larger. -/
def marking (f : Nat → Nat) : Relabeling := numbers fun i => if i < 64 ∧ f i < 64 then i else i + 64

instance (f : Nat → Nat) : (marking f).Faithful := by
  refine faithful_numbers (fun i j (hij : ite _ _ _ = ite _ _ _) => ?_) fun i j => ?_
  · split_ifs at hij <;> omega
  · split_ifs <;> omega

theorem fits_of_marking {f : Nat → Nat} {i : Nat} (h : (marking f).number i = i) : (numbers f).Fits i := by
  by_contra hfits
  have hmoved : (marking f).number i = i + 64 := if_neg hfits
  omega

end Relabeling

open Relabeling

namespace QueryBlock

/-- **Table numbers are names.** If a block is renumbered by an injective function, and sets of tables have
room for the numbers before and after, then planning has the same outcome for both: the same graph, with
the new numbers where the old ones were, or the same kind of error. -/
theorem build_renumbered (s : Settings) (hfin : s.finisher = .default) (hest : s.estimator = .default)
    (f : Nat → Nat) (hf : Function.Injective f) (q : QueryBlock)
    (hfits : q.AllLabels (numbers f).Fits fun _ => True)
    (hcount : q.tableCount ≤ s.tableLimit) (hcount' : (q.relabel (.numbers f)).tableCount ≤ s.tableLimit)
    (trace? : Option String) : ((q.relabel (.numbers f)).build s trace?).result =
      Except.bimap (PlanError.relabel (.numbers f)) (JoinGraph.relabel (.numbers f))
        (q.build s trace?).result := by
  obtain ⟨τ, hτ⟩ := exists_perm hf
  have hrespects (ρ : Relabeling) [ρ.Faithful] : s.finisher.Respects ρ ∧ s.estimator.Respects ρ :=
    ⟨hfin ▸ Finisher.respects_default, hest ▸ Estimator.respects_default⟩
  have hagree : Agree (marking f) (permuting τ) (numbers f) :=
    ⟨fun i hi => hτ i (fits_of_marking hi), fun _ _ => rfl, fun i hi => (fits_of_marking hi).1⟩
  -- the block is the same with the permutation and stays if it is marked
  have hpermuted : q.relabel (.numbers f) = q.relabel (permuting τ) :=
    relabel_congr (fun i hi => (hτ i hi).symm) (fun _ _ => rfl) hfits
  have hmarked : q.relabel (marking f) = q := by
    have hid : q.relabel (marking f) = q.relabel ⟨id, id⟩ :=
      relabel_congr (fun i hi => if_pos hi) (fun _ _ => rfl) hfits
    exact hid.trans (relabel_id q)
  rw [hpermuted] at hcount' ⊢
  rw [build_relabel (hrespects _).1 (hrespects _).2 hcount hcount']
  have hmarked_count : (q.relabel (marking f)).tableCount ≤ s.tableLimit := hmarked.symm ▸ hcount
  have hstays := build_relabel (hrespects _).1 (hrespects _).2 hcount hmarked_count trace?
  rw [hmarked] at hstays
  cases hresult : (q.build s trace?).result with
  | error e =>
    rw [hresult] at hstays
    exact congrArg Except.error (PlanError.relabel_agree hagree (Except.error.inj hstays).symm)
  | ok g =>
    rw [hresult] at hstays
    obtain ⟨left, filters, more, hplanned⟩ := planned_of_build hresult
    have hrecorded : g.tree.Recorded := hplanned.tree_eq ▸ q.recorded_unfiltered s
    exact congrArg Except.ok (JoinGraph.relabel_agree hagree (Except.ok.inj hstays).symm hrecorded)

theorem build_renumbered_swap : ∃ g, (sample.build {} none).result = .ok g ∧
    ((sample.relabel (.numbers (Equiv.swap 0 2))).build {} none).result =
      .ok (g.relabel (.numbers (Equiv.swap 0 2))) := by
  obtain ⟨g, h⟩ := exists_build_sample
  have hfits : sample.AllLabels (numbers (Equiv.swap 0 2)).Fits fun _ => True := by
    simp [sample, AllLabels, FromList.AllLabels, FromItem.AllLabels, Expr.AllLabels, Expr.equals, Fits]
    decide
  have hsame := build_renumbered {} rfl rfl (Equiv.swap 0 2) (Equiv.injective _) sample hfits
    (by decide) (by decide) none
  rw [h] at hsame
  exact ⟨g, h, hsame⟩

end QueryBlock

end QueryGraph
