import QueryGraph.Expr.Equalities
import QueryGraph.Expr.FinalForm
import QueryGraph.Proofs.Relabeling.Basic
import QueryGraph.Selectivity

/-!
# Relabeled conditions

Simplifying a condition, bringing it into its final form and estimating its selectivity do not look at
labels.

Finding the final form can fail, and the fault may name expressions. So both outcomes are relabeled
(`Except.bimap`).

## What is proved

* `simplify_relabel`, `simplifyAll_relabel` — the verdict on a relabeled condition.
* `respects_default` — the default final form of a relabeled condition, and the default estimate.
-/

namespace QueryGraph

/-! ### Computations that may fail -/

section

variable {ε ε' α α' β β' : Type}

/-- Both outcomes of a computation, changed. -/
def Except.bimap (f : ε → ε') (g : α → α') : Except ε α → Except ε' α'
  | .ok a => .ok (g a)
  | .error e => .error (f e)

variable {f : ε → ε'} {g : α → α'} {k : β → β'}

@[simp] theorem Except.bimap_ok (a : α) : bimap f g (.ok a) = .ok (g a) := rfl

@[simp] theorem Except.bimap_error (e : ε) : bimap f g (.error e) = .error (f e) := rfl

/-- Changing what two computations return, one after the other. -/
theorem Except.bimap_bind {x : Except ε α} {y : α → Except ε β} {y' : α' → Except ε' β'}
    (h : ∀ a, y' (g a) = bimap f k (y a)) : bimap f g x >>= y' = bimap f k (x >>= y) := by
  cases x with
  | ok a => exact h a
  | error e => rfl

theorem Except.bimap_map {x : Except ε α} {y : α → β} {y' : α' → β'} (h : ∀ a, y' (g a) = k (y a)) :
    (bimap f g x).map y' = bimap f k (x.map y) := by
  cases x with
  | ok a => exact congrArg Except.ok (h a)
  | error e => rfl

end

variable {ρ : Relabeling}

/-- The verdict with new labels. -/
def Verdict.relabel (ρ : Relabeling) : Verdict → Verdict
  | always => always
  | never => never
  | conditions cs => conditions (cs.map (Expr.relabel ρ))

/-- The fault with new labels. -/
def FinishFault.relabel (ρ : Relabeling) : FinishFault → FinishFault
  | rowWidths l r => rowWidths l r
  | incomparable l r => incomparable (l.relabel ρ) (r.relabel ρ)
  | other reason => other reason

/-- The error with new labels. -/
def FinishError.relabel (ρ : Relabeling) (e : FinishError) : FinishError :=
  ⟨e.condition.relabel ρ, e.fault.relabel ρ⟩

/-- The final form does not depend on labels. -/
def Finisher.Respects (ρ : Relabeling) (fin : Finisher) : Prop :=
  ∀ c, fin.finish (c.relabel ρ) =
    Except.bimap (FinishFault.relabel ρ) (Expr.relabel ρ) (fin.finish c)

/-- Estimates do not depend on labels. -/
def Estimator.Respects (ρ : Relabeling) (est : Estimator) : Prop :=
  ∀ c, est.estimate (c.relabel ρ) = est.estimate c

theorem Finisher.Respects.apply {fin : Finisher} (h : fin.Respects ρ) (c : Expr) :
    fin.apply (c.relabel ρ) =
      Except.bimap (FinishError.relabel ρ) (Expr.relabel ρ) (fin.apply c) := by
  rw [Finisher.apply, Finisher.apply, h]
  cases fin.finish c <;> rfl

theorem Verdict.and_relabel (v w : Verdict) :
    (v.relabel ρ).and (w.relabel ρ) = (v.and w).relabel ρ := by
  cases v <;> cases w <;> simp [Verdict.and, relabel]

@[simp] theorem Verdict.relabel_ofTruth (t : Option Bool) : (ofTruth t).relabel ρ = ofTruth t := by
  unfold ofTruth
  split <;> rfl

@[simp] theorem Verdict.remaining_relabel (v : Verdict) :
    (v.relabel ρ).remaining = v.remaining.map (Expr.relabel ρ) := by cases v <;> rfl

variable [ρ.Faithful]

/-! ### Constants -/

/-- Truth values have no other labels. -/
@[simp] theorem Relabeling.value_bool (b : Bool) : ρ.value (.bool b) = .bool b := by
  have htype : (ρ.value (.bool b)).type = .bool := Faithful.type_value _
  have htruth : (ρ.value (.bool b)).truth = some b := Faithful.truth_value _
  cases hv : ρ.value (.bool b) with
  | bool c =>
    rw [hv] at htruth
    exact congrArg Value.bool (Option.some.inj htruth)
  | null | int i | double x | varchar s =>
    rw [hv] at htype
    cases htype

@[simp] theorem Relabeling.isNull_value (v : Value) : (ρ.value v).isNull = v.isNull := by
  have hnull (v : Value) : v.isNull = true ↔ v.type = .null := by
    cases v <;> simp [Value.isNull, Value.type]
  rw [Bool.eq_iff_iff, hnull, hnull, Faithful.type_value]

@[simp] theorem Relabeling.evaluate_value (op : Comparison) (v w : Value) :
    op.evaluate (ρ.value v) (ρ.value w) = op.evaluate v w := by
  simp [Comparison.evaluate]

@[simp] theorem Expr.relabel_never : never.relabel ρ = never :=
  congrArg literal (Relabeling.value_bool false)

@[simp] theorem Expr.relabel_always : always.relabel ρ = always :=
  congrArg literal (Relabeling.value_bool true)

/-! ### Simplified conditions -/

@[simp] theorem Verdict.toExpr_relabel (v : Verdict) : (v.relabel ρ).toExpr = v.toExpr.relabel ρ := by
  cases v <;> simp [relabel, toExpr]

namespace Expr

@[simp] theorem equalities_relabel (ms : List Expr) :
    equalities (ms.map (relabel ρ)) = (equalities ms).relabel ρ := by
  have hconstants : (ms.map (relabel ρ)).filterMap literal? = (ms.filterMap literal?).map ρ.value := by
    simp [List.filterMap_map, List.map_filterMap]
  have hfields : (ms.map (relabel ρ)).filter (fun m => m.literal?.isNone) =
      (ms.filter fun m => m.literal?.isNone).map (relabel ρ) := by
    simp [List.filter_map, Function.comp_def]
  unfold equalities
  rw [hconstants, hfields]
  generalize ms.filterMap literal? = constants
  generalize ms.filter (fun m => m.literal?.isNone) = fields
  cases constants with
  | cons v vs =>
    simp only [List.map_cons, Relabeling.isNull_value, List.any_map, Function.comp_def,
      Relabeling.evaluate_value, List.isEmpty_map]
    split_ifs
    · rfl
    · rfl
    · simp [Verdict.relabel, relabel, Function.comp_def, equals]
  | nil =>
    rcases fields with _ | ⟨f, _ | ⟨d, fs⟩⟩
    · rfl
    · rfl
    · simp [Verdict.relabel, Function.comp_def]

@[simp] theorem expand_relabel (e : Expr) : (e.relabel ρ).expand = e.expand.relabel ρ := by
  have hlist {es : List Expr} (ih : ∀ e ∈ es, (e.relabel ρ).expand = e.expand.relabel ρ) :
      (es.map (relabel ρ)).map expand = (es.map expand).map (relabel ρ) := by
    rw [List.map_map, List.map_map]
    exact List.map_congr_left ih
  induction e with
  | column c => rfl
  | literal v => rfl
  | compare op l r ihl ihr => simp [relabel, expand, ihl, ihr]
  | rowEq l r ihl ihr =>
    simp only [relabel, expand, relabel.list_eq_map, expand.list_eq_map, hlist ihl, hlist ihr]
  | allEqual ms ih => simp only [relabel, expand, relabel.list_eq_map, equalities_relabel,
      Verdict.toExpr_relabel]
  | and args ih | or args ih | call f args t ih =>
    simp only [relabel, expand, relabel.list_eq_map, expand.list_eq_map, hlist ih]
  | not e ih | isNull e ih | cast e t ih | cached e ih => simp only [relabel, expand, ih]

/-- A comparison is decided if both sides are constants. -/
theorem simplify_compare (op : Comparison) (l r : Expr) : (compare op l r).simplify =
    match l.literal?, r.literal? with
    | some v, some w => .ofTruth (op.evaluate v w)
    | _, _ => .conditions [compare op l r] := by
  cases l with
  | literal v => cases r <;> rfl
  | _ => rfl

@[simp] theorem simplify_relabel (e : Expr) : (e.relabel ρ).simplify = e.simplify.relabel ρ := by
  have hexpand {d d' : Expr} (h : d = d'.relabel ρ) :
      Verdict.conditions [d] = (Verdict.conditions [d']).relabel ρ := h ▸ rfl
  induction e with
  | allEqual ms ih => simp only [relabel, simplify, relabel.list_eq_map, equalities_relabel]
  | and args ih =>
    rw [relabel, simplify, simplify]
    induction args with
    | nil => rfl
    | cons e es ih' =>
      rw [relabel.list, simplify.list, simplify.list, ih e List.mem_cons_self,
        ih' fun d hd => ih d (List.mem_cons_of_mem e hd), Verdict.and_relabel]
  | literal v => simp [relabel, simplify]
  | compare op l r ihl ihr =>
    rw [relabel, simplify_compare, simplify_compare, literal?_relabel, literal?_relabel]
    cases l.literal? with
    | none => rfl
    | some v =>
      cases r.literal? with
      | none => rfl
      | some w => simp
  | column c => rfl
  | rowEq l r ihl ihr => exact hexpand (expand_relabel (rowEq l r))
  | or args ih => exact hexpand (expand_relabel (or args))
  | not e ih => exact hexpand (expand_relabel (not e))
  | isNull e ih => exact hexpand (expand_relabel (isNull e))
  | call f args t ih => exact hexpand (expand_relabel (call f args t))
  | cast e t ih => exact hexpand (expand_relabel (cast e t))
  | cached e ih => exact hexpand (expand_relabel (cached e))

@[simp] theorem contradictory_relabel (cs : List Expr) :
    contradictory (cs.map (relabel ρ)) = contradictory cs := by
  rw [contradictory, contradictory, List.any_map]
  refine congrArg cs.any (funext fun c => ?_)
  rw [Function.comp_apply, simplify_relabel]
  cases c.simplify <;> rfl

/-- A relabeled list of conditions is simplified to the relabeled simplified list. -/
@[simp] theorem simplifyAll_relabel (cs : List Expr) :
    simplifyAll (cs.map (relabel ρ)) = (simplifyAll cs).map (relabel ρ) := by
  rw [simplifyAll, simplifyAll, contradictory_relabel]
  split
  · simp
  · simp [List.flatMap_map, List.map_flatMap]

/-! ### The final form -/

@[simp] theorem castTo_relabel (t : SqlType) (e : Expr) :
    (e.relabel ρ).castTo t = (e.castTo t).relabel ρ := by
  rw [castTo, castTo, type_relabel]
  split <;> rfl

theorem castPair_relabel (l r : Expr) : castPair (l.relabel ρ) (r.relabel ρ) =
    Except.bimap (FinishFault.relabel ρ) (Prod.map (relabel ρ) (relabel ρ)) (castPair l r) := by
  rw [castPair, castPair, type_relabel, type_relabel]
  split_ifs
  · rfl
  · cases l.type.common? r.type <;> simp [FinishFault.relabel]

theorem castRows_relabel (ls rs : List Expr) :
    castRows (ls.map (relabel ρ)) (rs.map (relabel ρ)) =
      Except.bimap (FinishFault.relabel ρ) (Prod.map (List.map (relabel ρ)) (List.map (relabel ρ)))
        (castRows ls rs) := by
  induction ls generalizing rs with
  | nil => cases rs <;> rfl
  | cons l ls ih =>
    cases rs with
    | nil => rfl
    | cons r rs =>
      simp only [List.map_cons, castRows, castPair_relabel, ih]
      refine Except.bimap_bind fun pair => ?_
      exact Except.bimap_bind fun rows => rfl

/-- Casts are put where they were. -/
theorem withCasts_relabel (e : Expr) : (e.relabel ρ).withCasts =
    Except.bimap (FinishFault.relabel ρ) (relabel ρ) e.withCasts := by
  have hlist {es : List Expr} (ih : ∀ e ∈ es, (e.relabel ρ).withCasts =
      Except.bimap (FinishFault.relabel ρ) (relabel ρ) e.withCasts) :
      withCasts.list (es.map (relabel ρ)) =
        Except.bimap (FinishFault.relabel ρ) (List.map (relabel ρ)) (withCasts.list es) := by
    induction es with
    | nil => rfl
    | cons e es ih' =>
      rw [List.map_cons, withCasts.list, withCasts.list, ih e List.mem_cons_self,
        ih' fun d hd => ih d (List.mem_cons_of_mem e hd)]
      refine Except.bimap_bind fun d => ?_
      exact Except.bimap_bind fun ds => rfl
  induction e with
  | column c => rfl
  | literal v => rfl
  | compare op l r ihl ihr =>
    rw [relabel, withCasts, withCasts, ihl, ihr]
    refine Except.bimap_bind fun l => ?_
    refine Except.bimap_bind fun r => ?_
    rw [castPair_relabel]
    exact Except.bimap_bind fun pair => rfl
  | rowEq l r ihl ihr =>
    rw [relabel, withCasts, withCasts, relabel.list_eq_map, relabel.list_eq_map, hlist ihl, hlist ihr]
    refine Except.bimap_bind fun ls => ?_
    refine Except.bimap_bind fun rs => ?_
    rw [List.length_map, List.length_map]
    split_ifs
    · rfl
    · rw [castRows_relabel]
      exact Except.bimap_bind fun rows => by simp [relabel]
  | allEqual ms ih | and args ih | or args ih | call f args t ih =>
    rw [relabel, withCasts, withCasts, relabel.list_eq_map, hlist ih]
    exact Except.bimap_map fun es => by simp [relabel]
  | not e ih | isNull e ih | cast e t ih | cached e ih =>
    rw [relabel, withCasts, withCasts, ih]
    exact Except.bimap_map fun e => rfl

/-- Marks are put where they were. -/
@[simp] theorem cacheArg_relabel (e : Expr) : (e.relabel ρ).cacheArg = e.cacheArg.relabel ρ := by
  have hmark {e marked : Expr} : cacheArg.mark (e.relabel ρ) (marked.relabel ρ) =
      (cacheArg.mark e marked).relabel ρ := by
    rw [cacheArg.mark, cacheArg.mark, isConst_relabel]
    split <;> rfl
  have hlist {es : List Expr} (ih : ∀ e ∈ es, (e.relabel ρ).cacheArg = e.cacheArg.relabel ρ) :
      (es.map (relabel ρ)).map cacheArg = (es.map cacheArg).map (relabel ρ) := by
    rw [List.map_map, List.map_map]
    exact List.map_congr_left ih
  induction e with
  | column c =>
    rw [relabel, cacheArg, cacheArg, ← hmark]
    rfl
  | literal v => rfl
  | compare op l r ihl ihr =>
    rw [relabel, cacheArg, cacheArg, ihl, ihr, ← hmark]
    rfl
  | rowEq l r ihl ihr =>
    simp only [cacheArg, ← hmark, relabel, relabel.list_eq_map, cacheArg.list_eq_map, hlist ihl, hlist ihr]
  | allEqual ms ih | and args ih | or args ih | call f args t ih =>
    simp only [cacheArg, ← hmark, relabel, relabel.list_eq_map, cacheArg.list_eq_map, hlist ih]
  | not e ih | isNull e ih | cast e t ih =>
    rw [relabel, cacheArg, cacheArg, ih, ← hmark]
    rfl
  | cached e ih => rfl

@[simp] theorem withCaches_relabel (e : Expr) : (e.relabel ρ).withCaches = e.withCaches.relabel ρ := by
  cases e <;> simp [relabel, withCaches, Function.comp_def]

/-! ### Selectivity -/

@[simp] theorem selectivity_relabel (e : Expr) : (e.relabel ρ).selectivity = e.selectivity := by
  have hlist {es : List Expr} (ih : ∀ e ∈ es, (e.relabel ρ).selectivity = e.selectivity) :
      selectivity.list (es.map (relabel ρ)) = selectivity.list es := by
    induction es with
    | nil => rfl
    | cons e es ih' =>
      rw [List.map_cons, selectivity.list, selectivity.list, ih e List.mem_cons_self,
        ih' fun d hd => ih d (List.mem_cons_of_mem e hd)]
  induction e with
  | and args ih | or args ih => simp only [relabel, selectivity, relabel.list_eq_map, hlist ih]
  | rowEq l r ihl ihr => simp only [relabel, selectivity, relabel.list_eq_map, List.length_map]
  | allEqual ms ih => simp only [relabel, selectivity, relabel.list_eq_map, List.length_map]
  | literal v => simp [relabel, selectivity]
  | not e ih | cached e ih => simp only [relabel, selectivity, ih]
  | _ => rfl

end Expr

theorem Finisher.respects_default : Finisher.default.Respects ρ := by
  intro c
  change (c.relabel ρ).withCasts.map Expr.withCaches = _
  rw [Expr.withCasts_relabel]
  exact Except.bimap_map Expr.withCaches_relabel

theorem Estimator.respects_default : Estimator.default.Respects ρ := by
  intro c
  change Double.ofFloat (Selectivity.clamp (c.relabel ρ).selectivity) = _
  rw [Expr.selectivity_relabel]
  rfl

end QueryGraph
