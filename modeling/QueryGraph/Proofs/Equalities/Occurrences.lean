import QueryGraph.Proofs.Meaning.Restriction
import QueryGraph.Proofs.Passes.FinalForm
import QueryGraph.Proofs.Relabeling.Conditions

/-!
# Where equalities of several members occur

Which of them are replaced when a condition is simplified, and which are left.

## The model

An expression is `plain` if no equality of several members occurs in it. One is replaced where it stands as
a conjunct, and where it stands anywhere below another connective. The operands of a comparison among the
conjuncts are not looked at, and neither are the members of an equality that is replaced: they become
operands of plain equalities as they are. So those that stand there are left, unless a verdict makes the
condition around them disappear (`expandsToPlain`, `simplifiesToPlain`).

## What is proved

* `expand_eq_self` — an expression without such equalities is not changed.
* `plain_expand`, `plain_simplify_iff` — when none is left of those in an expression, and in a condition.
* `plain_simplifyAll_iff` — when none is left of those in a list of conditions.
* `standsAlone_of_mem_simplifyAll` — what is left are no conjunctions and no constants.
* `plain_restrict`, `plain_relabel`, `seesThrough_plain` — what else keeps expressions plain.
-/

namespace QueryGraph

namespace Expr

/-! ### The members of a list -/

theorem literal?_eq_some {e : Expr} {v : Value} : e.literal? = some v ↔ e = literal v := by
  cases e <;> simp [literal?]

/-- What is so of the constants and of the other members of a list is so of all of them. -/
theorem forall_mem_iff_consts_fields {ms : List Expr} {Q : Expr → Prop} : (∀ m ∈ ms, Q m) ↔
    (∀ v ∈ ms.filterMap literal?, Q (literal v)) ∧
      ∀ f ∈ ms.filter fun m => m.literal?.isNone, Q f := by
  simp only [List.mem_filterMap, literal?_eq_some, List.mem_filter, forall_exists_index, and_imp]
  constructor
  · intro h
    exact ⟨fun v m hm hv => hv ▸ h m hm, fun f hf _ => h f hf⟩
  · intro h m hm
    cases hv : m.literal? with
    | none => exact h.2 m hm (hv ▸ rfl)
    | some v =>
      obtain rfl := literal?_eq_some.1 hv
      exact h.1 v _ hm rfl

/-- A list of conditions contradicts itself if the verdict on one of them is that it never holds. -/
theorem contradictory_iff {conds : List Expr} :
    contradictory conds = true ↔ ∃ c ∈ conds, c.simplify = .never := by
  rw [contradictory, List.any_eq_true]
  refine exists_congr fun c => and_congr_right fun _ => ?_
  cases c.simplify <;> simp

/-! ### Plain expressions -/

/-- No equality of several members occurs in the expression. -/
def plain : Expr → Bool
  | column _ => true
  | literal _ => true
  | compare _ l r => l.plain && r.plain
  | rowEq l r => list l && list r
  | allEqual _ => false
  | and args => list args
  | or args => list args
  | not e => e.plain
  | isNull e => e.plain
  | call _ args _ => list args
  | cast e _ => e.plain
  | cached e => e.plain
where
  /-- None occurs in an expression of the list. -/
  list : List Expr → Bool
    | [] => true
    | e :: es => e.plain && list es

@[simp] theorem plain.list_iff {es : List Expr} : list es = true ↔ ∀ e ∈ es, e.plain = true := by
  induction es with
  | nil => simp [list]
  | cons e es ih => simp [list, ih]

theorem plain.list_eq_all (es : List Expr) : list es = (es.map plain).all id := by
  induction es with
  | nil => rfl
  | cons e es ih => rw [list, ih, List.map_cons, List.all_cons, id]

theorem plain_conj {es : List Expr} : (conj es).plain = true ↔ ∀ e ∈ es, e.plain = true := by
  unfold conj
  split
  next e => rw [List.forall_mem_singleton]
  next => rw [plain, plain.list_iff]

theorem plain_disj {es : List Expr} : (disj es).plain = true ↔ ∀ e ∈ es, e.plain = true := by
  unfold disj
  split
  next e => rw [List.forall_mem_singleton]
  next => rw [plain, plain.list_iff]

theorem seesThrough_plain : SeesThrough plain where
  cast _ _ := rfl
  cached _ := rfl
  compare _ _ _ _ _ hl hr := by rw [plain, plain, hl, hr]
  rowEq hl hr := by simp only [plain, plain.list_eq_all, hl, hr]
  allEqual _ := rfl
  and h := by simp only [plain, plain.list_eq_all, h]
  or h := by simp only [plain, plain.list_eq_all, h]
  not h := h
  isNull h := h
  call _ _ _ _ h := by simp only [plain, plain.list_eq_all, h]

/-- What a condition implies on other tables is plain if the condition is. -/
theorem plain_restrict {ts : TableSet} {c p : Expr} (hc : c.plain = true) (h : c.restrict ts = some p) :
    p.plain = true := by
  induction c generalizing p with
  | and args ih =>
    obtain ⟨_, parts, ⟨⟩, rfl, hparts⟩ | ⟨_, _, ⟨⟩, _⟩ | ⟨_, rfl⟩ := restrict_cases h
    · refine plain_conj.2 fun q hq => ?_
      obtain ⟨e, he, heq⟩ := hparts q hq
      exact ih e he (plain.list_iff.1 hc e he) heq
    · exact hc
  | or args ih =>
    obtain ⟨_, _, ⟨⟩, _⟩ | ⟨_, parts, ⟨⟩, rfl, hparts⟩ | ⟨_, rfl⟩ := restrict_cases h
    · refine plain_disj.2 fun q hq => ?_
      obtain ⟨e, he, heq⟩ := (mem_restrict_all hparts).1 q hq
      exact ih e he (plain.list_iff.1 hc e he) heq
    · exact hc
  | _ =>
    obtain ⟨_, _, ⟨⟩, _⟩ | ⟨_, _, ⟨⟩, _⟩ | ⟨_, rfl⟩ := restrict_cases h
    exact hc

/-- Labels do not matter. -/
@[simp] theorem plain_relabel (ρ : Relabeling) (e : Expr) : (e.relabel ρ).plain = e.plain := by
  have hlist {es : List Expr} (ih : ∀ e ∈ es, (e.relabel ρ).plain = e.plain) :
      plain.list (relabel.list ρ es) = plain.list es := by
    rw [plain.list_eq_all, plain.list_eq_all, relabel.list_eq_map, List.map_map]
    exact congrArg (·.all id) (List.map_congr_left ih)
  induction e with
  | compare op l r ihl ihr => rw [relabel, plain, plain, ihl, ihr]
  | rowEq l r ihl ihr => rw [relabel, plain, plain, hlist ihl, hlist ihr]
  | and args ih | or args ih | call f args t ih => exact hlist ih
  | not e ih | isNull e ih | cast e t ih | cached e ih => exact ih
  | _ => rfl

/-! ### Where nothing is replaced -/

/-- Where there is nothing to replace, nothing is. -/
theorem expand_eq_self {e : Expr} (h : e.plain = true) : e.expand = e := by
  have hlist {es : List Expr} (ih : ∀ e ∈ es, e.plain = true → e.expand = e)
      (h : plain.list es = true) : expand.list es = es := by
    rw [expand.list_eq_map, map_eq_self_iff]
    exact fun e he => ih e he (plain.list_iff.1 h e he)
  induction e with
  | column c => rfl
  | literal v => rfl
  | compare op l r ihl ihr =>
    rw [plain, Bool.and_eq_true] at h
    rw [expand, ihl h.1, ihr h.2]
  | rowEq l r ihl ihr =>
    rw [plain, Bool.and_eq_true] at h
    rw [expand, hlist ihl h.1, hlist ihr h.2]
  | allEqual ms ih => cases h
  | and args ih | or args ih | call f args t ih => rw [expand, hlist ih h]
  | not e ih | isNull e ih | cast e t ih | cached e ih => rw [expand, ih h]

/-! ### What is left -/

/-- No equality of several members is left when the expression is expanded. -/
def expandsToPlain : Expr → Bool
  | column _ => true
  | literal _ => true
  | compare _ l r => l.expandsToPlain && r.expandsToPlain
  | rowEq l r => list l && list r
  | allEqual ms => match equalities ms with
    | .never => true
    | _ => plain.list ms
  | and args => list args
  | or args => list args
  | not e => e.expandsToPlain
  | isNull e => e.expandsToPlain
  | call _ args _ => list args
  | cast e _ => e.expandsToPlain
  | cached e => e.expandsToPlain
where
  /-- None is left when the expressions of a list are expanded. -/
  list : List Expr → Bool
    | [] => true
    | e :: es => e.expandsToPlain && list es

@[simp] theorem expandsToPlain.list_iff {es : List Expr} :
    list es = true ↔ ∀ e ∈ es, e.expandsToPlain = true := by
  induction es with
  | nil => simp [list]
  | cons e es ih => simp [list, ih]

/-- No equality of several members is left when the condition is simplified, unless the condition never
holds. -/
def simplifiesToPlain : Expr → Bool
  | allEqual ms => plain.list ms
  | and args => list args
  | compare _ l r => l.plain && r.plain
  | e => e.expandsToPlain
where
  /-- None is left when the conditions of a list are simplified. -/
  list : List Expr → Bool
    | [] => true
    | e :: es => e.simplifiesToPlain && list es

@[simp] theorem simplifiesToPlain.list_iff {es : List Expr} :
    list es = true ↔ ∀ e ∈ es, e.simplifiesToPlain = true := by
  induction es with
  | nil => simp [list]
  | cons e es ih => simp [list, ih]

/-- What is left of an equality of several members has them as operands. -/
theorem plain_equalities_iff {ms : List Expr} (h : equalities ms ≠ .never) :
    (∀ c ∈ (equalities ms).remaining, c.plain = true) ↔ ∀ m ∈ ms, m.plain = true := by
  have hmembers : (∀ m ∈ ms, m.plain = true) ↔
      ∀ f ∈ ms.filter fun m => m.literal?.isNone, f.plain = true :=
    forall_mem_iff_consts_fields.trans (and_iff_right fun v _ => rfl)
  rw [hmembers]
  clear hmembers
  rw [equalities] at h ⊢
  generalize ms.filterMap literal? = consts at h ⊢
  generalize (ms.filter fun m => m.literal?.isNone) = fields at h ⊢
  cases consts with
  | cons v vs =>
    dsimp only at h ⊢
    split_ifs at h ⊢ with hbad hnone
    · exact absurd rfl h
    · simp [Verdict.remaining, List.isEmpty_iff.1 hnone]
    · simp [Verdict.remaining, equals, plain]
  | nil =>
    cases fields with
    | nil => simp [Verdict.remaining]
    | cons f fs =>
      cases fs with
      | nil => simp [Verdict.remaining, plain]
      | cons g fs =>
        simp only [Verdict.remaining, List.forall_mem_map, List.forall_mem_cons, equals, plain,
          Bool.and_eq_true]
        constructor
        · rintro ⟨⟨hf, hg⟩, hfs⟩
          exact ⟨hf, hg, fun d hd => (hfs d hd).2⟩
        · rintro ⟨hf, hg, hfs⟩
          exact ⟨⟨hf, hg⟩, fun d hd => ⟨hf, hfs d hd⟩⟩

theorem plain_toExpr_iff {v : Verdict} :
    v.toExpr.plain = true ↔ ∀ c ∈ v.remaining, c.plain = true := by
  cases v with
  | always => simp [Verdict.toExpr, Verdict.remaining, always, plain]
  | never => simp [Verdict.toExpr, Verdict.remaining, never, plain]
  | conditions cs => exact plain_conj

/-- When an expanded expression is plain. -/
theorem plain_expand (e : Expr) : e.expand.plain = e.expandsToPlain := by
  have hlist {es : List Expr} (ih : ∀ e ∈ es, e.expand.plain = e.expandsToPlain) :
      plain.list (expand.list es) = expandsToPlain.list es := by
    rw [Bool.eq_iff_iff, plain.list_iff, expandsToPlain.list_iff, expand.list_eq_map, List.forall_mem_map]
    exact forall₂_congr fun e he => by rw [ih e he]
  induction e with
  | column c => rfl
  | literal v => rfl
  | compare op l r ihl ihr => rw [expand, plain, expandsToPlain, ihl, ihr]
  | rowEq l r ihl ihr => rw [expand, plain, expandsToPlain, hlist ihl, hlist ihr]
  | allEqual ms ih =>
    rw [expand, expandsToPlain, Bool.eq_iff_iff, plain_toExpr_iff]
    split
    next h => simp [h, Verdict.remaining]
    next h => rw [plain_equalities_iff h, plain.list_iff]
  | and args ih | or args ih | call f args t ih => rw [expand, plain, expandsToPlain, hlist ih]
  | not e ih | isNull e ih | cast e t ih | cached e ih => rw [expand, plain, expandsToPlain, ih]

end Expr

theorem Verdict.remaining_and {v w : Verdict} (h : v.and w ≠ .never) :
    v ≠ .never ∧ w ≠ .never ∧ (v.and w).remaining = v.remaining ++ w.remaining := by
  cases v <;> cases w <;> simp_all [Verdict.and, remaining]

theorem Verdict.mem_remaining_and {v w : Verdict} {c : Expr} (h : c ∈ (v.and w).remaining) :
    c ∈ v.remaining ∨ c ∈ w.remaining := by
  cases v <;> cases w <;> simp_all [Verdict.and, remaining]

namespace Expr

/-- When what is left of a condition is plain. -/
theorem plain_simplify_iff {c : Expr} (h : c.simplify ≠ .never) :
    (∀ d ∈ c.simplify.remaining, d.plain = true) ↔ c.simplifiesToPlain = true := by
  have hatom (e : Expr) : (∀ d ∈ (Verdict.conditions [e.expand]).remaining, d.plain = true) ↔
      e.expandsToPlain = true := by
    rw [Verdict.remaining, List.forall_mem_singleton, plain_expand]
  induction c with
  | allEqual ms ih => exact (plain_equalities_iff h).trans plain.list_iff.symm
  | and args ih =>
    rw [simplify] at h ⊢
    rw [simplifiesToPlain, simplifiesToPlain.list_iff]
    induction args with
    | nil => simp [simplify.list, Verdict.remaining]
    | cons e es ihes =>
      obtain ⟨he, hes, hremaining⟩ := Verdict.remaining_and h
      rw [simplify.list, hremaining, List.forall_mem_append, List.forall_mem_cons]
      exact and_congr (ih e List.mem_cons_self he)
        (ihes (fun d hd => ih d (List.mem_cons_of_mem e hd)) hes)
  | literal v =>
    rw [simplify, Verdict.ofTruth]
    split <;> simp [Verdict.remaining, simplifiesToPlain, expandsToPlain]
  | compare op l r ihl ihr =>
    rw [simplify_compare, simplifiesToPlain]
    split
    next v w hl hr =>
      obtain rfl := literal?_eq_some.1 hl
      obtain rfl := literal?_eq_some.1 hr
      rw [Verdict.ofTruth]
      split <;> simp [Verdict.remaining, plain]
    next => rw [Verdict.remaining, List.forall_mem_singleton, plain]
  | _ => exact hatom _

/-- When what is left of a list of conditions is plain. -/
theorem plain_simplifyAll_iff {conds : List Expr} : (∀ c ∈ simplifyAll conds, c.plain = true) ↔
    contradictory conds = true ∨ ∀ c ∈ conds, c.simplifiesToPlain = true := by
  rw [simplifyAll]
  split
  next h => exact iff_of_true (List.forall_mem_singleton.2 rfl) (.inl h)
  next h =>
    rw [List.forall_mem_flatMap, or_iff_right h]
    refine forall₂_congr fun c hc => plain_simplify_iff fun hnever => ?_
    exact h (contradictory_iff.2 ⟨c, hc, hnever⟩)

/-! ### What it consists of -/

/-- The condition is neither a conjunction nor a constant, nor an equality of several members as a whole. -/
def standsAlone : Expr → Bool
  | and _ => false
  | literal _ => false
  | allEqual _ => false
  | _ => true

/-- What is left of an equality of several members are plain equalities, or a test for NULL. -/
theorem mem_remaining_equalities {ms : List Expr} {c : Expr} (h : c ∈ (equalities ms).remaining) :
    (∃ l r : Expr, c = l.equals r) ∨ ∃ f, c = not (isNull f) := by
  rw [equalities] at h
  split at h
  next =>
    split_ifs at h
    · cases h
    · cases h
    · obtain ⟨f, -, rfl⟩ := List.mem_map.1 h
      exact .inl ⟨f, _, rfl⟩
  next => cases h
  next => exact .inr ⟨_, List.mem_singleton.1 h⟩
  next =>
    obtain ⟨g, -, rfl⟩ := List.mem_map.1 h
    exact .inl ⟨_, g, rfl⟩

theorem standsAlone_of_mem_equalities {ms : List Expr} {c : Expr} (h : c ∈ (equalities ms).remaining) :
    c.standsAlone = true := by
  obtain ⟨l, r, rfl⟩ | ⟨f, rfl⟩ := mem_remaining_equalities h <;> rfl

/-- What is left of a condition stands alone. -/
theorem standsAlone_of_mem_simplify {c d : Expr} (h : d ∈ c.simplify.remaining) :
    d.standsAlone = true := by
  have hatom {e d : Expr} (he : e.expand.standsAlone = true)
      (h : d ∈ (Verdict.conditions [e.expand]).remaining) : d.standsAlone = true :=
    List.mem_singleton.1 h ▸ he
  induction c with
  | allEqual ms ih => exact standsAlone_of_mem_equalities h
  | and args ih =>
    rw [simplify] at h
    induction args with
    | nil => cases h
    | cons e es ihes =>
      rw [simplify.list] at h
      rcases Verdict.mem_remaining_and h with h | h
      · exact ih e List.mem_cons_self h
      · exact ihes (fun d hd => ih d (List.mem_cons_of_mem e hd)) h
  | literal v =>
    rw [simplify, Verdict.ofTruth] at h
    split at h <;> cases h
  | compare op l r ihl ihr =>
    rw [simplify_compare] at h
    split at h
    next =>
      rw [Verdict.ofTruth] at h
      split at h <;> cases h
    next => exact List.mem_singleton.1 h ▸ rfl
  | _ => exact hatom rfl h

/-- Simplified conditions stand alone, unless the constant FALSE is all that is left. -/
theorem standsAlone_of_mem_simplifyAll {conds : List Expr} (h : contradictory conds = false) :
    ∀ c ∈ simplifyAll conds, c.standsAlone = true := by
  intro c hc
  rw [simplifyAll, h, if_neg Bool.false_ne_true] at hc
  obtain ⟨d, -, hcd⟩ := List.mem_flatMap.1 hc
  exact standsAlone_of_mem_simplify hcd

end Expr

end QueryGraph
