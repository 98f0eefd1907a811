import QueryGraph.Proofs.Equalities.Truth

/-!
# Plain equalities below other connectives

Below a negation or a test for NULL it matters whether a condition is false or unknown. What takes the place
of an equality of several members is true where that is. But it may be false where the equality is unknown,
and the other way round.

## The model

An equality of several members is false where two members differ, and unknown where one is NULL and no two
differ. What takes its place tells these apart (`ShowsDifferences`) but for three cases.

* Constants that cannot be equal make it the constant FALSE. One of them may be NULL, and then the equality
  is unknown unless two other members differ.
* A lone member becomes a test for NULL, which is false where the equality is unknown.
* Without a constant among them the members are compared with the first one only. If that is NULL, the
  comparisons are unknown even where two other members differ.

## What is proved

* `keepsTruth_iff` — the truth value is kept if the plain equalities fail where two members differ, and only
  there.
* `fails_iff_differ` — that is so apart from the three cases.
* `value_expand` — an expression keeps its value if what is replaced in it keeps its truth value.
* `negation_exact` — when a negation and a test for NULL are true of the same rows as before.
-/

namespace QueryGraph

namespace Expr

/-- The members of the equalities that are replaced when the expression is expanded. -/
def replaced : Expr → List (List Expr)
  | column _ => []
  | literal _ => []
  | compare _ l r => l.replaced ++ r.replaced
  | rowEq l r => list l ++ list r
  | allEqual ms => [ms]
  | and args => list args
  | or args => list args
  | not e => e.replaced
  | isNull e => e.replaced
  | call _ args _ => list args
  | cast e _ => e.replaced
  | cached e => e.replaced
where
  /-- Those that are replaced in the expressions of a list. -/
  list : List Expr → List (List Expr)
    | [] => []
    | e :: es => e.replaced ++ list es

@[simp] theorem replaced.list_eq_flatMap (es : List Expr) : list es = es.flatMap replaced := by
  induction es with
  | nil => rfl
  | cons e es ih => rw [list, ih, List.flatMap_cons]

/-! ### With constants and without -/

theorem equalities_of_consts {ms : List Expr} {v : Value} {vs : List Value}
    (hconsts : ms.filterMap literal? = v :: vs) : equalities ms =
      if v.isNull || vs.any (fun w => Comparison.eq.evaluate v w ≠ some true) then .never
      else if (ms.filter fun m => m.literal?.isNone).isEmpty then .always
      else .conditions ((ms.filter fun m => m.literal?.isNone).map fun f => f.equals (literal v)) := by
  rw [equalities, hconsts]

theorem equalities_singleton {f : Expr} (h : f.literal? = none) :
    equalities [f] = .conditions [not (isNull f)] := by
  simp [equalities, h]

theorem equalities_of_fields {f g : Expr} {fs : List Expr} (h : ∀ m ∈ f :: g :: fs, m.literal? = none) :
    equalities (f :: g :: fs) = .conditions ((g :: fs).map f.equals) := by
  have hconsts : (f :: g :: fs).filterMap literal? = [] := List.filterMap_eq_nil_iff.2 h
  have hfields : ((f :: g :: fs).filter fun m => m.literal?.isNone) = f :: g :: fs :=
    List.filter_eq_self.2 fun m hm => by rw [h m hm]; rfl
  rw [equalities, hconsts, hfields]

end Expr

namespace Dialect

variable (D : Dialect) (env : Assignment)

/-- The expression is false of a row, as a condition. -/
def IsFalse (e : Expr) : Prop := (D.value env e).truth = some false

/-- The expression is unknown of a row, as a condition. -/
def IsUnknown (e : Expr) : Prop := (D.value env e).truth = none

/-- Two of the expressions differ: they are not equal, and neither is unknown. -/
def Differ (ms : List Expr) : Prop := ∃ m ∈ ms, ∃ n ∈ ms, D.IsFalse env (m.equals n)

/-- What takes the place of an equality of several members has its truth value. -/
def KeepsTruth (ms : List Expr) : Prop :=
  (D.value env (Expr.equalities ms).toExpr).truth = (D.value env (.allEqual ms)).truth

/-- What takes the place of an equality of several members shows whether two of them differ. -/
structure ShowsDifferences (ms : List Expr) : Prop where
  /-- If the constants cannot be equal, two members differ. -/
  never : Expr.equalities ms = .never → D.Differ env ms
  /-- A lone member that is no constant is not NULL. -/
  lone : ∀ f, ms = [f] → f.literal? = none → D.value env f ≠ .null
  /-- If the first member is NULL and there is no constant, no two members differ. -/
  first : ∀ f fs, ms = f :: fs → (∀ m ∈ ms, m.literal? = none) → D.value env f = .null →
    ¬ D.Differ env ms

/-- Of two values other than NULL it is known whether they are equal. -/
def EqualityIsDecided : Prop := ∀ v w, v ≠ .null → w ≠ .null → D.compare .eq v w ≠ none

variable {D env}

/-! ### Where equalities are false -/

theorem isFalse_equals {l r : Expr} : D.IsFalse env (l.equals r) ↔
    D.compare .eq (D.value env l) (D.value env r) = some false := by
  rw [IsFalse, Expr.equals, value, Value.truth_ofTruth]

/-- A conjunction is false where an argument is. -/
theorem isFalse_conj {es : List Expr} : D.IsFalse env (.conj es) ↔ ∃ e ∈ es, D.IsFalse env e := by
  unfold Expr.conj
  split
  next e => simp only [List.mem_singleton, exists_eq_left]
  next =>
    rw [IsFalse, value, Value.truth_ofTruth, Truth.all_eq_false, value.list_eq_map, List.map_map,
      List.mem_map]
    rfl

theorem isFalse_not_isNull {e : Expr} : D.IsFalse env (.not (.isNull e)) ↔ D.value env e = .null := by
  rw [IsFalse, value, value, Value.truth_ofTruth]
  simp [Value.truth, Value.isNull]

/-- A value other than NULL is equal to another one or differs from it. -/
theorem EqualityIsDecided.isTrue_or_isFalse (hdec : D.EqualityIsDecided) {m n : Expr}
    (hm : D.value env m ≠ .null) (hn : D.value env n ≠ .null) :
    D.IsTrue env (m.equals n) ∨ D.IsFalse env (m.equals n) := by
  rw [isTrue_equals, isFalse_equals]
  match h : D.compare .eq (D.value env m) (D.value env n) with
  | none => exact absurd h (hdec _ _ hm hn)
  | some true => exact .inl rfl
  | some false => exact .inr rfl

theorem ne_null_of_isFalse {m n : Expr} (h : D.IsFalse env (m.equals n)) :
    D.value env m ≠ .null ∧ D.value env n ≠ .null := by
  rw [isFalse_equals] at h
  constructor
  · intro hm
    rw [hm, D.compare_null_left _ _ (by decide)] at h
    cases h
  · intro hn
    rw [hn, D.compare_null_right _ _ (by decide)] at h
    cases h

theorem not_isTrue_of_isFalse {e : Expr} (h : D.IsFalse env e) : ¬ D.IsTrue env e := by
  intro htrue
  rw [IsTrue, h] at htrue
  cases htrue

/-- What is equal to the same value does not differ. -/
theorem EqualityIsEquivalence.not_isFalse (hD : D.EqualityIsEquivalence) {l m r : Expr}
    (hl : D.IsTrue env (l.equals m)) (hr : D.IsTrue env (r.equals m)) : ¬ D.IsFalse env (l.equals r) :=
  fun h => not_isTrue_of_isFalse h (hD.equals_trans hl (hD.equals_symm hr))

theorem EqualityIsDecided.isFalse_symm (hdec : D.EqualityIsDecided) (hD : D.EqualityIsEquivalence)
    {m n : Expr} (h : D.IsFalse env (m.equals n)) : D.IsFalse env (n.equals m) := by
  obtain ⟨hm, hn⟩ := ne_null_of_isFalse h
  exact (hdec.isTrue_or_isFalse hn hm).resolve_left fun htrue =>
    not_isTrue_of_isFalse h (hD.equals_symm htrue)

theorem false_mem_memberEqualities {ms : List Expr}
    (hsymm : ∀ {m n : Expr}, D.IsFalse env (m.equals n) → D.IsFalse env (n.equals m)) :
    some false ∈ D.memberEqualities (ms.map (D.value env)) ↔ D.Differ env ms := by
  induction ms with
  | nil => simp [memberEqualities, Differ]
  | cons m ms ih =>
    have hfirst : some false ∈ ((m :: ms).map (D.value env)).map (D.compare .eq (D.value env m)) ↔
        ∃ n ∈ m :: ms, D.IsFalse env (m.equals n) := by
      simp only [List.map_map, List.mem_map, Function.comp_apply, isFalse_equals]
    rw [List.map_cons, memberEqualities, ← List.map_cons, List.mem_append, hfirst, ih]
    constructor
    · rintro (⟨n, hn, h⟩ | ⟨n, hn, n', hn', h⟩)
      · exact ⟨m, List.mem_cons_self, n, hn, h⟩
      · exact ⟨n, List.mem_cons_of_mem m hn, n', List.mem_cons_of_mem m hn', h⟩
    · rintro ⟨n, hn, n', hn', h⟩
      rcases List.mem_cons.1 hn with rfl | hms
      · exact .inl ⟨n', hn', h⟩
      rcases List.mem_cons.1 hn' with rfl | hms'
      · exact .inl ⟨n, hn, hsymm h⟩
      · exact .inr ⟨n, hms, n', hms', h⟩

/-- An equality of several members is false if two of them differ. -/
theorem isFalse_allEqual (hD : D.EqualityIsEquivalence) (hdec : D.EqualityIsDecided) {ms : List Expr} :
    D.IsFalse env (.allEqual ms) ↔ D.Differ env ms := by
  rw [IsFalse, value, Value.truth_ofTruth, Truth.all_eq_false, value.list_eq_map,
    false_mem_memberEqualities (hdec.isFalse_symm hD)]

end Dialect

/-! ### Where verdicts are false -/

/-- The verdict is false of a row. -/
def Verdict.Fails (D : Dialect) (env : Assignment) : Verdict → Prop
  | always => False
  | never => True
  | conditions cs => ∃ c ∈ cs, D.IsFalse env c

namespace Dialect

variable {D : Dialect} {env : Assignment} {P : Value → Prop}

theorem isFalse_toExpr (v : Verdict) : D.IsFalse env v.toExpr ↔ v.Fails D env := by
  cases v with
  | always => exact iff_of_false nofun id
  | never => exact iff_of_true rfl trivial
  | conditions cs => exact isFalse_conj

theorem isTrue_replaced (hD : D.EqualityIsEquivalence) (hP : D.EquatesConstants P) {ms : List Expr}
    (hms : ∀ m ∈ ms, m.AllLabels (fun _ => True) P) :
    D.IsTrue env (Expr.equalities ms).toExpr ↔ D.IsTrue env (.allEqual ms) :=
  (isTrue_toExpr _).trans (holds_equalities hD hP hms)

/-- What takes the place of an equality of several members is true where it is. So it keeps the truth value
if it is also false where the equality is. -/
theorem keepsTruth_iff (hD : D.EqualityIsEquivalence) (hP : D.EquatesConstants P) {ms : List Expr}
    (hms : ∀ m ∈ ms, m.AllLabels (fun _ => True) P) :
    D.KeepsTruth env ms ↔
      (D.IsFalse env (Expr.equalities ms).toExpr ↔ D.IsFalse env (.allEqual ms)) := by
  have htrue : D.IsTrue env _ ↔ D.IsTrue env _ := isTrue_replaced hD hP hms
  unfold KeepsTruth IsTrue IsFalse at *
  generalize (D.value env (Expr.equalities ms).toExpr).truth = t at htrue ⊢
  generalize (D.value env (.allEqual ms)).truth = t' at htrue ⊢
  rcases t with _ | _ | _ <;> rcases t' with _ | _ | _ <;> simp_all

/-- So it does if it is also unknown where the equality is. -/
theorem keepsTruth_iff_unknown (hD : D.EqualityIsEquivalence) (hP : D.EquatesConstants P) {ms : List Expr}
    (hms : ∀ m ∈ ms, m.AllLabels (fun _ => True) P) :
    D.KeepsTruth env ms ↔
      (D.IsUnknown env (Expr.equalities ms).toExpr ↔ D.IsUnknown env (.allEqual ms)) := by
  have htrue : D.IsTrue env _ ↔ D.IsTrue env _ := isTrue_replaced hD hP hms
  unfold KeepsTruth IsTrue IsUnknown at *
  generalize (D.value env (Expr.equalities ms).toExpr).truth = t at htrue ⊢
  generalize (D.value env (.allEqual ms)).truth = t' at htrue ⊢
  rcases t with _ | _ | _ <;> rcases t' with _ | _ | _ <;> simp_all

/-- If the constants among the members are equal and not NULL, some other member differs from the first of
them where two members differ. -/
theorem exists_differs_from_const (hD : D.EqualityIsEquivalence) (hdec : D.EqualityIsDecided)
    {ms : List Expr} {v : Value} (hv : v ≠ .null)
    (hconsts : ∀ w, .literal w ∈ ms → D.IsTrue env ((Expr.literal w).equals (.literal v)))
    (h : D.Differ env ms) :
    ∃ f ∈ ms.filter fun m => m.literal?.isNone, D.IsFalse env (f.equals (.literal v)) := by
  by_contra hnone
  push Not at hnone
  have hequal {m : Expr} (hm : m ∈ ms) (hnull : D.value env m ≠ .null) :
      D.IsTrue env (m.equals (.literal v)) := by
    cases hlit : m.literal? with
    | some w =>
      obtain rfl := Expr.literal?_eq_some.1 hlit
      exact hconsts w hm
    | none =>
      have hfield : m ∈ ms.filter fun m => m.literal?.isNone := List.mem_filter.2 ⟨hm, by rw [hlit]; rfl⟩
      have hnull' : D.value env (.literal v) ≠ .null := hv
      exact (hdec.isTrue_or_isFalse hnull hnull').resolve_right (hnone m hfield)
  obtain ⟨m, hm, n, hn, hfalse⟩ := h
  obtain ⟨hmnull, hnnull⟩ := ne_null_of_isFalse hfalse
  exact hD.not_isFalse (hequal hm hmnull) (hequal hn hnnull) hfalse

/-- If the first member is not NULL, another one differs from it where two members differ. -/
theorem exists_differs_from_first (hD : D.EqualityIsEquivalence) (hdec : D.EqualityIsDecided) {f : Expr}
    {fs : List Expr} (hf : D.value env f ≠ .null) (h : D.Differ env (f :: fs)) :
    ∃ g ∈ fs, D.IsFalse env (f.equals g) := by
  by_contra hnone
  push Not at hnone
  have hequal {m : Expr} (hm : m ∈ f :: fs) (hnull : D.value env m ≠ .null) : D.IsTrue env (m.equals f) := by
    rcases List.mem_cons.1 hm with rfl | hm
    · exact isTrue_equals.2 (hD.refl _ hf)
    · exact hD.equals_symm ((hdec.isTrue_or_isFalse hf hnull).resolve_right (hnone m hm))
  obtain ⟨m, hm, n, hn, hfalse⟩ := h
  obtain ⟨hmnull, hnnull⟩ := ne_null_of_isFalse hfalse
  exact hD.not_isFalse (hequal hm hmnull) (hequal hn hnnull) hfalse

theorem not_differ_singleton (hD : D.EqualityIsEquivalence) (f : Expr) : ¬ D.Differ env [f] := by
  rintro ⟨m, hm, n, hn, h⟩
  obtain rfl := List.mem_singleton.1 hm
  obtain rfl := List.mem_singleton.1 hn
  exact not_isTrue_of_isFalse h (isTrue_equals.2 (hD.refl _ (ne_null_of_isFalse h).1))

theorem fails_of_consts (hD : D.EqualityIsEquivalence) (hdec : D.EqualityIsDecided)
    (hP : D.EquatesConstants P) {ms : List Expr} (hms : ∀ m ∈ ms, m.AllLabels (fun _ => True) P) {v : Value}
    {vs : List Value} (hconsts : ms.filterMap Expr.literal? = v :: vs) :
    ((Expr.equalities ms).Fails D env ↔ D.Differ env ms) ↔
      (Expr.equalities ms = .never → D.Differ env ms) := by
  have hmem {w : Value} : w ∈ v :: vs ↔ .literal w ∈ ms := by
    rw [← hconsts, List.mem_filterMap]
    simp only [Expr.literal?_eq_some, exists_eq_right]
  rw [Expr.equalities_of_consts hconsts]
  split_ifs with hbad hnone
  · exact ⟨fun h _ => h.1 trivial, fun h => iff_of_true trivial (h rfl)⟩
  all_goals
    have hequal := (constants_equal hD hP fun w hw => hms _ (hmem.1 hw)).1 (Bool.not_eq_true _ ▸ hbad)
    have hv : v ≠ .null := (D.ne_null_of_equal (hequal v List.mem_cons_self)).1
    have hdiffer (h : D.Differ env ms) := exists_differs_from_const hD hdec hv
      (fun w hw => isTrue_equals.2 (hequal w (hmem.2 hw))) h
    refine iff_of_true ⟨fun h => ?_, fun h => ?_⟩ nofun
  · cases h
  · obtain ⟨f, hf, -⟩ := hdiffer h
    rw [List.isEmpty_iff.1 hnone] at hf
    cases hf
  · obtain ⟨c, hc, hfalse⟩ := h
    obtain ⟨f, hf, rfl⟩ := List.mem_map.1 hc
    exact ⟨f, (List.mem_filter.1 hf).1, .literal v, hmem.1 List.mem_cons_self, hfalse⟩
  · obtain ⟨f, hf, hfalse⟩ := hdiffer h
    exact ⟨_, List.mem_map_of_mem hf, hfalse⟩

theorem fails_singleton (hD : D.EqualityIsEquivalence) {f : Expr} (hf : f.literal? = none) :
    ((Expr.equalities [f]).Fails D env ↔ D.Differ env [f]) ↔ D.value env f ≠ .null := by
  have hfails : (Expr.equalities [f]).Fails D env ↔ D.value env f = .null := by
    rw [Expr.equalities_singleton hf]
    simp only [Verdict.Fails, List.mem_singleton, exists_eq_left]
    exact isFalse_not_isNull
  rw [hfails, iff_false_right (not_differ_singleton hD f)]

theorem fails_of_fields (hD : D.EqualityIsEquivalence) (hdec : D.EqualityIsDecided) {f g : Expr}
    {fs : List Expr} (hfields : ∀ m ∈ f :: g :: fs, m.literal? = none) :
    ((Expr.equalities (f :: g :: fs)).Fails D env ↔ D.Differ env (f :: g :: fs)) ↔
      (D.value env f = .null → ¬ D.Differ env (f :: g :: fs)) := by
  have hfails : (Expr.equalities (f :: g :: fs)).Fails D env ↔ ∃ n ∈ g :: fs, D.IsFalse env (f.equals n) := by
    rw [Expr.equalities_of_fields hfields]
    simp only [Verdict.Fails, List.mem_map, exists_exists_and_eq_and]
  rw [hfails]
  by_cases hnull : D.value env f = .null
  · have hnone : ¬ ∃ n ∈ g :: fs, D.IsFalse env (f.equals n) := by
      rintro ⟨n, -, h⟩
      exact (ne_null_of_isFalse h).1 hnull
    rw [iff_false_left hnone]
    exact ⟨fun h _ => h, fun h => h hnull⟩
  · refine iff_of_true ⟨?_, exists_differs_from_first hD hdec hnull⟩ fun h => absurd h hnull
    rintro ⟨n, hn, h⟩
    exact ⟨f, List.mem_cons_self, n, List.mem_cons_of_mem f hn, h⟩

/-- The verdict is false just where two members differ, apart from the three cases. -/
theorem fails_iff_differ (hD : D.EqualityIsEquivalence) (hdec : D.EqualityIsDecided)
    (hP : D.EquatesConstants P) {ms : List Expr} (hms : ∀ m ∈ ms, m.AllLabels (fun _ => True) P) :
    ((Expr.equalities ms).Fails D env ↔ D.Differ env ms) ↔ D.ShowsDifferences env ms := by
  cases hconsts : ms.filterMap Expr.literal? with
  | cons v vs =>
    have hnot : ¬ ∀ m ∈ ms, m.literal? = none := by
      intro hfields
      rw [List.filterMap_eq_nil_iff.2 hfields] at hconsts
      cases hconsts
    rw [fails_of_consts hD hdec hP hms hconsts]
    refine ⟨fun h => ⟨h, ?_, fun _ _ _ hfields => absurd hfields hnot⟩, fun h => h.never⟩
    rintro f rfl hf
    exact absurd (fun m hm => List.mem_singleton.1 hm ▸ hf) hnot
  | nil =>
    have hfields : ∀ m ∈ ms, m.literal? = none := List.filterMap_eq_nil_iff.1 hconsts
    match ms with
    | [] =>
      have hnone : ¬ D.Differ env [] := fun ⟨m, hm, _⟩ => nomatch hm
      exact iff_of_true (iff_of_false id hnone) ⟨nofun, nofun, nofun⟩
    | [f] =>
      have hf := hfields f List.mem_cons_self
      rw [fails_singleton hD hf]
      refine ⟨fun h => ⟨?_, ?_, fun _ _ _ _ _ => not_differ_singleton hD f⟩, fun h => h.lone f rfl hf⟩
      · intro hnever
        rw [Expr.equalities_singleton hf] at hnever
        cases hnever
      · rintro _ ⟨⟩ -
        exact h
    | f :: g :: fs =>
      rw [fails_of_fields hD hdec hfields]
      refine ⟨fun h => ⟨?_, nofun, ?_⟩, fun h => h.first f (g :: fs) rfl hfields⟩
      · intro hnever
        rw [Expr.equalities_of_fields hfields] at hnever
        cases hnever
      · rintro _ _ ⟨⟩ -
        exact h

/-! ### Whole expressions -/

/-- What takes the place of an equality of several members has a truth value for its value. -/
theorem exists_value_toExpr (D : Dialect) (env : Assignment) (ms : List Expr) :
    ∃ t, D.value env (Expr.equalities ms).toExpr = .ofTruth t := by
  have hcond : ∀ c ∈ (Expr.equalities ms).remaining, c.isCondition = true := by
    intro c hc
    obtain ⟨l, r, rfl⟩ | ⟨f, rfl⟩ := Expr.mem_remaining_equalities hc <;> rfl
  cases h : Expr.equalities ms with
  | always => exact ⟨some true, rfl⟩
  | never => exact ⟨some false, rfl⟩
  | conditions cs =>
    rw [h, Verdict.remaining] at hcond
    show ∃ t, D.value env (Expr.conj cs) = .ofTruth t
    unfold Expr.conj
    split
    next c => exact D.value_of_isCondition env (hcond c List.mem_cons_self)
    next => exact ⟨_, rfl⟩

theorem KeepsTruth.value_eq {ms : List Expr} (h : D.KeepsTruth env ms) :
    D.value env (Expr.equalities ms).toExpr = D.value env (.allEqual ms) := by
  obtain ⟨t, ht⟩ := exists_value_toExpr D env ms
  obtain ⟨t', ht'⟩ : ∃ t, D.value env (.allEqual ms) = .ofTruth t := D.value_of_isCondition env rfl
  rw [KeepsTruth, ht, ht', Value.truth_ofTruth, Value.truth_ofTruth] at h
  rw [ht, ht', h]

/-- An expression keeps its value if the equalities that are replaced in it keep their truth values. -/
theorem value_expand {e : Expr} (h : ∀ ms ∈ e.replaced, D.KeepsTruth env ms) :
    D.value env e.expand = D.value env e := by
  have hlist {es : List Expr}
      (ih : ∀ e ∈ es, (∀ ms ∈ e.replaced, D.KeepsTruth env ms) → D.value env e.expand = D.value env e)
      (h : ∀ ms ∈ Expr.replaced.list es, D.KeepsTruth env ms) :
      value.list D env (Expr.expand.list es) = value.list D env es := by
    rw [Expr.replaced.list_eq_flatMap, List.forall_mem_flatMap] at h
    rw [value.list_eq_map, value.list_eq_map, Expr.expand.list_eq_map, List.map_map]
    exact List.map_congr_left fun e he => ih e he (h e he)
  induction e with
  | column c => rfl
  | literal v => rfl
  | compare op l r ihl ihr =>
    obtain ⟨hl, hr⟩ := List.forall_mem_append.1 h
    rw [Expr.expand, value, value, ihl hl, ihr hr]
  | rowEq l r ihl ihr =>
    obtain ⟨hl, hr⟩ := List.forall_mem_append.1 h
    rw [Expr.expand, value, value, hlist ihl hl, hlist ihr hr]
  | allEqual ms ih => exact (h ms List.mem_cons_self).value_eq
  | and args ih | or args ih | call f args t ih => rw [Expr.expand, value, value, hlist ih h]
  | not e ih | isNull e ih | cast e t ih | cached e ih => rw [Expr.expand, value, value, ih h]

theorem isTrue_not {e : Expr} : D.IsTrue env (.not e) ↔ D.IsFalse env e := by
  rw [IsTrue, IsFalse, value, Value.truth_ofTruth]
  rcases (D.value env e).truth with _ | _ | _ <;> simp

theorem isTrue_isNull {e : Expr} : D.IsTrue env (.isNull e) ↔ D.value env e = .null := by
  rw [IsTrue, value]
  simp [Value.truth, Value.isNull]

theorem isUnknown_iff {e : Expr} (h : ∃ t, D.value env e = .ofTruth t) :
    D.IsUnknown env e ↔ D.value env e = .null := by
  obtain ⟨t, ht⟩ := h
  rw [IsUnknown, ht, Value.truth_ofTruth]
  cases t <;> simp [Value.ofTruth]

theorem holds_simplify_not {e : Expr} :
    (Expr.not e).simplify.Holds D env ↔ D.IsTrue env (.not e.expand) := List.forall_mem_singleton

theorem holds_simplify_isNull {e : Expr} :
    (Expr.isNull e).simplify.Holds D env ↔ D.IsTrue env (.isNull e.expand) := List.forall_mem_singleton

/-- **When equalities of several members keep their meaning below negations and tests for NULL.** The
negation of an expression and its test for NULL are true of the same rows as before if each equality that is
replaced in the expression keeps its truth value. For an equality alone they are so only if it does. If
values other than NULL are equal or differ, it does just if what takes its place shows its differences. -/
theorem negation_exact (hD : D.EqualityIsEquivalence) (hP : D.EquatesConstants P) (env : Assignment) :
    (∀ e : Expr, (∀ ms ∈ e.replaced, D.KeepsTruth env ms) →
      ((Expr.not e).simplify.Holds D env ↔ D.IsTrue env (.not e)) ∧
      ((Expr.isNull e).simplify.Holds D env ↔ D.IsTrue env (.isNull e))) ∧
    ∀ ms : List Expr, (∀ m ∈ ms, m.AllLabels (fun _ => True) P) →
      (((Expr.not (.allEqual ms)).simplify.Holds D env ↔ D.IsTrue env (.not (.allEqual ms))) ↔
        D.KeepsTruth env ms) ∧
      (((Expr.isNull (.allEqual ms)).simplify.Holds D env ↔ D.IsTrue env (.isNull (.allEqual ms))) ↔
        D.KeepsTruth env ms) ∧
      (D.EqualityIsDecided → (D.KeepsTruth env ms ↔ D.ShowsDifferences env ms)) := by
  refine ⟨fun e he => ?_, fun ms hms => ⟨?_, ?_, fun hdec => ?_⟩⟩
  · have hvalue : D.value env e.expand = D.value env e := value_expand he
    rw [holds_simplify_not, holds_simplify_isNull, isTrue_not, isTrue_not, isTrue_isNull, isTrue_isNull,
      IsFalse, IsFalse, hvalue]
    exact ⟨Iff.rfl, Iff.rfl⟩
  · rw [holds_simplify_not, isTrue_not, isTrue_not, keepsTruth_iff hD hP hms]
    rfl
  · have hequality : ∃ t, D.value env (.allEqual ms) = .ofTruth t := D.value_of_isCondition env rfl
    rw [holds_simplify_isNull, isTrue_isNull, isTrue_isNull, keepsTruth_iff_unknown hD hP hms,
      isUnknown_iff (exists_value_toExpr D env ms), isUnknown_iff hequality]
    rfl
  · rw [keepsTruth_iff hD hP hms, isFalse_toExpr, isFalse_allEqual hD hdec, fails_iff_differ hD hdec hP hms]

theorem equalityIsDecided_byIdentity : byIdentity.EqualityIsDecided := by
  intro v w hv hw h
  simp [byIdentity, hv, hw] at h

/-- A row with `t0.x` NULL, `t1.x = 1`, `t2.x = 2` and so on. -/
def numbered : Assignment := fun c => if c.table = 0 then .null else .int (.ofNat c.table)

/-- `t1.x = 3 = t2.x OR t0.x IS NULL`. -/
def sampleChoice : Expr :=
  .or [.allEqual [sampleColumn 1, .literal (.int 3), sampleColumn 2], .isNull (sampleColumn 0)]

theorem negation_exact_sampleChoice :
    byIdentity.EqualityIsEquivalence ∧ byIdentity.EquatesConstants (· = .int 3) ∧
      byIdentity.EqualityIsDecided ∧
      (∀ ms ∈ sampleChoice.replaced, byIdentity.KeepsTruth numbered ms) ∧
      ((Expr.not sampleChoice).simplify.Holds byIdentity numbered ↔
        byIdentity.IsTrue numbered (.not sampleChoice)) ∧
      (let ms := [sampleColumn 1, .literal (.int 3), sampleColumn 2]
       (∀ m ∈ ms, m.AllLabels (fun _ => True) (· = .int 3)) ∧
        (((Expr.not (.allEqual ms)).simplify.Holds byIdentity numbered ↔
          byIdentity.IsTrue numbered (.not (.allEqual ms))) ↔ byIdentity.KeepsTruth numbered ms) ∧
        (byIdentity.KeepsTruth numbered ms ↔ byIdentity.ShowsDifferences numbered ms)) := by
  have hP : byIdentity.EquatesConstants (· = .int 3) := by
    rintro _ _ rfl rfl
    decide +kernel
  have hkept : ∀ ms ∈ sampleChoice.replaced, byIdentity.KeepsTruth numbered ms :=
    List.forall_mem_singleton.2 (by unfold KeepsTruth; decide +kernel)
  have hlabels : ∀ m ∈ [sampleColumn 1, .literal (.int 3), sampleColumn 2],
      m.AllLabels (fun _ => True) (· = .int 3) := by
    simp [sampleColumn, Expr.AllLabels]
  obtain ⟨hwhole, halone⟩ := negation_exact equalityIsEquivalence_byIdentity hP numbered
  obtain ⟨hnot, -, hshows⟩ := halone _ hlabels
  exact ⟨equalityIsEquivalence_byIdentity, hP, equalityIsDecided_byIdentity, hkept, (hwhole _ hkept).1,
    hlabels, hnot, hshows equalityIsDecided_byIdentity⟩

/-- In each of the three cases a negation is true of other rows than before: that of `t1.x = NULL`, that of
`t0.x` alone, which is NULL, and that of `t0.x = t1.x = t2.x`. The first two become true where they were
unknown, and the third becomes unknown where it was true. -/
theorem negation_changed :
    byIdentity.EqualityIsEquivalence ∧ byIdentity.EquatesConstants (· = .null) ∧
      (let e : Expr := .not (.allEqual [sampleColumn 1, .literal .null])
       e.simplify.Holds byIdentity numbered ∧ ¬ byIdentity.IsTrue numbered e) ∧
      (let e : Expr := .not (.allEqual [sampleColumn 0])
       e.simplify.Holds byIdentity numbered ∧ ¬ byIdentity.IsTrue numbered e) ∧
      (let e : Expr := .not (.allEqual [sampleColumn 0, sampleColumn 1, sampleColumn 2])
       ¬ e.simplify.Holds byIdentity numbered ∧ byIdentity.IsTrue numbered e) := by
  have hP : byIdentity.EquatesConstants (· = .null) := by
    rintro _ _ rfl rfl
    decide +kernel
  refine ⟨equalityIsEquivalence_byIdentity, hP, ⟨?_, ?_⟩, ⟨?_, ?_⟩, ?_, ?_⟩
  · exact holds_simplify_not.2 (by unfold IsTrue; decide +kernel)
  · unfold IsTrue
    decide +kernel
  · exact holds_simplify_not.2 (by unfold IsTrue; decide +kernel)
  · unfold IsTrue
    decide +kernel
  · exact fun h => absurd (holds_simplify_not.1 h) (by unfold IsTrue; decide +kernel)
  · unfold IsTrue
    decide +kernel

end Dialect

end QueryGraph
