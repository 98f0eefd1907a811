import QueryGraph.Proofs.Equalities.Occurrences
import QueryGraph.Proofs.Meaning.NullRejection

/-!
# Plain equalities are true of the same rows

A list of conditions keeps the rows that it keeps when its equalities of several members are replaced by
plain ones.

Three things have to be known of a dialect for that. Equality of values other than NULL is an equivalence,
since members are compared with one of them instead of with each other. Constants compare as the program
compares them, since the program decides some comparisons itself. And an equality of several members is
replaced only below conjunctions and disjunctions: what takes its place is true of the same rows, but need
not be unknown where it was, which would show under a negation.

## What is proved

* `isTrue_allEqual` — an equality of several members is true if none is NULL and each two are equal.
* `holds_equalities` — the verdict on it.
* `holds_simplify`, `isTrue_expand` — the verdict on a condition, and its expanded form.
* `simplifyAll_keeps_rows` — the rows that a list of conditions keeps.
-/

namespace QueryGraph

namespace Expr

/-- Each equality of several members that is replaced when the expression is expanded stands below
conjunctions and disjunctions only. -/
def expandsPositively : Expr → Bool
  | allEqual _ => true
  | and args => list args
  | or args => list args
  | e => e.plain
where
  /-- The same for every expression of a list. -/
  list : List Expr → Bool
    | [] => true
    | e :: es => e.expandsPositively && list es

/-- Each equality of several members that is replaced when the condition is simplified stands below
conjunctions and disjunctions only. -/
def simplifiesPositively : Expr → Bool
  | and args => list args
  | compare _ _ _ => true
  | e => e.expandsPositively
where
  /-- The same for every condition of a list. -/
  list : List Expr → Bool
    | [] => true
    | e :: es => e.simplifiesPositively && list es

@[simp] theorem expandsPositively.list_iff {es : List Expr} :
    list es = true ↔ ∀ e ∈ es, e.expandsPositively = true := by
  induction es with
  | nil => simp [list]
  | cons e es ih => simp [list, ih]

@[simp] theorem simplifiesPositively.list_iff {es : List Expr} :
    list es = true ↔ ∀ e ∈ es, e.simplifiesPositively = true := by
  induction es with
  | nil => simp [list]
  | cons e es ih => simp [list, ih]

end Expr

namespace Dialect

variable (D : Dialect) (env : Assignment)

/-- The expression is true of a row, as a condition. -/
def IsTrue (e : Expr) : Prop := (D.value env e).truth = some true

/-- Equality of values other than NULL is an equivalence. -/
structure EqualityIsEquivalence : Prop where
  /-- A value equals itself. -/
  refl : ∀ v, v ≠ .null → D.compare .eq v v = some true
  /-- The order of the sides does not matter. -/
  symm : ∀ v w, D.compare .eq v w = some true → D.compare .eq w v = some true
  /-- What equals the same value is equal. -/
  trans : ∀ u v w, D.compare .eq u v = some true → D.compare .eq v w = some true →
    D.compare .eq u w = some true

/-- Constants that are as `P` says compare as the program compares them. -/
def ComparesConstants (P : Value → Prop) : Prop :=
  ∀ op v w, P v → P w → D.compare op v w = op.evaluate v w

/-- Constants that are as `P` says are equal where the program finds them equal. -/
def EquatesConstants (P : Value → Prop) : Prop :=
  ∀ v w, P v → P w → D.compare .eq v w = Comparison.eq.evaluate v w

variable {D env}

/-! ### Connectives -/

theorem isTrue_and {args : List Expr} : D.IsTrue env (.and args) ↔ ∀ e ∈ args, D.IsTrue env e := by
  rw [IsTrue, value, Value.truth_ofTruth, Truth.all_eq_true, value.list_eq_map, List.map_map,
    List.forall_mem_map]
  rfl

theorem isTrue_or {args : List Expr} : D.IsTrue env (.or args) ↔ ∃ e ∈ args, D.IsTrue env e := by
  rw [IsTrue, value, Value.truth_ofTruth, Truth.any_eq_true, value.list_eq_map, List.map_map,
    List.mem_map]
  rfl

theorem isTrue_conj {es : List Expr} : D.IsTrue env (.conj es) ↔ ∀ e ∈ es, D.IsTrue env e := by
  unfold Expr.conj
  split
  next e => rw [List.forall_mem_singleton]
  next => exact isTrue_and

theorem isTrue_compare {op : Comparison} {l r : Expr} : D.IsTrue env (.compare op l r) ↔
    D.compare op (D.value env l) (D.value env r) = some true := by
  rw [IsTrue, value, Value.truth_ofTruth]

theorem isTrue_equals {l r : Expr} : D.IsTrue env (l.equals r) ↔
    D.compare .eq (D.value env l) (D.value env r) = some true := isTrue_compare

theorem isTrue_not_isNull {e : Expr} : D.IsTrue env (.not (.isNull e)) ↔ D.value env e ≠ .null := by
  rw [IsTrue, value, value, Value.truth_ofTruth]
  simp [Value.truth, Value.isNull]

theorem isTrue_always : D.IsTrue env .always := rfl

theorem not_isTrue_never : ¬ D.IsTrue env .never := nofun

/-! ### Equalities of several members -/

theorem EqualityIsEquivalence.equals_symm (hD : D.EqualityIsEquivalence) {l r : Expr}
    (h : D.IsTrue env (l.equals r)) : D.IsTrue env (r.equals l) :=
  isTrue_equals.2 (hD.symm _ _ (isTrue_equals.1 h))

theorem EqualityIsEquivalence.equals_trans (hD : D.EqualityIsEquivalence) {l m r : Expr}
    (h : D.IsTrue env (l.equals m)) (h' : D.IsTrue env (m.equals r)) : D.IsTrue env (l.equals r) :=
  isTrue_equals.2 (hD.trans _ _ _ (isTrue_equals.1 h) (isTrue_equals.1 h'))

theorem memberEqualities_true {vs : List Value} :
    (∀ t ∈ D.memberEqualities vs, t = some true) ↔
      (∀ v ∈ vs, D.compare .eq v v = some true) ∧
        vs.Pairwise fun v w => D.compare .eq v w = some true := by
  induction vs with
  | nil => simp [memberEqualities]
  | cons v vs ih =>
    rw [memberEqualities, List.forall_mem_append, ih, List.map_cons, List.forall_mem_cons,
      List.forall_mem_map, List.forall_mem_cons, List.pairwise_cons]
    exact and_and_and_comm

/-- An equality of several members is true if none of them is NULL and each two are equal. -/
theorem isTrue_allEqual (hD : D.EqualityIsEquivalence) {ms : List Expr} :
    D.IsTrue env (.allEqual ms) ↔ (∀ m ∈ ms, D.value env m ≠ .null) ∧
      ms.Pairwise fun m n => D.IsTrue env (m.equals n) := by
  have hself (v : Value) : D.compare .eq v v = some true ↔ v ≠ .null :=
    ⟨fun h => (D.ne_null_of_equal h).1, hD.refl v⟩
  simp only [IsTrue, value, Value.truth_ofTruth, Truth.all_eq_true, memberEqualities_true,
    value.list_eq_map, List.forall_mem_map, List.pairwise_map, hself, Expr.equals]

/-- It is enough to compare every member with one of them. -/
theorem isTrue_allEqual_iff_of_mem (hD : D.EqualityIsEquivalence) {ms : List Expr} {n : Expr}
    (hn : n ∈ ms) : D.IsTrue env (.allEqual ms) ↔ ∀ m ∈ ms, D.IsTrue env (m.equals n) := by
  rw [isTrue_allEqual hD]
  constructor
  · rintro ⟨hnull, hpairs⟩ m hm
    have hself (m : Expr) (hm : m ∈ ms) : D.IsTrue env (m.equals m) :=
      isTrue_equals.2 (hD.refl _ (hnull m hm))
    have : Std.Symm fun m n : Expr => D.IsTrue env (m.equals n) := ⟨fun _ _ => hD.equals_symm⟩
    exact hpairs.forall_of_forall hself hm hn
  · intro h
    refine ⟨fun m hm => (D.ne_null_of_equal (isTrue_equals.1 (h m hm))).1, ?_⟩
    exact List.pairwise_of_forall_mem_list fun m hm m' hm' =>
      hD.equals_trans (h m hm) (hD.equals_symm (h m' hm'))

end Dialect

/-! ### Verdicts -/

/-- What a verdict says of a row. -/
def Verdict.Holds (D : Dialect) (env : Assignment) : Verdict → Prop
  | always => True
  | never => False
  | conditions cs => ∀ c ∈ cs, D.IsTrue env c

namespace Dialect

variable {D : Dialect} {env : Assignment}

theorem holds_ofTruth {t : Option Bool} : (Verdict.ofTruth t).Holds D env ↔ t = some true := by
  rw [Verdict.ofTruth]
  split
  next h => exact iff_of_true trivial h
  next h => exact iff_of_false id h

theorem holds_and (v w : Verdict) : (v.and w).Holds D env ↔ v.Holds D env ∧ w.Holds D env := by
  cases v <;> cases w <;> simp [Verdict.and, Verdict.Holds, or_imp, forall_and]

theorem isTrue_toExpr (v : Verdict) : D.IsTrue env v.toExpr ↔ v.Holds D env := by
  cases v with
  | always => exact iff_of_true isTrue_always trivial
  | never => exact iff_of_false not_isTrue_never id
  | conditions cs => exact isTrue_conj

theorem holds_iff_remaining {v : Verdict} (h : v ≠ .never) :
    v.Holds D env ↔ ∀ c ∈ v.remaining, D.IsTrue env c := by
  cases v with
  | always => simp [Verdict.Holds, Verdict.remaining]
  | never => exact absurd rfl h
  | conditions cs => rfl

variable {P : Value → Prop}

theorem ComparesConstants.equates (h : D.ComparesConstants P) : D.EquatesConstants P := h .eq

/-- The constants among the members are equal just if the program finds the first one equal to the others
and not NULL. -/
theorem constants_equal (hD : D.EqualityIsEquivalence) (hP : D.EquatesConstants P) {v : Value}
    {vs : List Value} (hvs : ∀ w ∈ v :: vs, P w) :
    (v.isNull || vs.any fun w => Comparison.eq.evaluate v w ≠ some true) = false ↔
      ∀ w ∈ v :: vs, D.compare .eq w v = some true := by
  have hv := hvs v List.mem_cons_self
  have hself : v.isNull = false ↔ D.compare .eq v v = some true := by
    rw [Value.isNull, decide_eq_false_iff_not]
    exact ⟨hD.refl v, fun h => (D.ne_null_of_equal h).1⟩
  have hother {w : Value} (hw : w ∈ vs) :
      Comparison.eq.evaluate v w = some true ↔ D.compare .eq w v = some true := by
    rw [← hP v w hv (hvs w (List.mem_cons_of_mem v hw))]
    exact ⟨hD.symm v w, hD.symm w v⟩
  simp +contextual only [Bool.or_eq_false_iff, hself, List.any_eq_false, decide_eq_true_eq, ne_eq,
    not_not, hother, List.forall_mem_cons]

/-- Where a constant is among the members, the other constants have to equal the first one, and every
other member has to equal it, too. -/
theorem isTrue_allEqual_of_consts (hD : D.EqualityIsEquivalence) (hP : D.EquatesConstants P)
    {ms : List Expr} (hms : ∀ m ∈ ms, m.AllLabels (fun _ => True) P) {v : Value} {vs : List Value}
    (hconsts : ms.filterMap Expr.literal? = v :: vs) : D.IsTrue env (.allEqual ms) ↔
      (v.isNull || vs.any fun w => Comparison.eq.evaluate v w ≠ some true) = false ∧
        ∀ f ∈ ms.filter fun m => m.literal?.isNone, D.IsTrue env (f.equals (.literal v)) := by
  have hmem {w : Value} (hw : w ∈ v :: vs) : .literal w ∈ ms := by
    obtain ⟨m, hm, hw⟩ := List.mem_filterMap.1 (hconsts ▸ hw)
    exact Expr.literal?_eq_some.1 hw ▸ hm
  have hvs : ∀ w ∈ v :: vs, P w := fun w hw => hms _ (hmem hw)
  rw [isTrue_allEqual_iff_of_mem hD (hmem List.mem_cons_self), Expr.forall_mem_iff_consts_fields,
    hconsts, constants_equal hD hP hvs]
  exact and_congr_left fun _ => forall₂_congr fun w _ => isTrue_equals

/-- Where no constant is among the members, the others have to equal the first one. -/
theorem isTrue_allEqual_of_fields (hD : D.EqualityIsEquivalence) {ms : List Expr} {f : Expr}
    {fs : List Expr} (hconsts : ms.filterMap Expr.literal? = [])
    (hfields : (ms.filter fun m => m.literal?.isNone) = f :: fs) :
    D.IsTrue env (.allEqual ms) ↔ ∀ g ∈ f :: fs, D.IsTrue env (g.equals f) := by
  have hf : f ∈ ms := (List.mem_filter.1 (hfields ▸ List.mem_cons_self)).1
  rw [isTrue_allEqual_iff_of_mem hD hf, Expr.forall_mem_iff_consts_fields, hconsts, hfields,
    and_iff_right nofun]

/-- The verdict on an equality of several members is right. -/
theorem holds_equalities (hD : D.EqualityIsEquivalence) (hP : D.EquatesConstants P) {ms : List Expr}
    (hms : ∀ m ∈ ms, m.AllLabels (fun _ => True) P) :
    (Expr.equalities ms).Holds D env ↔ D.IsTrue env (.allEqual ms) := by
  rw [Expr.equalities]
  cases hconsts : ms.filterMap Expr.literal? with
  | cons v vs =>
    rw [isTrue_allEqual_of_consts hD hP hms hconsts]
    dsimp only
    split_ifs with hbad hnone
    · exact iff_of_false id fun h => Bool.noConfusion (hbad.symm.trans h.1)
    · rw [List.isEmpty_iff.1 hnone, and_iff_left (List.forall_mem_nil _)]
      exact iff_of_true trivial (Bool.not_eq_true _ ▸ hbad)
    · rw [and_iff_right (Bool.not_eq_true _ ▸ hbad)]
      exact List.forall_mem_map
  | nil =>
    cases hfields : ms.filter fun m => m.literal?.isNone with
    | nil =>
      have hnone : ∀ m ∈ ms, False :=
        Expr.forall_mem_iff_consts_fields.2 (by simp [hconsts, hfields])
      rw [List.eq_nil_iff_forall_not_mem.2 hnone]
      exact iff_of_true trivial ((isTrue_allEqual hD).2 ⟨List.forall_mem_nil _, .nil⟩)
    | cons f fs =>
      rw [isTrue_allEqual_of_fields hD hconsts hfields]
      cases fs with
      | nil =>
        rw [List.forall_mem_singleton, isTrue_equals]
        refine List.forall_mem_singleton.trans (isTrue_not_isNull.trans ?_)
        exact ⟨hD.refl _, fun h => (D.ne_null_of_equal h).1⟩
      | cons g fs =>
        refine List.forall_mem_map.trans ⟨fun h => ?_, fun h m hm => ?_⟩
        · have hfirst := hD.equals_trans (h g List.mem_cons_self)
            (hD.equals_symm (h g List.mem_cons_self))
          exact List.forall_mem_cons.2 ⟨hfirst, fun m hm => hD.equals_symm (h m hm)⟩
        · exact hD.equals_symm (h m (List.mem_cons_of_mem f hm))

/-! ### Conditions -/

/-- A condition is true of the rows that its expanded form is true of, if equalities of several members are
replaced below conjunctions and disjunctions only. -/
theorem isTrue_expand (hD : D.EqualityIsEquivalence) (hP : D.ComparesConstants P) {e : Expr}
    (he : e.AllLabels (fun _ => True) P) (hpos : e.expandsPositively = true) :
    D.IsTrue env e.expand ↔ D.IsTrue env e := by
  induction e with
  | allEqual ms ih =>
    rw [Expr.expand, isTrue_toExpr]
    exact holds_equalities hD hP.equates (Expr.AllLabels.list_iff.1 he)
  | and args ih =>
    rw [Expr.expand, isTrue_and, isTrue_and, Expr.expand.list_eq_map, List.forall_mem_map]
    exact forall₂_congr fun e hmem => ih e hmem (Expr.AllLabels.list_iff.1 he e hmem)
      (Expr.expandsPositively.list_iff.1 hpos e hmem)
  | or args ih =>
    simp only [Expr.expand, isTrue_or, Expr.expand.list_eq_map, List.mem_map, exists_exists_and_eq_and]
    exact exists_congr fun e => and_congr_right fun hmem => ih e hmem
      (Expr.AllLabels.list_iff.1 he e hmem) (Expr.expandsPositively.list_iff.1 hpos e hmem)
  | _ => rw [Expr.expand_eq_self hpos]

/-- The verdict on a condition is right, if equalities of several members are replaced below conjunctions
and disjunctions only. -/
theorem holds_simplify (hD : D.EqualityIsEquivalence) (hP : D.ComparesConstants P) {c : Expr}
    (hc : c.AllLabels (fun _ => True) P) (hpos : c.simplifiesPositively = true) :
    c.simplify.Holds D env ↔ D.IsTrue env c := by
  have hatom {e : Expr} (he : e.AllLabels (fun _ => True) P) (hpos : e.expandsPositively = true) :
      (Verdict.conditions [e.expand]).Holds D env ↔ D.IsTrue env e :=
    List.forall_mem_singleton.trans (isTrue_expand hD hP he hpos)
  induction c with
  | allEqual ms ih => exact holds_equalities hD hP.equates (Expr.AllLabels.list_iff.1 hc)
  | and args ih =>
    rw [Expr.simplify, isTrue_and]
    rw [Expr.AllLabels, Expr.AllLabels.list_iff] at hc
    rw [Expr.simplifiesPositively, Expr.simplifiesPositively.list_iff] at hpos
    induction args with
    | nil => simp [Expr.simplify.list, Verdict.Holds]
    | cons e es ihes =>
      rw [List.forall_mem_cons] at hc hpos
      rw [Expr.simplify.list, holds_and, List.forall_mem_cons]
      exact and_congr (ih e List.mem_cons_self hc.1 hpos.1)
        (ihes (fun d hd => ih d (List.mem_cons_of_mem e hd)) hc.2 hpos.2)
  | literal v => exact holds_ofTruth
  | compare op l r ihl ihr =>
    rw [Expr.simplify_compare]
    split
    next v w hl hr =>
      rw [Expr.literal?_eq_some] at hl hr
      subst hl hr
      rw [holds_ofTruth, isTrue_compare]
      exact (congrArg (· = some true) (hP op v w hc.1 hc.2).symm).to_iff
    next => exact List.forall_mem_singleton
  | _ => exact hatom hc hpos

/-- **Simplifying conditions keeps the same rows.** The conditions of a list are all true of a row just if
those of the simplified list are, if equality is an equivalence and agrees with the program on the constants
of the list, and equalities of several members are replaced below conjunctions and disjunctions only. -/
theorem simplifyAll_keeps_rows (hD : D.EqualityIsEquivalence) (hP : D.ComparesConstants P)
    {conds : List Expr} (hconds : ∀ c ∈ conds, c.AllLabels (fun _ => True) P)
    (hpos : ∀ c ∈ conds, c.simplifiesPositively = true) (env : Assignment) :
    (∀ c ∈ conds, D.IsTrue env c) ↔ ∀ c ∈ Expr.simplifyAll conds, D.IsTrue env c := by
  have hverdict {c : Expr} (hc : c ∈ conds) : c.simplify.Holds D env ↔ D.IsTrue env c :=
    holds_simplify hD hP (hconds c hc) (hpos c hc)
  rw [Expr.simplifyAll]
  split
  next h =>
    obtain ⟨c, hc, hnever⟩ := Expr.contradictory_iff.1 h
    have hfalse : ¬ D.IsTrue env c := fun h => by
      rw [← hverdict hc, hnever] at h
      exact h
    rw [List.forall_mem_singleton]
    exact iff_of_false (fun h => hfalse (h c hc)) not_isTrue_never
  next h =>
    rw [List.forall_mem_flatMap]
    refine forall₂_congr fun c hc => (hverdict hc).symm.trans (holds_iff_remaining ?_)
    exact fun hnever => h (Expr.contradictory_iff.2 ⟨c, hc, hnever⟩)

/-- The dialect in which a value equals itself and nothing else, and the other comparisons are made as
those of constants. -/
def byIdentity : Dialect where
  compare op v w :=
    if op = .eq then if v = .null ∨ w = .null then none else some (v = w) else plain.compare op v w
  convert := plain.convert
  call := plain.call
  compare_null_left op v hop := by
    split
    · exact if_pos (.inl rfl)
    · exact plain.compare_null_left op v hop
  compare_null_right op v hop := by
    split
    · exact if_pos (.inr rfl)
    · exact plain.compare_null_right op v hop
  compare_self b := by cases b <;> rfl
  convert_null := plain.convert_null

theorem equal_byIdentity {v w : Value} :
    byIdentity.compare .eq v w = some true ↔ v ≠ .null ∧ v = w := by
  simp only [byIdentity, if_true]
  split_ifs with h
  · refine iff_of_false nofun fun hvw => ?_
    obtain rfl | rfl := h
    · exact hvw.1 rfl
    · exact hvw.1 hvw.2
  · rw [Option.some.injEq, decide_eq_true_iff]
    exact (and_iff_right (not_or.1 h).1).symm

theorem equalityIsEquivalence_byIdentity : byIdentity.EqualityIsEquivalence where
  refl _ hv := equal_byIdentity.2 ⟨hv, rfl⟩
  symm v w h := by
    obtain ⟨hv, rfl⟩ := equal_byIdentity.1 h
    exact h
  trans u v w h h' := by
    obtain ⟨-, rfl⟩ := equal_byIdentity.1 h
    exact h'

/-- `t0.x = 3 = t1.x`, `t0.x = t1.x = t2.x OR (3 = NULL AND t2.x IS NULL)` and `3 < 4`. -/
def sampleEqualities : List Expr :=
  [.allEqual [sampleColumn 0, .literal (.int 3), sampleColumn 1],
    .or [.allEqual [sampleColumn 0, sampleColumn 1, sampleColumn 2],
      .and [.allEqual [.literal (.int 3), .literal .null], .isNull (sampleColumn 2)]],
    .compare .lt (.literal (.int 3)) (.literal (.int 4))]

theorem simplifyAll_keeps_rows_sample :
    byIdentity.EqualityIsEquivalence ∧
      byIdentity.ComparesConstants (· ∈ [.int 3, .int 4, .null]) ∧
      (∀ c ∈ sampleEqualities, c.AllLabels (fun _ => True) (· ∈ [.int 3, .int 4, .null])) ∧
      (∀ c ∈ sampleEqualities, c.simplifiesPositively = true) ∧
      ∀ env, (∀ c ∈ sampleEqualities, byIdentity.IsTrue env c) ↔
        ∀ c ∈ Expr.simplifyAll sampleEqualities, byIdentity.IsTrue env c := by
  have hP : byIdentity.ComparesConstants (· ∈ [.int 3, .int 4, .null]) := by
    intro op v w hv hw
    simp only [List.mem_cons, List.not_mem_nil, or_false] at hv hw
    cases op <;> rcases hv with rfl | rfl | rfl <;> rcases hw with rfl | rfl | rfl <;> decide +kernel
  have hlabels : ∀ c ∈ sampleEqualities, c.AllLabels (fun _ => True) (· ∈ [.int 3, .int 4, .null]) := by
    simp [sampleEqualities, sampleColumn, Expr.AllLabels]
  have hpos : ∀ c ∈ sampleEqualities, c.simplifiesPositively = true := by decide
  exact ⟨equalityIsEquivalence_byIdentity, hP, hlabels, hpos,
    simplifyAll_keeps_rows equalityIsEquivalence_byIdentity hP hlabels hpos⟩

example : Expr.simplifyAll sampleEqualities =
    [(sampleColumn 0).equals (.literal (.int 3)), (sampleColumn 1).equals (.literal (.int 3)),
      .or [.and [(sampleColumn 0).equals (sampleColumn 1), (sampleColumn 0).equals (sampleColumn 2)],
        .and [.never, .isNull (sampleColumn 2)]]] := by
  rfl

end Dialect

end QueryGraph
