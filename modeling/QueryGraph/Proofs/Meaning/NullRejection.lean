import QueryGraph.Proofs.Meaning.Dialect

/-!
# Rejecting NULL

When a condition is not true because all columns of a table are NULL.

`Expr.rejected` collects the tables on which an expression is said to reject NULL, by one recursion
for two different facts: that the value of an expression is NULL, and that a condition is not true.
Of a conjunction only the second holds: with one argument NULL and another one false it is false. So
a conjunction may be asked for its truth, but where its value is compared, the sets are too large.

## What is proved

* `rejection_exact` — conditions reject NULL as said if their operands are `Strict`: NULL themselves
  when a table that they are said to reject is. An operand that is set equal to the truth values and
  is a condition itself has to be strict, whichever of the three equalities it stands in. For other
  operands nothing is said of what is necessary.
* `not_rejectsRightly_sampleDenial` — a comparison of a conjunction with FALSE does not reject NULL.
-/

namespace QueryGraph

open BitSet

/-- All columns of the table are NULL. -/
def Assignment.NullAt (env : Assignment) (i : Nat) : Prop :=
  ∀ c : Column, i ∈ (Expr.column c).tables → env c = .null

namespace Expr

theorem mem_rejected_compare {i : Nat} {op : Comparison} {l r : Expr} :
    i ∈ (compare op l r).rejected ↔ op ≠ .nullSafeEq ∧ (i ∈ l.rejected ∨ i ∈ r.rejected) := by
  cases op <;> simp [rejected]

theorem mem_rejected_list {i : Nat} {es : List Expr} :
    i ∈ BitSet.unions (rejected.list es) ↔ ∃ e ∈ es, i ∈ e.rejected := by
  simp [rejected.list_eq_map]

/-- Whether the value of the expression is a truth value for its form. -/
def isCondition : Expr → Bool
  | compare _ _ _ => true
  | rowEq _ _ => true
  | allEqual _ => true
  | and _ => true
  | or _ => true
  | not _ => true
  | isNull _ => true
  | _ => false

end Expr

namespace Dialect

variable (D : Dialect)

/-- The condition is not true when a table that it is said to reject is NULL. -/
def RejectsRightly (e : Expr) : Prop :=
  ∀ (env : Assignment) (i : Nat), i ∈ e.rejected → env.NullAt i →
    (D.value env e).truth ≠ some true

/-- The value of the expression is NULL when a table that it is said to reject is. -/
def Strict (e : Expr) : Prop :=
  ∀ (env : Assignment) (i : Nat), i ∈ e.rejected → env.NullAt i → D.value env e = .null

/-- Casts to the type make nothing true that was not. -/
def KeepsUntrue (t : SqlType) : Prop :=
  ∀ v : Value, v.truth ≠ some true → (D.convert t v).truth ≠ some true

/-- Wherever the truth of a condition rests on the value of an expression, that expression is strict.
What is cast may also be a condition of this sort, if the cast makes nothing true. -/
inductive StrictOperands : Expr → Prop where
  /-- A column. -/
  | column (c : Column) : StrictOperands (.column c)
  /-- A constant. -/
  | literal (v : Value) : StrictOperands (.literal v)
  /-- A comparison made for NULL. -/
  | nullSafe (l r : Expr) : StrictOperands (.compare .nullSafeEq l r)
  /-- A comparison of strict operands. -/
  | compare (op : Comparison) {l r : Expr} : D.Strict l → D.Strict r →
    StrictOperands (.compare op l r)
  /-- An equality of rows of strict operands. -/
  | rowEq {l r : List Expr} : (∀ e ∈ l, D.Strict e) → (∀ e ∈ r, D.Strict e) →
    StrictOperands (.rowEq l r)
  /-- An equality of several strict operands. -/
  | allEqual {ms : List Expr} : (∀ e ∈ ms, D.Strict e) → StrictOperands (.allEqual ms)
  /-- A conjunction. -/
  | and {args : List Expr} : (∀ e ∈ args, StrictOperands e) → StrictOperands (.and args)
  /-- A disjunction. -/
  | or {args : List Expr} : (∀ e ∈ args, StrictOperands e) → StrictOperands (.or args)
  /-- A negation. -/
  | not (e : Expr) : StrictOperands (.not e)
  /-- A test for NULL. -/
  | isNull (e : Expr) : StrictOperands (.isNull e)
  /-- The value of a function. -/
  | call (f : String) (args : List Expr) (t : SqlType) : StrictOperands (.call f args t)
  /-- A cast of a strict expression. -/
  | cast {e : Expr} (t : SqlType) : D.Strict e → StrictOperands (.cast e t)
  /-- A cast of a condition. -/
  | castCondition {e : Expr} {t : SqlType} : D.KeepsUntrue t → StrictOperands e →
    StrictOperands (.cast e t)
  /-- An expression that is evaluated once. -/
  | cached {e : Expr} : StrictOperands e → StrictOperands (.cached e)

/-- Rows are equal only if no column of them is NULL. -/
theorem ne_null_of_rowEqualities {vs ws : List Value}
    (h : Truth.all (D.rowEqualities vs ws) = some true) :
    (∀ v ∈ vs, v ≠ .null) ∧ ∀ w ∈ ws, w ≠ .null := by
  rw [Truth.all_eq_true, rowEqualities] at h
  split at h
  next hlength =>
    induction vs generalizing ws with
    | nil =>
      obtain rfl := List.length_eq_zero_iff.1 hlength.symm
      exact ⟨nofun, nofun⟩
    | cons v vs ih =>
      cases ws with
      | nil => cases hlength
      | cons w ws =>
        rw [List.zipWith_cons_cons, List.forall_mem_cons] at h
        obtain ⟨hv, hw⟩ := D.ne_null_of_equal h.1
        obtain ⟨hvs, hws⟩ := ih (Nat.succ.inj hlength) h.2
        exact ⟨List.forall_mem_cons.2 ⟨hv, hvs⟩, List.forall_mem_cons.2 ⟨hw, hws⟩⟩
  next => exact absurd (h none (List.mem_singleton_self none)) nofun

/-- Members are equal only if none of them is NULL. -/
theorem ne_null_of_memberEqualities {vs : List Value}
    (h : Truth.all (D.memberEqualities vs) = some true) : ∀ v ∈ vs, v ≠ .null := by
  rw [Truth.all_eq_true] at h
  induction vs with
  | nil => exact nofun
  | cons v vs ih =>
    rw [memberEqualities, List.forall_mem_append] at h
    have hself := h.1 _ (List.mem_map_of_mem List.mem_cons_self)
    exact List.forall_mem_cons.2 ⟨(D.ne_null_of_equal hself).1, ih h.2⟩

theorem strict_literal (v : Value) : D.Strict (.literal v) := fun _ i hi =>
  absurd hi (not_mem_empty i)

theorem strict_column (c : Column) : D.Strict (.column c) := fun _ _ hi hnull => hnull c hi

/-- Conditions with strict operands reject NULL as said. -/
theorem rejectsRightly_of_strictOperands {e : Expr} (h : D.StrictOperands e) :
    D.RejectsRightly e := by
  have hmem {env : Assignment} {e : Expr} {es : List Expr} (he : e ∈ es) :
      D.value env e ∈ value.list D env es := by
    rw [value.list_eq_map]
    exact List.mem_map_of_mem he
  induction h with
  | column c =>
    intro env i hi hnull
    rw [value, hnull c hi]
    decide
  | compare op hl hr =>
    intro env i hi hnull htrue
    rw [value, Value.truth_ofTruth] at htrue
    obtain ⟨hop, hi | hi⟩ := Expr.mem_rejected_compare.1 hi
    · exact (D.ne_null_of_compare hop htrue).1 (hl env i hi hnull)
    · exact (D.ne_null_of_compare hop htrue).2 (hr env i hi hnull)
  | rowEq hl hr =>
    intro env i hi hnull htrue
    rw [value, Value.truth_ofTruth] at htrue
    obtain ⟨hvs, hws⟩ := D.ne_null_of_rowEqualities htrue
    rw [Expr.rejected, mem_union, Expr.mem_rejected_list, Expr.mem_rejected_list] at hi
    obtain ⟨e, he, hi⟩ | ⟨e, he, hi⟩ := hi
    · exact hvs _ (hmem he) (hl e he env i hi hnull)
    · exact hws _ (hmem he) (hr e he env i hi hnull)
  | allEqual hms =>
    intro env i hi hnull htrue
    rw [value, Value.truth_ofTruth] at htrue
    rw [Expr.rejected, Expr.mem_rejected_list] at hi
    obtain ⟨e, he, hi⟩ := hi
    exact D.ne_null_of_memberEqualities htrue _ (hmem he) (hms e he env i hi hnull)
  | and _ ih =>
    intro env i hi hnull htrue
    rw [value, Value.truth_ofTruth, Truth.all_eq_true] at htrue
    rw [Expr.rejected, Expr.mem_rejected_list] at hi
    obtain ⟨e, he, hi⟩ := hi
    exact ih e he env i hi hnull (htrue _ (List.mem_map_of_mem (hmem he)))
  | or _ ih =>
    intro env i hi hnull htrue
    rw [value, Value.truth_ofTruth, Truth.any_eq_true, value.list_eq_map, List.map_map] at htrue
    rw [Expr.rejected, Expr.rejected.list_eq_map, mem_intersections] at hi
    obtain ⟨e, he, htrue⟩ := List.mem_map.1 htrue
    exact ih e he env i (hi.2 _ (List.mem_map_of_mem he)) hnull htrue
  | cast t he =>
    intro env i hi hnull
    rw [value, he env i hi hnull, D.convert_null]
    decide
  | castCondition ht _ ih => exact fun env i hi hnull => ht _ (ih env i hi hnull)
  | cached _ ih => exact ih
  | _ => exact fun _ i hi => absurd hi (not_mem_empty i)

/-- The value of a condition is a truth value. -/
theorem value_of_isCondition (env : Assignment) {e : Expr} (h : e.isCondition = true) :
    ∃ t, D.value env e = .ofTruth t := by
  cases e with
  | isNull e => exact ⟨some _, rfl⟩
  | compare => exact ⟨_, rfl⟩
  | rowEq => exact ⟨_, rfl⟩
  | allEqual => exact ⟨_, rfl⟩
  | and => exact ⟨_, rfl⟩
  | or => exact ⟨_, rfl⟩
  | not => exact ⟨_, rfl⟩
  | _ => cases h

/-- A condition that is set equal to both truth values, in one form or another, is strict if these equalities
reject NULL as said. -/
theorem strict_of_equalities {o : Expr} (ho : o.isCondition = true) {equality : Bool → Expr}
    (hrejected : ∀ b i, i ∈ o.rejected → i ∈ (equality b).rejected)
    (htrue : ∀ env b, D.value env o = .bool b → (D.value env (equality b)).truth = some true)
    (h : ∀ b, D.RejectsRightly (equality b)) : D.Strict o := by
  intro env i hi hnull
  obtain ⟨t, ht⟩ := D.value_of_isCondition env ho
  cases t with
  | none => exact ht
  | some b => exact absurd (htrue env b ht) (h b env i (hrejected b i hi) hnull)

/-- **Conditions with strict operands reject NULL as said.** A condition is not true when a table that it is
said to reject is NULL, if the operands of its comparisons and equalities, and what it casts, are strict. Of
an operand that is a condition itself, no less will do where it is set equal to truth values: in a comparison,
an equality of rows and an equality of several members, NULL is rejected as said with both truth values just
if the operand is strict. -/
theorem rejection_exact :
    (∀ e, D.StrictOperands e → D.RejectsRightly e) ∧
      ∀ o : Expr, o.isCondition = true →
        ((∀ b, D.RejectsRightly (o.equals (.literal (.bool b)))) ↔ D.Strict o) ∧
        ((∀ b, D.RejectsRightly (.rowEq [o] [.literal (.bool b)])) ↔ D.Strict o) ∧
        ((∀ b, D.RejectsRightly (.allEqual [o, .literal (.bool b)])) ↔ D.Strict o) := by
  have hsuffices {e : Expr} (h : D.StrictOperands e) : D.RejectsRightly e :=
    D.rejectsRightly_of_strictOperands h
  have hconstant (b : Bool) : D.Strict (.literal (.bool b)) := D.strict_literal _
  refine ⟨fun e => hsuffices, fun o ho => ⟨⟨fun h => ?_, fun h b => ?_⟩, ⟨fun h => ?_, fun h b => ?_⟩,
    ⟨fun h => ?_, fun h b => ?_⟩⟩⟩
  · refine D.strict_of_equalities ho (fun b i hi => ?_) (fun env b hb => ?_) h
    · exact Expr.mem_rejected_compare.2 ⟨nofun, .inl hi⟩
    · rw [Expr.equals, value, Value.truth_ofTruth, hb, value]
      exact D.compare_self b
  · exact hsuffices (.compare .eq h (hconstant b))
  · refine D.strict_of_equalities ho (fun b i hi => ?_) (fun env b hb => ?_) h
    · exact mem_union.2 (.inl (Expr.mem_rejected_list.2 ⟨o, List.mem_cons_self, hi⟩))
    · rw [value, Value.truth_ofTruth, value.list_eq_map, value.list_eq_map]
      simp [rowEqualities, hb, value, D.compare_self, Truth.all_eq_true]
  · exact hsuffices (.rowEq (List.forall_mem_singleton.2 h) (List.forall_mem_singleton.2 (hconstant b)))
  · refine D.strict_of_equalities ho (fun b i hi => ?_) (fun env b hb => ?_) h
    · exact Expr.mem_rejected_list.2 ⟨o, List.mem_cons_self, hi⟩
    · rw [value, Value.truth_ofTruth, value.list_eq_map]
      simp [memberEqualities, hb, value, D.compare_self, Truth.all_eq_true]
  · exact hsuffices (.allEqual (List.forall_mem_cons.2 ⟨h, List.forall_mem_singleton.2 (hconstant b)⟩))

/-! ### A dialect -/

/-- The dialect that compares values as constants are compared, leaves casts as they are and knows no
functions. -/
def plain : Dialect where
  compare := Comparison.evaluate
  convert _ v := v
  call _ _ _ := .null
  compare_null_left op v hop := by
    rw [Comparison.evaluate, if_neg (by simp [hop])]
    cases v <;> rfl
  compare_null_right op v hop := by
    rw [Comparison.evaluate, if_neg (by simp [hop])]
    cases v <;> simp [Value.compare?, Value.number?]
  compare_self b := by cases b <;> decide +kernel
  convert_null _ := rfl

/-- A column of the table with the given number. -/
def sampleColumn (i : Nat) : Expr := .column ⟨i, "t", "x", .int⟩

/-- `t0.x < 1 AND (t1.x = t0.x OR t0.x > t1.x)`. -/
def sampleFilter : Expr :=
  .and [.compare .lt (sampleColumn 0) (.literal (.int 1)),
    .or [(sampleColumn 1).equals (sampleColumn 0),
      .compare .gt (sampleColumn 0) (sampleColumn 1)]]

/-- `t0.x = t1.x`. -/
def sampleMatch : Expr := (sampleColumn 0).equals (sampleColumn 1)

theorem rejection_exact_sampleFilter :
    plain.StrictOperands sampleFilter ∧ plain.RejectsRightly sampleFilter ∧
      sampleMatch.isCondition = true ∧
      ((∀ b, plain.RejectsRightly (sampleMatch.equals (.literal (.bool b)))) ↔ plain.Strict sampleMatch) ∧
      ((∀ b, plain.RejectsRightly (.rowEq [sampleMatch] [.literal (.bool b)])) ↔ plain.Strict sampleMatch) ∧
      ((∀ b, plain.RejectsRightly (.allEqual [sampleMatch, .literal (.bool b)])) ↔
        plain.Strict sampleMatch) := by
  have hstrict : plain.StrictOperands sampleFilter := by
    have hx (i : Nat) : plain.Strict (sampleColumn i) := plain.strict_column _
    refine .and (List.forall_mem_cons.2 ⟨.compare _ (hx 0) (plain.strict_literal _),
      List.forall_mem_cons.2 ⟨.or ?_, nofun⟩⟩)
    exact List.forall_mem_cons.2 ⟨.compare _ (hx 1) (hx 0),
      List.forall_mem_cons.2 ⟨.compare _ (hx 0) (hx 1), nofun⟩⟩
  exact ⟨hstrict, plain.rejection_exact.1 _ hstrict, rfl, plain.rejection_exact.2 _ rfl⟩

/-- `(t0.x AND t1.x) = FALSE`. -/
def sampleDenial : Expr := (Expr.and [sampleColumn 0, sampleColumn 1]).equals .never

/-- With `t0.x` NULL and `t1.x` false, the conjunction is false, so this comparison is true. -/
theorem not_rejectsRightly_sampleDenial :
    0 ∈ sampleDenial.rejected ∧ ¬ plain.RejectsRightly sampleDenial := by
  let env : Assignment := fun c => if c.table % 64 = 0 then .null else .bool false
  have hmem : 0 ∈ sampleDenial.rejected := by decide
  have hnull : env.NullAt 0 := fun c hc => by
    rw [Expr.tables, ← singleton_mod, mem_singleton (Nat.mod_lt _ (by decide))] at hc
    exact if_pos hc.symm
  have htrue : (plain.value env sampleDenial).truth = some true := by decide +kernel
  exact ⟨hmem, fun h => h env 0 hmem hnull htrue⟩

end Dialect

end QueryGraph
