import QueryGraph.Proofs.Meaning.Truth

/-!
# The values of expressions

What an expression evaluates to, once every column has a value.

## The model

A `Dialect` of SQL says how values compare, how they are brought to other types and what functions
return. Of that, only what all dialects have in common is laid down: a comparison with NULL is
unknown unless it is the one made for NULL, a cast lets NULL pass, and a truth value equals itself.

Conjunction, disjunction and negation follow Kleene's logic. Equality of rows and of several members
are conjunctions of equalities. Members are compared with themselves, too: a member equals itself
unless it is NULL. Rows of different lengths do not compare.

## What is proved

* `truth_compare_null` — an ordinary comparison with NULL is not true.
* `meaning` — the truth of conditions under a dialect depends on the tables that they read, so that
  it is a meaning in the sense of `Meaning`.
-/

namespace QueryGraph

open BitSet

/-- The value of a truth value. -/
def Value.ofTruth : Option Bool → Value
  | some b => .bool b
  | none => .null

@[simp] theorem Value.truth_ofTruth (t : Option Bool) : (Value.ofTruth t).truth = t := by
  cases t <;> rfl

/-- What SQL leaves to its dialects. -/
structure Dialect where
  /-- What a comparison says of two values. -/
  compare : Comparison → Value → Value → Option Bool
  /-- A value brought to a type. -/
  convert : SqlType → Value → Value
  /-- What a function returns for its arguments, as a value of a type. -/
  call : String → List Value → SqlType → Value
  /-- An ordinary comparison is unknown when its left side is NULL. -/
  compare_null_left : ∀ op v, op ≠ .nullSafeEq → compare op .null v = none
  /-- An ordinary comparison is unknown when its right side is NULL. -/
  compare_null_right : ∀ op v, op ≠ .nullSafeEq → compare op v .null = none
  /-- A truth value equals itself. -/
  compare_self : ∀ b, compare .eq (.bool b) (.bool b) = some true
  /-- A cast lets NULL pass. -/
  convert_null : ∀ t, convert t .null = .null

/-- The value of every column. -/
abbrev Assignment := Column → Value

namespace Dialect

variable (D : Dialect)

/-- The equalities between the values of two rows, column by column. -/
def rowEqualities (vs ws : List Value) : List (Option Bool) :=
  if vs.length = ws.length then List.zipWith (D.compare .eq) vs ws else [none]

/-- The equalities of every member with itself and with those after it. -/
def memberEqualities : List Value → List (Option Bool)
  | [] => []
  | v :: vs => (v :: vs).map (D.compare .eq v) ++ memberEqualities vs

/-- The value of an expression. -/
def value (env : Assignment) : Expr → Value
  | .column c => env c
  | .literal v => v
  | .compare op l r => .ofTruth (D.compare op (value env l) (value env r))
  | .rowEq l r => .ofTruth (Truth.all (D.rowEqualities (list l) (list r)))
  | .allEqual ms => .ofTruth (Truth.all (D.memberEqualities (list ms)))
  | .and args => .ofTruth (Truth.all ((list args).map Value.truth))
  | .or args => .ofTruth (Truth.any ((list args).map Value.truth))
  | .not e => .ofTruth ((value env e).truth.map (!·))
  | .isNull e => .bool (value env e).isNull
  | .call f args t => D.call f (list args) t
  | .cast e t => D.convert t (value env e)
  | .cached e => value env e
where
  /-- The values of the expressions of a list. -/
  list : List Expr → List Value
    | [] => []
    | e :: es => value env e :: list es

theorem value.list_eq_map (env : Assignment) (es : List Expr) :
    value.list D env es = es.map (D.value env) := by
  induction es with
  | nil => rfl
  | cons e es ih => rw [value.list, ih, List.map_cons]

/-- An ordinary comparison is true only if neither side is NULL. -/
theorem ne_null_of_compare {op : Comparison} {v w : Value} (hop : op ≠ .nullSafeEq)
    (h : D.compare op v w = some true) : v ≠ .null ∧ w ≠ .null := by
  constructor
  · rintro rfl
    rw [D.compare_null_left op w hop] at h
    cases h
  · rintro rfl
    rw [D.compare_null_right op v hop] at h
    cases h

theorem ne_null_of_equal {v w : Value} (h : D.compare .eq v w = some true) :
    v ≠ .null ∧ w ≠ .null := D.ne_null_of_compare (by decide) h

/-! ### Records -/

/-- The columns of a row. The records of a table say what its columns are; those of a table that the
row takes nothing from are NULL. -/
def columnsOf (a : Row Assignment) : Assignment := fun c =>
  match a (c.table % 64) with
  | some r => r c
  | none => .null

theorem mod_mem_tables (c : Column) : c.table % 64 ∈ (Expr.column c).tables := by
  rw [Expr.tables, ← singleton_mod]
  exact (mem_singleton (Nat.mod_lt _ (by decide))).2 rfl

/-- The value of an expression depends on the tables that it reads. -/
theorem value_congr (e : Expr) {a b : Row Assignment} (h : a.Agree e.tables b) :
    D.value (columnsOf a) e = D.value (columnsOf b) e := by
  have hlist (es : List Expr)
      (ih : ∀ e ∈ es, a.Agree e.tables b → D.value (columnsOf a) e = D.value (columnsOf b) e)
      (h : a.Agree (.unions (es.map Expr.tables)) b) :
      value.list D (columnsOf a) es = value.list D (columnsOf b) es := by
    rw [value.list_eq_map, value.list_eq_map]
    exact List.map_congr_left fun e he => ih e he fun i hi =>
      h i (mem_unions.2 ⟨e.tables, List.mem_map_of_mem he, hi⟩)
  induction e with
  | column c => simp only [value, columnsOf, h _ (mod_mem_tables c)]
  | literal v => rfl
  | compare op l r ihl ihr =>
    rw [value, value, ihl fun i hi => h i (mem_union.2 (.inl hi)),
      ihr fun i hi => h i (mem_union.2 (.inr hi))]
  | rowEq l r ihl ihr =>
    rw [Expr.tables, Expr.tables.list_eq_map, Expr.tables.list_eq_map] at h
    rw [value, value, hlist l ihl fun i hi => h i (mem_union.2 (.inl hi)),
      hlist r ihr fun i hi => h i (mem_union.2 (.inr hi))]
  | allEqual ms ih =>
    rw [Expr.tables, Expr.tables.list_eq_map] at h
    rw [value, value, hlist ms ih h]
  | and args ih =>
    rw [Expr.tables, Expr.tables.list_eq_map] at h
    rw [value, value, hlist args ih h]
  | or args ih =>
    rw [Expr.tables, Expr.tables.list_eq_map] at h
    rw [value, value, hlist args ih h]
  | not e ih => rw [value, value, ih h]
  | isNull e ih => rw [value, value, ih h]
  | call f args t ih =>
    rw [Expr.tables, Expr.tables.list_eq_map] at h
    rw [value, value, hlist args ih h]
  | cast e t ih => rw [value, value, ih h]
  | cached e ih => rw [value, value, ih h]

/-- The meaning of conditions under a dialect. -/
def meaning : Meaning Assignment where
  atom e a := (D.value (columnsOf a) e).truth
  atom_congr e _ _ h := congrArg Value.truth (D.value_congr e h)

/-- The truth of a condition is the truth of its value. -/
theorem truth_meaning (e : Expr) (a : Row Assignment) :
    D.meaning.truth e a = (D.value (columnsOf a) e).truth := by
  have hlist (es : List Expr)
      (ih : ∀ e ∈ es, D.meaning.truth e a = (D.value (columnsOf a) e).truth) :
      es.map (D.meaning.truth · a) = (value.list D (columnsOf a) es).map Value.truth := by
    rw [value.list_eq_map, List.map_map]
    exact List.map_congr_left ih
  induction e with
  | and args ih =>
    rw [Meaning.truth, Meaning.truth.list_eq_map, value, Value.truth_ofTruth, hlist args ih]
  | or args ih =>
    rw [Meaning.truth, Meaning.truth.list_eq_map, value, Value.truth_ofTruth, hlist args ih]
  | _ => rfl

end Dialect

end QueryGraph
