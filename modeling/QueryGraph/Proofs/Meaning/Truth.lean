import QueryGraph.Expr.Tables
import QueryGraph.Proofs.Rows.Basic

/-!
# The truth of conditions

When a condition is true of a row, when it is false and when it is unknown.

## The model

Conjunctions and disjunctions are evaluated by Kleene's logic. What any other expression says of a
row is left open: a `Meaning` may give it every truth value, as long as that depends on no tables but
those the expression reads. A row goes through a condition that is true of it.

## What is proved

* `truth_congr` — the truth of a condition depends on the tables that it reads.
* `truth_same` — conditions that are written alike are true together, if the meaning treats them
  alike.
-/

namespace QueryGraph

open BitSet

variable {R : Type}

namespace Truth

/-- The conjunction of truth values: false if one is, and else unknown if one is. -/
def all (vs : List (Option Bool)) : Option Bool :=
  if some false ∈ vs then some false else if none ∈ vs then none else some true

/-- The disjunction of truth values: true if one is, and else unknown if one is. -/
def any (vs : List (Option Bool)) : Option Bool :=
  if some true ∈ vs then some true else if none ∈ vs then none else some false

theorem all_eq_true {vs : List (Option Bool)} : all vs = some true ↔ ∀ v ∈ vs, v = some true := by
  constructor
  · intro h v hv
    rw [all] at h
    split at h
    · cases h
    split at h
    · cases h
    next hfalse hnone =>
      match v with
      | none => exact absurd hv hnone
      | some false => exact absurd hv hfalse
      | some true => rfl
  · intro h
    have hfalse : some false ∉ vs := fun hmem => nomatch h _ hmem
    have hnone : none ∉ vs := fun hmem => nomatch h _ hmem
    rw [all, if_neg hfalse, if_neg hnone]

theorem all_eq_false {vs : List (Option Bool)} : all vs = some false ↔ some false ∈ vs := by
  constructor
  · intro h
    rw [all] at h
    split at h
    · assumption
    · split at h <;> cases h
  · intro h
    rw [all, if_pos h]

theorem any_eq_true {vs : List (Option Bool)} : any vs = some true ↔ some true ∈ vs := by
  constructor
  · intro h
    rw [any] at h
    split at h
    · assumption
    · split at h <;> cases h
  · intro h
    rw [any, if_pos h]

end Truth

/-- What conditions say of rows, apart from conjunctions and disjunctions. -/
structure Meaning (R : Type) where
  /-- The truth value of an expression on a row. -/
  atom : Expr → Row R → Option Bool
  /-- It depends on the tables that the expression reads. -/
  atom_congr : ∀ (e : Expr) (a b : Row R), a.Agree e.tables b → atom e a = atom e b

namespace Meaning

variable (m : Meaning R)

/-- The truth value of a condition on a row. -/
def truth : Expr → Row R → Option Bool
  | .and args, a => Truth.all (list args a)
  | .or args, a => Truth.any (list args a)
  | e, a => m.atom e a
where
  /-- The truth values of the conditions of a list. -/
  list : List Expr → Row R → List (Option Bool)
    | [], _ => []
    | e :: es, a => truth e a :: list es a

theorem truth.list_eq_map (es : List Expr) (a : Row R) :
    truth.list m es a = es.map (m.truth · a) := by
  induction es with
  | nil => rfl
  | cons e es ih => rw [truth.list, ih, List.map_cons]

/-- The condition is true of the row. -/
def holds (c : Expr) (a : Row R) : Bool := m.truth c a = some true

/-- All conditions are true of the row. -/
def holdsAll (cs : List Expr) (a : Row R) : Bool := cs.all (m.holds · a)

theorem holds_iff {c : Expr} {a : Row R} : m.holds c a = true ↔ m.truth c a = some true := by
  rw [holds, decide_eq_true_iff]

theorem holdsAll_append (cs ds : List Expr) (a : Row R) :
    m.holdsAll (cs ++ ds) a = (m.holdsAll cs a && m.holdsAll ds a) := List.all_append

theorem holdsAll_cons (c : Expr) (cs : List Expr) (a : Row R) :
    m.holdsAll (c :: cs) a = (m.holds c a && m.holdsAll cs a) := rfl

theorem holdsAll_iff {cs : List Expr} {a : Row R} :
    m.holdsAll cs a = true ↔ ∀ c ∈ cs, m.holds c a = true := List.all_eq_true

theorem holds_and {args : List Expr} {a : Row R} :
    m.holds (.and args) a = true ↔ ∀ e ∈ args, m.holds e a = true := by
  simp only [holds_iff, truth, truth.list_eq_map, Truth.all_eq_true, List.forall_mem_map]

theorem holds_or {args : List Expr} {a : Row R} :
    m.holds (.or args) a = true ↔ ∃ e ∈ args, m.holds e a = true := by
  simp only [holds_iff, truth, truth.list_eq_map, Truth.any_eq_true, List.mem_map]

/-! ### The tables that matter -/

/-- The truth of a condition depends on the tables that it reads. -/
theorem truth_congr (e : Expr) {a b : Row R} (h : a.Agree e.tables b) :
    m.truth e a = m.truth e b := by
  have hlist (es : List Expr) (ih : ∀ e ∈ es, a.Agree e.tables b → m.truth e a = m.truth e b)
      (h : a.Agree (.unions (es.map Expr.tables)) b) :
      es.map (m.truth · a) = es.map (m.truth · b) := by
    refine List.map_congr_left fun e he => ih e he fun i hi => h i ?_
    exact mem_unions.2 ⟨e.tables, List.mem_map_of_mem he, hi⟩
  induction e with
  | and args ih =>
    rw [Expr.tables, Expr.tables.list_eq_map] at h
    rw [truth, truth, truth.list_eq_map, truth.list_eq_map, hlist args ih h]
  | or args ih =>
    rw [Expr.tables, Expr.tables.list_eq_map] at h
    rw [truth, truth, truth.list_eq_map, truth.list_eq_map, hlist args ih h]
  | _ => exact m.atom_congr _ a b h

theorem holds_congr (c : Expr) {a b : Row R} (h : a.Agree c.tables b) :
    m.holds c a = m.holds c b := by
  rw [holds, holds, m.truth_congr c h]

theorem holdsAll_congr {cs : List Expr} {a b : Row R} (h : ∀ c ∈ cs, a.Agree c.tables b) :
    m.holdsAll cs a = m.holdsAll cs b := by
  induction cs with
  | nil => rfl
  | cons c cs ih =>
    rw [holdsAll_cons, holdsAll_cons, m.holds_congr c (h c List.mem_cons_self),
      ih fun d hd => h d (List.mem_cons_of_mem c hd)]

/-! ### Conditions that are written alike -/

/-- Expressions that are written alike mean the same. -/
def RespectsSame : Prop := ∀ e e' : Expr, e.same e' = true → m.atom e = m.atom e'

/-- Conditions that are written alike are true together. -/
theorem truth_same (hm : m.RespectsSame) {e e' : Expr} (h : e.same e' = true) (a : Row R) :
    m.truth e a = m.truth e' a := by
  have hlist (es : List Expr)
      (ih : ∀ e ∈ es, ∀ e', e.same e' = true → m.truth e a = m.truth e' a) (es' : List Expr)
      (h : Expr.same.list es es' = true) : truth.list m es a = truth.list m es' a := by
    induction es generalizing es' with
    | nil =>
      cases es' with
      | nil => rfl
      | cons e' es' => cases h
    | cons e es ihes =>
      cases es' with
      | nil => cases h
      | cons e' es' =>
        rw [Expr.same.list, Bool.and_eq_true] at h
        rw [truth.list, truth.list, ih e List.mem_cons_self e' h.1,
          ihes (fun d hd => ih d (List.mem_cons_of_mem e hd)) es' h.2]
  induction e generalizing e' with
  | and args ih =>
    cases e' with
    | and args' => rw [truth, truth, hlist args (fun e he e' h => ih e he h) args' h]
    | _ => cases h
  | or args ih =>
    cases e' with
    | or args' => rw [truth, truth, hlist args (fun e he e' h => ih e he h) args' h]
    | _ => cases h
  | _ =>
    cases e' with
    | and args' => cases h
    | or args' => cases h
    | _ => exact congrFun (hm _ _ h) a

/-! ### Restricted conditions -/

theorem holds_conj {es : List Expr} {a : Row R} :
    m.holds (.conj es) a = true ↔ ∀ e ∈ es, m.holds e a = true := by
  unfold Expr.conj
  split
  next e => rw [List.forall_mem_singleton]
  next => exact m.holds_and

theorem holds_disj {es : List Expr} {a : Row R} :
    m.holds (.disj es) a = true ↔ ∃ e ∈ es, m.holds e a = true := by
  unfold Expr.disj
  split
  next e => simp only [List.mem_singleton, exists_eq_left]
  next => exact m.holds_or

end Meaning

end QueryGraph
