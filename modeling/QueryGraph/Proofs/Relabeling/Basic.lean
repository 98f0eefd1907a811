import Mathlib.Data.List.Basic
import Mathlib.Logic.Function.Basic
import QueryGraph.BitSet.Lemmas
import QueryGraph.Expr.Tables
import QueryGraph.Value.Comparison

/-!
# Relabeling

Other numbers for the tables of a query, and other constants that look the same to it.

## The model

A relabeling is `Faithful` if different table numbers stay different, in sets of tables as well, and if
the constants keep their types, their truth values and how they compare. Then nothing that is read off an
expression changes but the labels themselves: every operation of the development commutes with relabeling.

Sets have room for the numbers below 64 and take others up to multiples of 64, so a faithful relabeling
respects these multiples.

## What is proved

* `set_union`, `set_inter`, `set_subset_iff` and so on — relabeling a set of tables.
* `same_relabel`, `type_relabel` — expressions that are written alike stay alike, and no others.
* `tables_relabel`, `rejected_relabel`, `restrict_relabel` — the tables of a relabeled expression.
-/

namespace QueryGraph

open BitSet

/-- A function leaves a list as it is if it leaves its members. -/
theorem map_eq_self_iff {α : Type} {f : α → α} {xs : List α} : xs.map f = xs ↔ ∀ x ∈ xs, f x = x := by
  have h := List.map_inj_left (f := f) (g := id) (l := xs)
  rwa [List.map_id] at h

/-- Labels for table numbers and for constants. -/
structure Relabeling where
  /-- The new number of a table. -/
  number : Nat → Nat
  /-- The new constant for a constant. -/
  value : Value → Value := id

namespace Relabeling

/-- The set of the new numbers. -/
def set (ρ : Relabeling) (s : TableSet) : TableSet := .ofList (s.toList.map ρ.number)

/-- The labels tell apart what was different, and the constants are used alike. -/
class Faithful (ρ : Relabeling) : Prop where
  /-- Different tables get different numbers. -/
  injective : Function.Injective ρ.number
  /-- Numbers that are different for sets of tables stay so, and no others. -/
  mod_iff : ∀ i j, ρ.number i % 64 = ρ.number j % 64 ↔ i % 64 = j % 64
  /-- Constants keep their types. -/
  type_value : ∀ v, (ρ.value v).type = v.type
  /-- They keep their truth values. -/
  truth_value : ∀ v, (ρ.value v).truth = v.truth
  /-- They compare as before. -/
  compare?_value : ∀ v w, (ρ.value v).compare? (ρ.value w) = v.compare? w
  /-- They are written alike where they were. -/
  same_value : ∀ v w, (ρ.value v).same (ρ.value w) = v.same w

attribute [simp] Faithful.type_value Faithful.truth_value Faithful.compare?_value Faithful.same_value

variable {ρ : Relabeling}

/-! ### Sets of tables -/

theorem mem_set {s : TableSet} {j : Nat} : j ∈ ρ.set s ↔ ∃ i ∈ s, j = ρ.number i % 64 := by
  have hsingleton (i : Nat) : j ∈ ({i} : TableSet) ↔ j = i % 64 := by
    rw [← singleton_mod, mem_singleton (Nat.mod_lt i (by decide))]
  simp [set, ofList, hsingleton]

@[simp] theorem set_empty : ρ.set ∅ = ∅ := eq_empty_iff.2 fun i => by simp [mem_set]

@[simp] theorem set_union (s t : TableSet) : ρ.set (s ∪ t) = ρ.set s ∪ ρ.set t :=
  BitSet.ext fun j => by simp [mem_set, or_and_right, exists_or]

@[simp] theorem set_unions (ss : List TableSet) : ρ.set (unions ss) = unions (ss.map ρ.set) := by
  induction ss with
  | nil => exact set_empty
  | cons s ss ih => rw [unions, set_union, ih, List.map_cons, unions]

variable [ρ.Faithful]

/-- The new number of a table is in the new set if the table was in the set. -/
theorem number_mem_set {s : TableSet} {i : Nat} : ρ.number i % 64 ∈ ρ.set s ↔ i % 64 ∈ s := by
  rw [mem_set]
  constructor
  · rintro ⟨j, hj, hij⟩
    have hmod := (Faithful.mod_iff i j).1 hij
    rwa [hmod, Nat.mod_eq_of_lt (lt_of_mem hj)]
  · intro h
    exact ⟨i % 64, h, (Faithful.mod_iff i (i % 64)).2 (Nat.mod_mod i 64).symm⟩

@[simp] theorem set_singleton (i : Nat) : ρ.set {i} = {ρ.number i} := by
  refine BitSet.ext fun j => ?_
  rw [mem_set, ← singleton_mod i, ← singleton_mod (ρ.number i),
    mem_singleton (Nat.mod_lt _ (by decide))]
  have hmod : ρ.number (i % 64) % 64 = ρ.number i % 64 :=
    (Faithful.mod_iff (i % 64) i).2 (Nat.mod_mod i 64)
  constructor
  · rintro ⟨k, hk, rfl⟩
    rw [(mem_singleton (Nat.mod_lt i (by decide))).1 hk, hmod]
  · rintro rfl
    exact ⟨i % 64, (mem_singleton (Nat.mod_lt i (by decide))).2 rfl, hmod.symm⟩

@[simp] theorem set_subset_iff {s t : TableSet} : ρ.set s ⊆ ρ.set t ↔ s ⊆ t := by
  simp only [subset_iff]
  constructor
  · intro h i hi
    have hmod : i % 64 = i := Nat.mod_eq_of_lt (lt_of_mem hi)
    rw [← hmod] at hi ⊢
    exact number_mem_set.1 (h _ (number_mem_set.2 hi))
  · intro h j hj
    obtain ⟨i, hi, rfl⟩ := mem_set.1 hj
    exact mem_set.2 ⟨i, h i hi, rfl⟩

@[simp] theorem set_inj {s t : TableSet} : ρ.set s = ρ.set t ↔ s = t := by
  constructor
  · intro h
    have hst : ρ.set s ⊆ ρ.set t := h ▸ Subset.refl (ρ.set s)
    have hts : ρ.set t ⊆ ρ.set s := h ▸ Subset.refl (ρ.set s)
    exact Subset.antisymm (set_subset_iff.1 hst) (set_subset_iff.1 hts)
  · rintro rfl
    rfl

@[simp] theorem set_eq_empty_iff {s : TableSet} : ρ.set s = ∅ ↔ s = ∅ :=
  ⟨fun h => set_inj.1 (h.trans set_empty.symm), fun h => by rw [h, set_empty]⟩

@[simp] theorem set_inter (s t : TableSet) : ρ.set (s ∩ t) = ρ.set s ∩ ρ.set t := by
  refine BitSet.ext fun j => ?_
  rw [mem_inter]
  constructor
  · intro h
    obtain ⟨i, hi, rfl⟩ := mem_set.1 h
    exact ⟨mem_set.2 ⟨i, (mem_inter.1 hi).1, rfl⟩, mem_set.2 ⟨i, (mem_inter.1 hi).2, rfl⟩⟩
  · rintro ⟨hs, ht⟩
    obtain ⟨i, hi, rfl⟩ := mem_set.1 hs
    have hmod : i % 64 = i := Nat.mod_eq_of_lt (lt_of_mem hi)
    exact mem_set.2 ⟨i, mem_inter.2 ⟨hi, hmod ▸ number_mem_set.1 ht⟩, rfl⟩

@[simp] theorem set_intersections (ss : List TableSet) :
    ρ.set (intersections ss) = intersections (ss.map ρ.set) := by
  induction ss with
  | nil => exact set_empty
  | cons s ss ih =>
    cases ss with
    | nil => rfl
    | cons t ss =>
      rw [intersections, set_inter, ih]
      · rfl
      · exact List.cons_ne_nil t ss

@[simp] theorem overlaps_set (s t : TableSet) : (ρ.set s).overlaps (ρ.set t) = s.overlaps t := by
  simp [overlaps, ← set_inter]

@[simp] theorem wantedOrAll_set (s t : TableSet) :
    wantedOrAll (ρ.set s) (ρ.set t) = ρ.set (wantedOrAll s t) := by
  rw [wantedOrAll, wantedOrAll, overlaps_set]
  split
  · rw [set_inter]
  · rfl

end Relabeling

/-- Relabelings that agree on a set make the same set of it. -/
theorem Relabeling.set_congr {ρ ρ' : Relabeling} {s : TableSet}
    (h : ∀ i ∈ s, ρ.number i = ρ'.number i) : ρ.set s = ρ'.set s := by
  refine BitSet.ext fun j => ?_
  rw [mem_set, mem_set]
  exact exists_congr fun i => and_congr_right fun hi => by rw [h i hi]

/-! ### Expressions -/

variable {ρ : Relabeling}

/-- The column of the relabeled table. -/
def Column.relabel (ρ : Relabeling) (c : Column) : Column := { c with table := ρ.number c.table }

namespace Expr

/-- The expression with new labels. -/
def relabel (ρ : Relabeling) : Expr → Expr
  | column c => column (c.relabel ρ)
  | literal v => literal (ρ.value v)
  | compare op l r => compare op (l.relabel ρ) (r.relabel ρ)
  | rowEq l r => rowEq (list l) (list r)
  | allEqual ms => allEqual (list ms)
  | and args => and (list args)
  | or args => or (list args)
  | not e => not (e.relabel ρ)
  | isNull e => isNull (e.relabel ρ)
  | call f args t => call f (list args) t
  | cast e t => cast (e.relabel ρ) t
  | cached e => cached (e.relabel ρ)
where
  /-- Every expression of a list with new labels. -/
  list : List Expr → List Expr
    | [] => []
    | e :: es => e.relabel ρ :: list es

@[simp] theorem relabel.list_eq_map (es : List Expr) : relabel.list ρ es = es.map (relabel ρ) := by
  induction es with
  | nil => rfl
  | cons e es ih => simp [relabel.list, ih]

@[simp] theorem relabel_conj (es : List Expr) : (conj es).relabel ρ = conj (es.map (relabel ρ)) := by
  rcases es with _ | ⟨e, _ | ⟨d, es⟩⟩ <;> simp [conj, relabel]

@[simp] theorem relabel_disj (es : List Expr) : (disj es).relabel ρ = disj (es.map (relabel ρ)) := by
  rcases es with _ | ⟨e, _ | ⟨d, es⟩⟩ <;> simp [disj, relabel]

@[simp] theorem relabel_equals (l r : Expr) :
    (l.equals r).relabel ρ = (l.relabel ρ).equals (r.relabel ρ) := rfl

@[simp] theorem column?_relabel (e : Expr) :
    (e.relabel ρ).column? = e.column?.map (Column.relabel ρ) := by cases e <;> rfl

@[simp] theorem literal?_relabel (e : Expr) : (e.relabel ρ).literal? = e.literal?.map ρ.value := by
  cases e <;> rfl

@[simp] theorem isEquality_relabel (e : Expr) : (e.relabel ρ).isEquality = e.isEquality := by
  cases e <;> rfl

@[simp] theorem rowWidth_relabel (e : Expr) : (e.relabel ρ).rowWidth = e.rowWidth := by
  cases e <;> simp [relabel, rowWidth]

/-- The conjuncts of a relabeled condition are those of the condition, relabeled. -/
theorem conjuncts_relabel (e : Expr) : (e.relabel ρ).conjuncts = e.conjuncts.map (relabel ρ) := by
  induction e with
  | and args ih =>
    simp only [relabel, conjuncts, relabel.list_eq_map, conjuncts.list_eq_flatMap, List.flatMap_map,
      List.map_flatMap]
    exact List.flatMap_congr ih
  | _ => rfl

@[simp] theorem conjunctsOf_relabel (c? : Option Expr) :
    conjunctsOf (c?.map (relabel ρ)) = (conjunctsOf c?).map (relabel ρ) := by
  cases c? with
  | none => rfl
  | some c => exact conjuncts_relabel c

/-- Every table number in the expression is as `P` says, and every constant as `Q` says. -/
def AllLabels (P : Nat → Prop) (Q : Value → Prop) : Expr → Prop
  | column c => P c.table
  | literal v => Q v
  | compare _ l r => l.AllLabels P Q ∧ r.AllLabels P Q
  | rowEq l r => list l ∧ list r
  | allEqual ms => list ms
  | and args => list args
  | or args => list args
  | not e => e.AllLabels P Q
  | isNull e => e.AllLabels P Q
  | call _ args _ => list args
  | cast e _ => e.AllLabels P Q
  | cached e => e.AllLabels P Q
where
  /-- The same for every expression of a list. -/
  list : List Expr → Prop
    | [] => True
    | e :: es => e.AllLabels P Q ∧ list es

@[simp] theorem AllLabels.list_iff {P : Nat → Prop} {Q : Value → Prop} {es : List Expr} :
    list P Q es ↔ ∀ e ∈ es, e.AllLabels P Q := by
  induction es with
  | nil => simp [list]
  | cons e es ih => simp [list, ih]

/-- What is so of the labels is so of what follows from it. -/
theorem AllLabels.mono {P P' : Nat → Prop} {Q Q' : Value → Prop} {e : Expr} (h : e.AllLabels P Q)
    (hP : ∀ i, P i → P' i) (hQ : ∀ v, Q v → Q' v) : e.AllLabels P' Q' := by
  induction e with
  | column c => exact hP _ h
  | literal v => exact hQ _ h
  | compare op l r ihl ihr => exact h.imp ihl ihr
  | rowEq l r ihl ihr =>
    simp only [AllLabels, list_iff] at h ⊢
    exact ⟨fun e he => ihl e he (h.1 e he), fun e he => ihr e he (h.2 e he)⟩
  | allEqual ms ih | and args ih | or args ih | call f args t ih =>
    simp only [AllLabels, list_iff] at h ⊢
    exact fun e he => ih e he (h e he)
  | not e ih | isNull e ih | cast e t ih | cached e ih => exact ih h

/-- What is so of the new labels. -/
theorem allLabels_relabel {P : Nat → Prop} {Q : Value → Prop} {e : Expr} :
    (e.relabel ρ).AllLabels P Q ↔ e.AllLabels (fun i => P (ρ.number i)) (fun v => Q (ρ.value v)) := by
  induction e with
  | column c => rfl
  | literal v => rfl
  | compare op l r ihl ihr => simp [relabel, AllLabels, ihl, ihr]
  | rowEq l r ihl ihr => simp +contextual [relabel, AllLabels, ihl, ihr]
  | allEqual ms ih | and args ih | or args ih | call f args t ih =>
    simp +contextual [relabel, AllLabels, ih]
  | not e ih | isNull e ih | cast e t ih | cached e ih => simp [relabel, AllLabels, ih]

/-- Two relabelings make the same of an expression if they agree on the labels in it, and only then. -/
theorem relabel_congr_iff {ρ ρ' : Relabeling} {e : Expr} : e.relabel ρ = e.relabel ρ' ↔
    e.AllLabels (fun i => ρ.number i = ρ'.number i) (fun v => ρ.value v = ρ'.value v) := by
  have hcolumn {c : Column} : c.relabel ρ = c.relabel ρ' ↔ ρ.number c.table = ρ'.number c.table := by
    simp [Column.relabel]
  induction e with
  | column c => simp [relabel, AllLabels, hcolumn]
  | literal v => simp [relabel, AllLabels]
  | compare op l r ihl ihr => simp [relabel, AllLabels, ihl, ihr]
  | rowEq l r ihl ihr => simp +contextual [relabel, AllLabels, ihl, ihr]
  | allEqual ms ih | and args ih | or args ih | call f args t ih =>
    simp +contextual [relabel, AllLabels, ih]
  | not e ih | isNull e ih | cast e t ih | cached e ih => simp [relabel, AllLabels, ih]

theorem relabel_id (e : Expr) : e.relabel ⟨id, id⟩ = e := by
  have hlist {es : List Expr} (ih : ∀ e ∈ es, e.relabel ⟨id, id⟩ = e) :
      es.map (relabel ⟨id, id⟩) = es := map_eq_self_iff.2 ih
  induction e with
  | column c => rfl
  | literal v => rfl
  | compare op l r ihl ihr => rw [relabel, ihl, ihr]
  | rowEq l r ihl ihr => rw [relabel, relabel.list_eq_map, relabel.list_eq_map, hlist ihl, hlist ihr]
  | allEqual ms ih | and args ih | or args ih | call f args t ih =>
    rw [relabel, relabel.list_eq_map, hlist ih]
  | not e ih | isNull e ih | cast e t ih | cached e ih => rw [relabel, ih]

/-- A relabeling leaves an expression as it is if it leaves the labels in it, and only then. -/
theorem relabel_eq_self_iff {e : Expr} :
    e.relabel ρ = e ↔ e.AllLabels (fun i => ρ.number i = i) (fun v => ρ.value v = v) := by
  have h : e.relabel ρ = e.relabel ⟨id, id⟩ ↔
      e.AllLabels (fun i => ρ.number i = i) (fun v => ρ.value v = v) := relabel_congr_iff
  rwa [relabel_id] at h

/-- The numbers of the tables that an expression reads are among its labels, if they fit into a set. -/
theorem AllLabels.of_mem_tables {P : Nat → Prop} {Q : Value → Prop} {e : Expr} (h : e.AllLabels P Q)
    (hlt : ∀ i, P i → i < 64) {i : Nat} (hi : i ∈ e.tables) : P i := by
  induction e with
  | column c =>
    obtain rfl := (mem_singleton (hlt _ h)).1 hi
    exact h
  | literal v => exact absurd hi (not_mem_empty i)
  | compare op l r ihl ihr => exact (mem_union.1 hi).elim (ihl h.1) (ihr h.2)
  | rowEq l r ihl ihr =>
    simp only [AllLabels, list_iff, tables, tables.list_eq_map, mem_union, mem_unions,
      List.mem_map, exists_exists_and_eq_and] at h hi
    obtain ⟨e, he, hi⟩ | ⟨e, he, hi⟩ := hi
    · exact ihl e he (h.1 e he) hi
    · exact ihr e he (h.2 e he) hi
  | allEqual ms ih | and args ih | or args ih | call f args t ih =>
    simp only [AllLabels, list_iff, tables, tables.list_eq_map, mem_unions, List.mem_map,
      exists_exists_and_eq_and] at h hi
    obtain ⟨e, he, hi⟩ := hi
    exact ih e he (h e he) hi
  | not e ih | isNull e ih | cast e t ih | cached e ih => exact ih h hi

variable [ρ.Faithful]

@[simp] theorem type_relabel (e : Expr) : (e.relabel ρ).type = e.type := by
  induction e with
  | literal v => exact Relabeling.Faithful.type_value v
  | cached e ih => exact ih
  | _ => rfl

@[simp] theorem relabel_column_inj {c d : Column} : c.relabel ρ = d.relabel ρ ↔ c = d := by
  constructor
  · intro h
    have htable := Relabeling.Faithful.injective (congrArg Column.table h)
    cases c; cases d
    simp_all [Column.relabel]
  · rintro rfl
    rfl

/-- Relabeled expressions are written alike where the expressions are. -/
@[simp] theorem same_relabel (e e' : Expr) : (e.relabel ρ).same (e'.relabel ρ) = e.same e' := by
  have hlist {es : List Expr} (ih : ∀ e ∈ es, ∀ e', (e.relabel ρ).same (e'.relabel ρ) = e.same e')
      (es' : List Expr) :
      same.list (es.map (relabel ρ)) (es'.map (relabel ρ)) = same.list es es' := by
    induction es generalizing es' with
    | nil => cases es' <;> rfl
    | cons e es ih' =>
      cases es' with
      | nil => rfl
      | cons e' es' =>
        rw [List.map_cons, List.map_cons, same.list, same.list, ih e List.mem_cons_self,
          ih' fun d hd => ih d (List.mem_cons_of_mem e hd)]
  induction e generalizing e' with
  | column c => cases e' <;> simp [relabel, same]
  | literal v => cases e' <;> simp [relabel, same]
  | compare op l r ihl ihr => cases e' <;> simp [relabel, same, ihl, ihr]
  | rowEq l r ihl ihr => cases e' <;> simp [relabel, same, hlist ihl, hlist ihr]
  | allEqual ms ih | and args ih | or args ih | call f args t ih =>
    cases e' <;> simp [relabel, same, hlist ih]
  | not e ih | isNull e ih | cast e t ih | cached e ih => cases e' <;> simp [relabel, same, ih]

/-! ### The tables of an expression -/

@[simp] theorem tables_relabel (e : Expr) : (e.relabel ρ).tables = ρ.set e.tables := by
  have hlist {es : List Expr} (ih : ∀ e ∈ es, (e.relabel ρ).tables = ρ.set e.tables) :
      (es.map (relabel ρ)).map tables = (es.map tables).map ρ.set := by
    rw [List.map_map, List.map_map]
    exact List.map_congr_left ih
  induction e with
  | column c => exact (Relabeling.set_singleton c.table).symm
  | literal v => exact Relabeling.set_empty.symm
  | compare op l r ihl ihr => simp [relabel, tables, ihl, ihr]
  | rowEq l r ihl ihr =>
    simp only [relabel, tables, tables.list_eq_map, relabel.list_eq_map, Relabeling.set_union,
      Relabeling.set_unions, hlist ihl, hlist ihr]
  | allEqual ms ih | and args ih | or args ih | call f args t ih =>
    simp only [relabel, tables, tables.list_eq_map, relabel.list_eq_map, Relabeling.set_unions, hlist ih]
  | not e ih | isNull e ih | cast e t ih | cached e ih => exact ih

@[simp] theorem tablesOf_relabel (cs : List Expr) :
    tablesOf (cs.map (relabel ρ)) = ρ.set (tablesOf cs) := by
  simp [tablesOf, Function.comp_def]

@[simp] theorem rejected_relabel (e : Expr) : (e.relabel ρ).rejected = ρ.set e.rejected := by
  have hlist {es : List Expr} (ih : ∀ e ∈ es, (e.relabel ρ).rejected = ρ.set e.rejected) :
      (es.map (relabel ρ)).map rejected = (es.map rejected).map ρ.set := by
    rw [List.map_map, List.map_map]
    exact List.map_congr_left ih
  induction e with
  | column c => exact (Relabeling.set_singleton c.table).symm
  | compare op l r ihl ihr => cases op <;> simp [relabel, rejected, ihl, ihr]
  | rowEq l r ihl ihr =>
    simp only [relabel, rejected, rejected.list_eq_map, relabel.list_eq_map, Relabeling.set_union,
      Relabeling.set_unions, hlist ihl, hlist ihr]
  | allEqual ms ih | and args ih =>
    simp only [relabel, rejected, rejected.list_eq_map, relabel.list_eq_map, Relabeling.set_unions,
      hlist ih]
  | or args ih =>
    simp only [relabel, rejected, rejected.list_eq_map, relabel.list_eq_map,
      Relabeling.set_intersections, hlist ih]
  | cast e t ih | cached e ih => exact ih
  | literal v | not e ih | isNull e ih | call f args t ih => exact Relabeling.set_empty.symm

@[simp] theorem isConst_relabel (e : Expr) : (e.relabel ρ).isConst = e.isConst := by simp [isConst]

@[simp] theorem isHashKey_relabel (left right : TableSet) (e : Expr) :
    (e.relabel ρ).isHashKey (ρ.set left) (ρ.set right) = e.isHashKey left right := by
  simp [isHashKey]

/-- Restricting a relabeled condition to the relabeled tables. -/
@[simp] theorem restrict_relabel (ts : TableSet) (e : Expr) :
    (e.relabel ρ).restrict (ρ.set ts) = (e.restrict ts).map (relabel ρ) := by
  have hplain {e : Expr} (h : e.restrict ts = if e.tables ⊆ ts then some e else none)
      (h' : (e.relabel ρ).restrict (ρ.set ts) =
        if (e.relabel ρ).tables ⊆ ρ.set ts then some (e.relabel ρ) else none) :
      (e.relabel ρ).restrict (ρ.set ts) = (e.restrict ts).map (relabel ρ) := by
    simp only [h, h', tables_relabel, Relabeling.set_subset_iff]
    split <;> rfl
  induction e with
  | and args ih =>
    have hparts : (args.map (relabel ρ)).filterMap (restrict (ρ.set ts)) =
        (args.filterMap (restrict ts)).map (relabel ρ) := by
      rw [List.filterMap_map, List.map_filterMap]
      exact List.filterMap_congr ih
    rw [relabel, restrict, restrict, restrict.list_eq_filterMap, restrict.list_eq_filterMap,
      relabel.list_eq_map, hparts]
    cases args.filterMap (restrict ts) with
    | nil => rfl
    | cons p ps => exact congrArg some (relabel_conj (p :: ps)).symm
  | or args ih =>
    have hparts : restrict.all (ρ.set ts) (args.map (relabel ρ)) =
        (restrict.all ts args).map (List.map (relabel ρ)) := by
      clear hplain
      induction args with
      | nil => rfl
      | cons e es ih' =>
        rw [List.map_cons, restrict.all, restrict.all, ih e List.mem_cons_self,
          ih' fun d hd => ih d (List.mem_cons_of_mem e hd)]
        cases e.restrict ts <;> cases restrict.all ts es <;> rfl
    rw [relabel, restrict, restrict, relabel.list_eq_map, hparts]
    simp [Function.comp_def]
  | _ => exact hplain rfl rfl

end Expr

end QueryGraph
