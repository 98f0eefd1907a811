import QueryGraph.BitSet.Lemmas
import QueryGraph.Proofs.Meaning.Truth

/-!
# Restricted conditions

What is left of a condition when it may read some tables only: a weaker condition.

It says all that can be said on these tables: restricted to fewer of them, it gives what the condition itself
gives. And where the condition may read all of its tables, it says the same as the condition, up to
conjunctions of no arguments. These are left out of a conjunction and are missing in a disjunction, since an
argument that gives nothing is taken for one that reads other tables.

A meaning may ignore the rows and give the expressions below conjunctions and disjunctions any truth values at
all. So what is said here of all meanings is said of all three-valued interpretations.

## What is proved

* `tables_subset_of_restrict` — a restricted condition reads no other tables than it may.
* `tables_restrict_subset` — it reads no tables that the condition did not read.
* `holds_restrict` — it holds wherever the condition itself does.
* `restrict_bind_restrict` — restricting in two stages is restricting once.
* `exists_restrict` — without a restriction, and without empty conjunctions, nothing is lost.
* `restrict_implied` — all of it in one statement.
-/

namespace QueryGraph

open BitSet

variable {R : Type}

namespace Expr

theorem tables_conj (es : List Expr) : (conj es).tables = .unions (es.map tables) := by
  unfold conj
  split
  next e => exact ext fun i => by simp
  next => rw [tables, tables.list_eq_map]

theorem tables_disj (es : List Expr) : (disj es).tables = .unions (es.map tables) := by
  unfold disj
  split
  next e => exact ext fun i => by simp
  next => rw [tables, tables.list_eq_map]

theorem unions_subset {es : List Expr} {ts : TableSet} :
    .unions (es.map tables) ⊆ ts ↔ ∀ e ∈ es, e.tables ⊆ ts := by
  simp only [subset_iff, mem_unions]
  constructor
  · exact fun h e he i hi => h i ⟨e.tables, List.mem_map_of_mem he, hi⟩
  · rintro h i ⟨s, hs, hi⟩
    obtain ⟨e, he, rfl⟩ := List.mem_map.1 hs
    exact h e he i hi

/-- The parts of a disjunction and its arguments belong to each other. -/
theorem mem_restrict_all {ts : TableSet} {args parts : List Expr}
    (h : restrict.all ts args = some parts) :
    (∀ p ∈ parts, ∃ e ∈ args, e.restrict ts = some p) ∧
      ∀ e ∈ args, ∃ p ∈ parts, e.restrict ts = some p := by
  induction args generalizing parts with
  | nil =>
    cases h
    simp
  | cons e es ih =>
    rw [restrict.all] at h
    split at h
    next p ps hp hps =>
      cases h
      obtain ⟨hparts, hargs⟩ := ih hps
      constructor
      · rintro q (_ | ⟨_, hq⟩)
        · exact ⟨e, List.mem_cons_self, hp⟩
        · obtain ⟨d, hd, hdq⟩ := hparts q hq
          exact ⟨d, List.mem_cons_of_mem e hd, hdq⟩
      · rintro d (_ | ⟨_, hd⟩)
        · exact ⟨p, List.mem_cons_self, hp⟩
        · obtain ⟨q, hq, hdq⟩ := hargs d hd
          exact ⟨q, List.mem_cons_of_mem p hq, hdq⟩
    next => cases h

/-- A restricted condition is the conjunction of restricted arguments of a conjunction, the
disjunction of those of all arguments of a disjunction, or the condition itself. -/
theorem restrict_cases {ts : TableSet} {c p : Expr} (h : c.restrict ts = some p) :
    (∃ args parts, c = and args ∧ p = conj parts ∧
        ∀ q ∈ parts, ∃ e ∈ args, e.restrict ts = some q) ∨
      (∃ args parts, c = or args ∧ p = disj parts ∧ restrict.all ts args = some parts) ∨
      (c.tables ⊆ ts ∧ p = c) := by
  cases c with
  | and args =>
    rw [restrict, restrict.list_eq_filterMap] at h
    split at h
    next => cases h
    next hparts =>
      cases h
      exact .inl ⟨args, _, rfl, rfl, fun q hq => List.mem_filterMap.1 hq⟩
  | or args =>
    rw [restrict, Option.map_eq_some_iff] at h
    obtain ⟨parts, hparts, rfl⟩ := h
    exact .inr (.inl ⟨args, parts, rfl, rfl, hparts⟩)
  | _ =>
    simp only [restrict] at h
    split at h
    next hsub =>
      cases h
      exact .inr (.inr ⟨hsub, rfl⟩)
    next => cases h

/-- A restricted condition reads no other tables than it may. -/
theorem tables_subset_of_restrict {ts : TableSet} {c p : Expr} (h : c.restrict ts = some p) :
    p.tables ⊆ ts := by
  induction c generalizing p with
  | and args ih =>
    obtain ⟨_, parts, ⟨⟩, rfl, hparts⟩ | ⟨_, _, ⟨⟩, _⟩ | ⟨hsub, rfl⟩ := restrict_cases h
    · rw [tables_conj, unions_subset]
      intro q hq
      obtain ⟨e, he, heq⟩ := hparts q hq
      exact ih e he heq
    · exact hsub
  | or args ih =>
    obtain ⟨_, _, ⟨⟩, _⟩ | ⟨_, parts, ⟨⟩, rfl, hparts⟩ | ⟨hsub, rfl⟩ := restrict_cases h
    · rw [tables_disj, unions_subset]
      intro q hq
      obtain ⟨e, he, heq⟩ := (mem_restrict_all hparts).1 q hq
      exact ih e he heq
    · exact hsub
  | _ =>
    obtain ⟨_, _, ⟨⟩, _⟩ | ⟨_, _, ⟨⟩, _⟩ | ⟨hsub, rfl⟩ := restrict_cases h
    exact hsub

/-- A restricted condition reads no tables that the condition did not read. -/
theorem tables_restrict_subset {ts : TableSet} {c p : Expr} (h : c.restrict ts = some p) :
    p.tables ⊆ c.tables := by
  have hargs (args : List Expr) (e : Expr) (he : e ∈ args) : e.tables ⊆ .unions (args.map tables) :=
    unions_subset.1 (Subset.refl _) e he
  induction c generalizing p with
  | and args ih =>
    obtain ⟨_, parts, ⟨⟩, rfl, hparts⟩ | ⟨_, _, ⟨⟩, _⟩ | ⟨_, rfl⟩ := restrict_cases h
    · rw [tables_conj, tables, tables.list_eq_map, unions_subset]
      intro q hq
      obtain ⟨e, he, heq⟩ := hparts q hq
      exact Subset.trans (ih e he heq) (hargs args e he)
    · exact Subset.refl _
  | or args ih =>
    obtain ⟨_, _, ⟨⟩, _⟩ | ⟨_, parts, ⟨⟩, rfl, hparts⟩ | ⟨_, rfl⟩ := restrict_cases h
    · rw [tables_disj, tables, tables.list_eq_map, unions_subset]
      intro q hq
      obtain ⟨e, he, heq⟩ := (mem_restrict_all hparts).1 q hq
      exact Subset.trans (ih e he heq) (hargs args e he)
    · exact Subset.refl _
  | _ =>
    obtain ⟨_, _, ⟨⟩, _⟩ | ⟨_, _, ⟨⟩, _⟩ | ⟨_, rfl⟩ := restrict_cases h
    exact Subset.refl _

/-! ### Restricting again -/

/-- A conjunction of one condition stands for itself, and is restricted like one. -/
theorem restrict_conj (ts : TableSet) (es : List Expr) : (conj es).restrict ts = (and es).restrict ts := by
  unfold conj
  split
  next e =>
    rw [restrict, restrict.list, restrict.list]
    cases e.restrict ts <;> rfl
  next => rfl

/-- A disjunction of one condition stands for itself, and is restricted like one. -/
theorem restrict_disj (ts : TableSet) (es : List Expr) : (disj es).restrict ts = (or es).restrict ts := by
  unfold disj
  split
  next e =>
    rw [restrict, restrict.all, restrict.all]
    cases e.restrict ts <;> rfl
  next => rfl

/-- Restricting in two stages is restricting once, if the second stage allows no more tables. -/
theorem restrict_bind_restrict {ts us : TableSet} (h : us ⊆ ts) (c : Expr) :
    (c.restrict ts).bind (restrict us) = c.restrict us := by
  induction c with
  | and args ih =>
    have hlist : (restrict.list ts args).filterMap (restrict us) = restrict.list us args := by
      rw [restrict.list_eq_filterMap, restrict.list_eq_filterMap, List.filterMap_filterMap]
      exact List.filterMap_congr ih
    rw [restrict]
    split
    next hnil =>
      rw [hnil, List.filterMap_nil] at hlist
      rw [restrict, ← hlist]
      rfl
    next =>
      rw [Option.bind_some, restrict_conj, restrict, restrict, ← hlist, restrict.list_eq_filterMap us]
  | or args ih =>
    have hall : (restrict.all ts args).bind (restrict.all us) = restrict.all us args := by
      induction args with
      | nil => rfl
      | cons e es ihes =>
        obtain ⟨he, hes⟩ := List.forall_mem_cons.1 ih
        rw [restrict.all, restrict.all, ← he, ← ihes hes]
        cases e.restrict ts <;> cases restrict.all ts es <;> simp [restrict.all]
    rw [restrict, restrict, ← hall, Option.bind_map, Option.map_bind]
    exact congrArg _ (funext fun parts => (restrict_disj us parts).trans (by rw [restrict]; rfl))
  | _ =>
    simp only [restrict]
    split
    next => rfl
    next hts => exact (if_neg fun hus => hts (Subset.trans hus h)).symm

/-! ### Where nothing is lost -/

/-- No conjunction of no arguments stands below conjunctions and disjunctions only. -/
def noEmptyAnd : Expr → Bool
  | and args => !args.isEmpty && list args
  | or args => list args
  | _ => true
where
  /-- The same for every condition of a list. -/
  list : List Expr → Bool
    | [] => true
    | e :: es => e.noEmptyAnd && list es

@[simp] theorem noEmptyAnd.list_iff {es : List Expr} : list es = true ↔ ∀ e ∈ es, e.noEmptyAnd = true := by
  induction es with
  | nil => simp [list]
  | cons e es ih => simp [list, ih]

/-- The condition can be restricted, and what is left has the same truth value for all meanings and rows. -/
def KeptBy (ts : TableSet) (e : Expr) : Prop :=
  ∃ p, e.restrict ts = some p ∧ ∀ (R : Type) (m : Meaning R) (a : Row R), m.truth p a = m.truth e a

/-- If every argument can be restricted, the parts of a conjunction are those of a disjunction. -/
theorem exists_parts {ts : TableSet} {args : List Expr} (h : ∀ e ∈ args, e.KeptBy ts) :
    ∃ parts, restrict.list ts args = parts ∧ restrict.all ts args = some parts ∧ parts.length = args.length ∧
      ∀ (R : Type) (m : Meaning R) (a : Row R), parts.map (m.truth · a) = args.map (m.truth · a) := by
  induction args with
  | nil => exact ⟨[], rfl, rfl, rfl, fun _ _ _ => rfl⟩
  | cons e es ih =>
    obtain ⟨⟨p, hp, htruth⟩, hes⟩ := List.forall_mem_cons.1 h
    obtain ⟨parts, hlist, hall, hlength, hparts⟩ := ih hes
    refine ⟨p :: parts, by rw [restrict.list, hp, hlist], by rw [restrict.all, hp, hall],
      congrArg Nat.succ hlength, fun R m a => ?_⟩
    rw [List.map_cons, List.map_cons, htruth, hparts]

end Expr

namespace Meaning

theorem truth_conj (m : Meaning R) (es : List Expr) (a : Row R) :
    m.truth (.conj es) a = Truth.all (es.map (m.truth · a)) := by
  unfold Expr.conj
  split
  next e =>
    show m.truth e a = Truth.all [m.truth e a]
    rcases m.truth e a with _ | _ | _ <;> rfl
  next => rw [truth, truth.list_eq_map]

theorem truth_disj (m : Meaning R) (es : List Expr) (a : Row R) :
    m.truth (.disj es) a = Truth.any (es.map (m.truth · a)) := by
  unfold Expr.disj
  split
  next e =>
    show m.truth e a = Truth.any [m.truth e a]
    rcases m.truth e a with _ | _ | _ <;> rfl
  next => rw [truth, truth.list_eq_map]

end Meaning

namespace Expr

/-- Where a condition may read all of its tables, nothing is lost, unless it is for a conjunction of no
arguments. -/
theorem keptBy_of_tables_subset {ts : TableSet} {e : Expr} (he : e.noEmptyAnd = true) (h : e.tables ⊆ ts) :
    e.KeptBy ts := by
  induction e with
  | and args ih =>
    rw [noEmptyAnd, Bool.and_eq_true, noEmptyAnd.list_iff] at he
    rw [tables, tables.list_eq_map, unions_subset] at h
    obtain ⟨parts, hlist, -, hlength, htruth⟩ :=
      exists_parts fun e hmem => ih e hmem (he.2 e hmem) (h e hmem)
    refine ⟨conj parts, ?_, fun R m a => ?_⟩
    · rw [restrict, hlist]
      cases parts with
      | nil =>
        rw [List.length_eq_zero_iff.1 hlength.symm] at he
        cases he.1
      | cons p ps => rfl
    · rw [m.truth_conj, htruth, Meaning.truth, Meaning.truth.list_eq_map]
  | or args ih =>
    rw [noEmptyAnd, noEmptyAnd.list_iff] at he
    rw [tables, tables.list_eq_map, unions_subset] at h
    obtain ⟨parts, -, hall, -, htruth⟩ := exists_parts fun e hmem => ih e hmem (he e hmem) (h e hmem)
    refine ⟨disj parts, by rw [restrict, hall, Option.map_some], fun R m a => ?_⟩
    rw [m.truth_disj, htruth, Meaning.truth, Meaning.truth.list_eq_map]
  | _ => exact ⟨_, if_pos h, fun _ _ _ => rfl⟩

end Expr

namespace Meaning

/-- A restricted condition holds wherever the condition itself does. -/
theorem holds_restrict (m : Meaning R) {ts : TableSet} {c p : Expr} (h : c.restrict ts = some p)
    {a : Row R} (hc : m.holds c a = true) : m.holds p a = true := by
  induction c generalizing p with
  | and args ih =>
    obtain ⟨_, parts, ⟨⟩, rfl, hparts⟩ | ⟨_, _, ⟨⟩, _⟩ | ⟨_, rfl⟩ := Expr.restrict_cases h
    · rw [holds_conj]
      intro q hq
      obtain ⟨e, he, heq⟩ := hparts q hq
      exact ih e he heq (m.holds_and.1 hc e he)
    · exact hc
  | or args ih =>
    obtain ⟨_, _, ⟨⟩, _⟩ | ⟨_, parts, ⟨⟩, rfl, hparts⟩ | ⟨_, rfl⟩ := Expr.restrict_cases h
    · rw [holds_disj]
      obtain ⟨e, he, hhe⟩ := m.holds_or.1 hc
      obtain ⟨q, hq, heq⟩ := (Expr.mem_restrict_all hparts).2 e he
      exact ⟨q, hq, ih e he heq hhe⟩
    · exact hc
  | _ =>
    obtain ⟨_, _, ⟨⟩, _⟩ | ⟨_, _, ⟨⟩, _⟩ | ⟨_, rfl⟩ := Expr.restrict_cases h
    exact hc

end Meaning

namespace Expr

/-- **A restricted condition is implied by the condition, on the tables that it may read.** It reads tables
of the condition alone and none that it may not read, it is true wherever the condition is, and restricting
it again does not change it. Where the condition may read all of its tables and has no empty conjunctions, it
can be restricted, and what is left is true, false and unknown where the condition is. -/
theorem restrict_implied (e : Expr) (ts : TableSet) :
    (∀ p, e.restrict ts = some p → p.tables ⊆ ts ∧ p.tables ⊆ e.tables ∧
      (∀ (R : Type) (m : Meaning R) (a : Row R), m.holds e a = true → m.holds p a = true) ∧
      p.restrict ts = some p) ∧
    (e.noEmptyAnd = true → e.tables ⊆ ts → ∃ p, e.restrict ts = some p ∧
      ∀ (R : Type) (m : Meaning R) (a : Row R), m.truth p a = m.truth e a) := by
  refine ⟨fun p hp => ?_, fun he hts => keptBy_of_tables_subset he hts⟩
  have hagain : p.restrict ts = some p := by
    have htwice := restrict_bind_restrict (Subset.refl ts) e
    rwa [hp, Option.bind_some] at htwice
  exact ⟨tables_subset_of_restrict hp, tables_restrict_subset hp, fun R m a => m.holds_restrict hp, hagain⟩

/-- The column `x` of a table is NULL. -/
def nullAt (i : Nat) : Expr := .isNull (.column ⟨i, "t", "x", .int⟩)

/-- `(n0 AND (n1 OR n0)) OR n0`, where `ni` is that the column of the table `i` is NULL. -/
def nullChoice : Expr := .or [.and [nullAt 0, .or [nullAt 1, nullAt 0]], nullAt 0]

theorem restrict_implied_nullChoice :
    nullChoice.restrict {0} = some (.or [nullAt 0, nullAt 0]) ∧
      (let p : Expr := .or [nullAt 0, nullAt 0]
       p.tables ⊆ {0} ∧ p.tables ⊆ nullChoice.tables ∧
        (∀ (R : Type) (m : Meaning R) (a : Row R), m.holds nullChoice a = true → m.holds p a = true) ∧
        p.restrict {0} = some p) ∧
      nullChoice.noEmptyAnd = true ∧ nullChoice.tables ⊆ {0, 1} ∧
      ∃ p, nullChoice.restrict {0, 1} = some p ∧
        ∀ (R : Type) (m : Meaning R) (a : Row R), m.truth p a = m.truth nullChoice a := by
  have hpart : nullChoice.restrict {0} = some (.or [nullAt 0, nullAt 0]) := rfl
  have hempty : nullChoice.noEmptyAnd = true := rfl
  have hts : nullChoice.tables ⊆ {0, 1} := by decide
  exact ⟨hpart, (restrict_implied nullChoice {0}).1 _ hpart, hempty, hts,
    (restrict_implied nullChoice {0, 1}).2 hempty hts⟩

/-- A conjunction of no arguments is true, but it cannot be restricted. -/
example : (and []).restrict {0} = none := rfl

end Expr

end QueryGraph
