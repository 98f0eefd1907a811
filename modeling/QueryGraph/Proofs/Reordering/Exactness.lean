import QueryGraph.Proofs.Meaning.NullRejection
import QueryGraph.Proofs.Reordering.Spines

/-!
# When admitted plans are right

The graph of a tree admits only plans that return what the tree does, just when the verdicts on its
joins are right.

## The model

A verdict that says that two joins may change places is right if they are exchangeable. There are two
ways for it to be wrong: a condition may let rows through on which it is said to reject NULL, or the
verdict is the one that looks at the wrong side.

## What is proved

* `admitted_exact` — only these two make verdicts wrong, right verdicts make all admitted plans return
  what the tree does, and for a left join above a join on tables they have to be right for that.
* `admitted_wrongly` — either way leads to a plan that is admitted and returns something else.
* `Dialect.meaning_rejectsRightly` — what a dialect of SQL has to do with it.
-/

namespace QueryGraph

open BitSet

variable {R : Type}

/-- A condition that rejects NULL as said is not true of rows that take nothing from such a table. -/
theorem Dialect.meaning_rejectsRightly (D : Dialect) {c : Expr} (h : D.RejectsRightly c) :
    D.meaning.RejectsRightly c := by
  intro i hi x hx
  have hnull : (columnsOf x).NullAt i := fun d hd => by
    rw [Expr.tables, ← singleton_mod, mem_singleton (Nat.mod_lt _ (by decide))] at hd
    rw [columnsOf, ← hd, hx]
  refine Bool.eq_false_iff.2 fun htrue => h (columnsOf x) i hi hnull ?_
  rw [← D.truth_meaning]
  exact D.meaning.holds_iff.1 htrue

/-- Joins refuse what they are said to reject if their conditions reject NULL as said. -/
theorem Tree.refusing_of_rejectsRightly {m : Meaning R} {t : Tree}
    (h : ∀ n ∈ t.joins, ∀ c ∈ n.info.allConds, m.RejectsRightly c) : t.Refusing m :=
  fun n hn _ hrejects => JoinNode.refuses_of_rejects (h n hn) hrejects

namespace JoinGraph

/-- **Admitted plans are right when verdicts are.** Verdicts on the joins of a tree are right if no
join lets rows through that it is said to reject, and the verdict that looks at the wrong side does no
harm. If they are, every admitted plan returns what the tree does. For a left join that reads one
table below the join on its left side, they also have to be. -/
theorem admitted_exact (m : Meaning R) (est : Estimator) :
    (∀ t : Tree, t.Refusing m → t.Unmistaken m → t.JudgedRightly m) ∧
    (∀ t : Tree, t.Separate → (∀ i ∈ t.numbers, i < 64) → t.Scoped → t.JudgedRightly m →
      ∀ p : Plan, p.Admitted (ofTree est t).value → ∀ db, p.rows m db = t.rows m db) ∧
    ∀ (k : JoinKind) (s : Side) (lower upper : List Expr), k.keeps s.other = true →
      (∀ c ∈ lower, c.tables ⊆ {0} ∪ {1}) → (∀ c ∈ upper, c.tables ⊆ {Spine.number s} ∪ {2}) →
      Spine.number s ∈ Expr.tablesOf upper → 2 ∈ Expr.tablesOf upper →
      m.holdsAll upper Row.nothing = false →
      ((∀ p : Plan, p.Admitted (ofTree est (Spine.tree k lower upper)).value →
          ∀ db, p.rows m db = (Spine.tree k lower upper).rows m db) ↔
        (Spine.tree k lower upper).JudgedRightly m) := by
  refine ⟨fun t hrefusing hunmistaken => Tree.judgedRightly_of_unmistaken hrefusing hunmistaken,
    fun t hsep hnumbers hscoped hjudged p h =>
      rows_of_judgedRightly hsep hnumbers hscoped hjudged h, ?_⟩
  intro k s lower upper hkeeps hlower hupper hnear hright hnothing
  constructor
  · exact Spine.judgedRightly_of_sound est hkeeps hupper hnear hright hnothing
  · intro hjudged p h
    exact rows_of_judgedRightly (Spine.separate_tree k lower upper) (Spine.numbers_tree k lower upper)
      (Spine.scoped_tree hkeeps hlower hupper) hjudged h

/-! ### Samples -/

/-- The equality of the columns of two tables. -/
def matching (i j : Nat) : List Expr :=
  [(Dialect.sampleColumn i).equals (Dialect.sampleColumn j)]

theorem rejectsRightly_matching (i j : Nat) :
    ∀ c ∈ matching i j, Dialect.plain.meaning.RejectsRightly c := by
  intro c hc
  obtain rfl := List.mem_singleton.1 hc
  refine Dialect.plain.meaning_rejectsRightly (Dialect.plain.rejectsRightly_of_strictOperands ?_)
  exact .compare _ (Dialect.plain.strict_column _) (Dialect.plain.strict_column _)

/-- `(t0 ⟕ t1) ⟕ t2`, where equal columns match. The plan `t0 ⟕ (t1 ⟕ t2)` is admitted. -/
theorem admitted_exact_matching :
    (Spine.tree .left (matching 0 1) (matching 1 2)).Refusing Dialect.plain.meaning ∧
    (Spine.tree .left (matching 0 1) (matching 1 2)).Unmistaken Dialect.plain.meaning ∧
    (Spine.tree .left (matching 0 1) (matching 1 2)).Separate ∧
    (∀ i ∈ (Spine.tree .left (matching 0 1) (matching 1 2)).numbers, i < 64) ∧
    (Spine.tree .left (matching 0 1) (matching 1 2)).Scoped ∧
    (Spine.tree .left (matching 0 1) (matching 1 2)).JudgedRightly Dialect.plain.meaning ∧
    (∃ n a, Spine.Shape .left (matching 0 1) (matching 1 2) n a ∧
      (Spine.early n a .right).Admitted
        (ofTree .default (Spine.tree .left (matching 0 1) (matching 1 2))).value ∧
      ∀ db, (Spine.early n a .right).rows Dialect.plain.meaning db =
        (Spine.tree .left (matching 0 1) (matching 1 2)).rows Dialect.plain.meaning db) ∧
    JoinKind.left.keeps Side.right.other = true ∧
    (∀ c ∈ matching 0 1, c.tables ⊆ {0} ∪ {1}) ∧
    (∀ c ∈ matching 1 2, c.tables ⊆ {Spine.number .right} ∪ {2}) ∧
    Spine.number .right ∈ Expr.tablesOf (matching 1 2) ∧ 2 ∈ Expr.tablesOf (matching 1 2) ∧
    Dialect.plain.meaning.holdsAll (matching 1 2) Row.nothing = false ∧
    ((∀ p : Plan, p.Admitted
        (ofTree .default (Spine.tree .left (matching 0 1) (matching 1 2))).value →
          ∀ db, p.rows Dialect.plain.meaning db =
            (Spine.tree .left (matching 0 1) (matching 1 2)).rows Dialect.plain.meaning db) ↔
      (Spine.tree .left (matching 0 1) (matching 1 2)).JudgedRightly Dialect.plain.meaning) := by
  have hexact := admitted_exact Dialect.plain.meaning .default
  have hrefusing : (Spine.tree .left (matching 0 1) (matching 1 2)).Refusing
      Dialect.plain.meaning := by
    refine Tree.refusing_of_rejectsRightly fun n hn => ?_
    rcases List.mem_pair.1 hn with rfl | rfl
    · exact rejectsRightly_matching 0 1
    · exact rejectsRightly_matching 1 2
  have hunmistaken : (Spine.tree .left (matching 0 1) (matching 1 2)).Unmistaken
      Dialect.plain.meaning := by
    intro n hn a ha _ hfull
    rcases List.mem_pair.1 hn with rfl | rfl
    · exact nomatch ha
    · obtain rfl := List.mem_singleton.1 ha
      cases hfull
  have hseparate := Spine.separate_tree .left (matching 0 1) (matching 1 2)
  have hnumbers := Spine.numbers_tree .left (matching 0 1) (matching 1 2)
  have hscoped : (Spine.tree .left (matching 0 1) (matching 1 2)).Scoped := by decide
  have hjudged := hexact.1 _ hrefusing hunmistaken
  obtain ⟨n, a, h, hadmitted, -⟩ := Spine.exists_early (R := Assignment) .default .left .right
    (matching 0 1) (matching 1 2) (by decide) (by decide) (by decide) (by decide) (by decide)
  refine ⟨hrefusing, hunmistaken, hseparate, hnumbers, hscoped, hjudged, ?_, by decide, by decide,
    by decide, by decide, by decide, by decide +kernel, ?_⟩
  · exact ⟨n, a, h, hadmitted, hexact.2.1 _ hseparate hnumbers hscoped hjudged _ hadmitted⟩
  · exact hexact.2.2 .left .right (matching 0 1) (matching 1 2) (by decide) (by decide) (by decide)
      (by decide) (by decide) (by decide +kernel)

/-- `t0.x IS NULL` and `t2.x = 1`. -/
def halfRejecting : List Expr :=
  [.isNull (Dialect.sampleColumn 0), (Dialect.sampleColumn 2).equals (.literal (.int 1))]

/-- `(t1.x AND t2.x) = FALSE`. -/
def denying : List Expr :=
  [(Expr.and [Dialect.sampleColumn 1, Dialect.sampleColumn 2]).equals .never]

/-- The record with the same value in every column. -/
def record (v : Value) : Assignment := fun _ => v

/-- Of `(t0 ⟗ t1) ⟕ t2` the plan `(t0 ⟕ t2) ⟗ t1` is admitted, although the left join does not reject
NULL on `t0`, and of `(t0 ⟕ t1) ⟕ t2` the plan `t0 ⟕ (t1 ⟕ t2)`, although it does not on `t1`. -/
theorem admitted_wrongly :
    ((Spine.tree .full (matching 0 1) halfRejecting).Separate ∧
      (∀ i ∈ (Spine.tree .full (matching 0 1) halfRejecting).numbers, i < 64) ∧
      (Spine.tree .full (matching 0 1) halfRejecting).Scoped ∧
      ∃ n a, Spine.Shape .full (matching 0 1) halfRejecting n a ∧
        (Spine.early n a .left).Admitted
          (ofTree .default (Spine.tree .full (matching 0 1) halfRejecting)).value ∧
        (Spine.early n a .left).rows Dialect.plain.meaning (Spine.contents .left (record (.int 1))) ≠
          (Spine.tree .full (matching 0 1) halfRejecting).rows Dialect.plain.meaning
            (Spine.contents .left (record (.int 1)))) ∧
    ((Spine.tree .left (matching 0 1) denying).Separate ∧
      (∀ i ∈ (Spine.tree .left (matching 0 1) denying).numbers, i < 64) ∧
      (Spine.tree .left (matching 0 1) denying).Scoped ∧
      ∃ n a, Spine.Shape .left (matching 0 1) denying n a ∧
        (Spine.early n a .right).Admitted
          (ofTree .default (Spine.tree .left (matching 0 1) denying)).value ∧
        (Spine.early n a .right).rows Dialect.plain.meaning
            (Spine.contents .right (record (.bool false))) ≠
          (Spine.tree .left (matching 0 1) denying).rows Dialect.plain.meaning
            (Spine.contents .right (record (.bool false)))) := by
  refine ⟨⟨Spine.separate_tree _ _ _, Spine.numbers_tree _ _ _, by decide, ?_⟩,
    Spine.separate_tree _ _ _, Spine.numbers_tree _ _ _, by decide, ?_⟩
  · obtain ⟨n, a, h, hadmitted, hwrong⟩ := Spine.exists_early .default .full .left (matching 0 1)
      halfRejecting (by decide) (by decide) (by decide) (by decide) (by decide)
    exact ⟨n, a, h, hadmitted, hwrong _ _ (by decide +kernel)⟩
  · obtain ⟨n, a, h, hadmitted, hwrong⟩ := Spine.exists_early .default .left .right (matching 0 1)
      denying (by decide) (by decide) (by decide) (by decide) (by decide)
    exact ⟨n, a, h, hadmitted, hwrong _ _ (by decide +kernel)⟩

end JoinGraph

end QueryGraph
