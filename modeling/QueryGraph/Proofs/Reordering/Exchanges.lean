import QueryGraph.Proofs.Reordering.Exactness

/-!
# Exchanging two joins

What a positive verdict on two neighbouring joins says of their results.

## The model

The two joins have three inputs, one of which they both read. An input may be any bag of rows over the
tables of a tree, whatever the tree makes of its own tables. Nor does it matter how conditions are
evaluated: an `Interpretation` says of every condition and row whether the condition is true, false or
unknown, as long as that depends on no tables but those that the condition reads. It is only asked for
that conditions are not true where they are said to reject NULL.

Seen from the input that both joins read, the three exchanges are one: associativity is the exchange on
the middle input, left asscom that on the first and right asscom that on the last.

## What is proved

* `onto_comm_of_exchanges` — joins may be exchanged if the verdict is positive and was not given by
  mistake.
* `associative_keeps_rows`, `rightAsscom_keeps_rows` — so verdicts on associativity and right asscom are
  sound.
* `leftAsscom_keeps_rows_iff` — verdicts on left asscom are, too, but for a left join above a full join:
  there the left join has to refuse rows without the input in common, which the verdict does not ask for
  (`leftAsscom_misjudged`).
-/

namespace QueryGraph

open BitSet

variable {R : Type}

/-- Whether conditions are true, false or unknown on rows. -/
structure Interpretation (R : Type) where
  /-- The truth value of a condition on a row. -/
  truth : Expr → Row R → Option Bool
  /-- It depends on the tables that the condition reads. -/
  truth_congr : ∀ (c : Expr) (x y : Row R), x.Agree c.tables y → truth c x = truth c y

/-- What a meaning says of whole conditions. -/
def Meaning.interpretation (m : Meaning R) : Interpretation R := ⟨m.truth, fun c _ _ => m.truth_congr c⟩

namespace Interpretation

variable {v : Interpretation R}

/-- All conditions are true of the row. -/
def holdsAll (v : Interpretation R) (cs : List Expr) (x : Row R) : Bool :=
  cs.all fun c => v.truth c x = some true

/-- The condition is not true of rows that take nothing from a table on which it is said to reject
NULL. -/
def RejectsRightly (v : Interpretation R) (c : Expr) : Prop :=
  ∀ i ∈ c.rejected, ∀ x : Row R, x i = none → v.truth c x ≠ some true

/-- Rows that take nothing from the tables do not go through the conditions. -/
def Refuses (v : Interpretation R) (cs : List Expr) (ts : TableSet) : Prop :=
  ∀ x : Row R, (∀ i ∈ ts, x i = none) → v.holdsAll cs x = false

theorem holdsAll_iff {cs : List Expr} {x : Row R} :
    v.holdsAll cs x = true ↔ ∀ c ∈ cs, v.truth c x = some true := by
  simp only [holdsAll, List.all_eq_true, decide_eq_true_eq]

theorem holdsAll_congr {cs : List Expr} {x y : Row R} (h : ∀ c ∈ cs, x.Agree c.tables y) :
    v.holdsAll cs x = v.holdsAll cs y := by
  rw [Bool.eq_iff_iff, holdsAll_iff, holdsAll_iff]
  exact forall₂_congr fun c hc => by rw [v.truth_congr c x y (h c hc)]

/-- Conditions ignore the tables that they do not read. -/
theorem ignores_holdsAll {cs : List Expr} {ts us : TableSet} (hreads : ∀ c ∈ cs, c.tables ⊆ ts)
    (h : ∀ i ∈ ts, i ∉ us) : JoinKind.Ignores (v.holdsAll cs) us := fun _ _ hxy =>
  holdsAll_congr fun c hc i hi => hxy i (h i (subset_iff.1 (hreads c hc) i hi))

theorem Refuses.rejects {cs : List Expr} {ts us : TableSet} (h : v.Refuses cs ts)
    (hdisjoint : ∀ i ∈ ts, i ∉ us) : JoinKind.Rejects (v.holdsAll cs) us := fun x hx =>
  h x fun i hi => hx i (hdisjoint i hi)

end Interpretation

theorem Meaning.RejectsRightly.interpretation {m : Meaning R} {c : Expr} (h : m.RejectsRightly c) :
    m.interpretation.RejectsRightly c := fun i hi x hx htrue => by
  have hholds := h i hi x hx
  rw [m.holds_iff.2 htrue] at hholds
  cases hholds

/-- The rows of a join. -/
def JoinInfo.rows (v : Interpretation R) (info : JoinInfo) (l r : Bag R) : Bag R :=
  info.kind.rows (v.holdsAll info.allConds) l r

/-- A join whose main input is on the given side. -/
def JoinInfo.onto (v : Interpretation R) (info : JoinInfo) (s : Side) (main rest : Bag R) : Bag R :=
  info.kind.onto s (v.holdsAll info.allConds) main rest

/-! ### Two joins on one main input -/

/-- The join `n`, seen from its side `s`, and the join `a`, seen from its side `sa`, let each other's
rows pass, where the main input of both has these tables. -/
structure Interpretation.Exchangeable (v : Interpretation R) (main : TableSet) (n : JoinInfo) (s : Side)
    (a : JoinInfo) (sa : Side) : Prop where
  /-- The upper join shows its side. -/
  shown : n.kind.shows s = true
  /-- The lower join shows its side. -/
  shown' : a.kind.shows sa = true
  /-- What the upper join keeps without a partner passes through the lower one. -/
  passes : n.kind.keeps s.other = true → a.kind.keeps sa = true ∧ v.Refuses a.allConds main
  /-- What the lower join keeps without a partner passes through the upper one. -/
  passes' : a.kind.keeps sa.other = true → n.kind.keeps s = true ∧ v.Refuses n.allConds main

section

variable {v : Interpretation R} {n a : JoinInfo} {s sa : Side} {main near far : TableSet}
  {x y z : Bag R}

/-- Exchangeable joins may be applied in either order. -/
theorem Interpretation.Exchangeable.onto_comm (h : v.Exchangeable main n s a sa)
    (hnear : ∀ i ∈ main, i ∉ near) (hfar : ∀ i ∈ main, i ∉ far) (hapart : ∀ i ∈ near, i ∉ far)
    (ha : ∀ c ∈ a.allConds, c.tables ⊆ main ∪ near) (hn : ∀ c ∈ n.allConds, c.tables ⊆ main ∪ far)
    (hx : ∀ r ∈ x, r.Within main) (hy : ∀ r ∈ y, r.Within near) (hz : ∀ r ∈ z, r.Within far) :
    n.onto v s (a.onto v sa x y) z = a.onto v sa (n.onto v s x z) y := by
  let lower : Branch R := ⟨a.kind, sa, v.holdsAll a.allConds, y, near, hy, h.shown'⟩
  let upper : Branch R := ⟨n.kind, s, v.holdsAll n.allConds, z, far, hz, h.shown⟩
  have hrest : ∀ i ∈ main, i ∉ near ∪ far := fun i hi hrest =>
    (mem_union.1 hrest).elim (hnear i hi) (hfar i hi)
  have hignores : JoinKind.Ignores lower.cond upper.tables :=
    Interpretation.ignores_holdsAll ha fun i hi => (mem_union.1 hi).elim (hfar i) (hapart i)
  have hignores' : JoinKind.Ignores upper.cond lower.tables :=
    Interpretation.ignores_holdsAll hn fun i hi => (mem_union.1 hi).elim (hnear i)
      fun hif hin => hapart i hin hif
  have hpasses : Branch.LetsPass lower upper := fun hk =>
    (h.passes hk).imp_right fun hrefuses => hrefuses.rejects hrest
  have hpasses' : Branch.LetsPass upper lower := fun hk =>
    (h.passes' hk).imp_right fun hrefuses => hrefuses.rejects (union_comm near far ▸ hrest)
  exact Branch.apply_comm (a := lower) (b := upper) hx hnear hfar hapart hignores hignores' hpasses
    hpasses'

end

namespace JoinKind

variable {p q : Row R → Bool}

/-- Without rows in the input in common, a left join above finds the partners of a row that the lower
join keeps, and a left join below does not. -/
theorem onto_zero_ne {k : JoinKind} {s : Side} (hk : k.keeps s.other = true) {x y : Row R}
    (h : p (x.merge y) = true) :
    left.rows p (k.onto s q 0 {x}) {y, y} ≠ k.onto s q (left.rows p 0 {y, y}) {x} := by
  intro heq
  have hcard := congrArg Multiset.card heq
  rw [onto_zero hk, left_rows_zero, onto_zero hk, card_left_rows h, Multiset.card_singleton] at hcard
  cases hcard

end JoinKind

/-- The part of a row that it takes from the given tables. -/
def Row.only (ts : TableSet) (x : Row R) : Row R := fun i => if i ∈ ts then x i else none

/-- A left join that may be exchanged with a join below it, whatever the inputs return, refuses rows
without the input in common, if the lower join keeps rows of its other input. -/
theorem Interpretation.refuses_of_onto_comm {v : Interpretation R} {n : JoinInfo} (a : JoinInfo)
    {sa : Side} {main far : TableSet} (near : TableSet) (hkind : n.kind = .left)
    (hkeeps : a.kind.keeps sa.other = true) (hfar : ∀ i ∈ main, i ∉ far)
    (hn : ∀ c ∈ n.allConds, c.tables ⊆ main ∪ far)
    (h : ∀ x y z : Bag R, (∀ r ∈ x, r.Within main) → (∀ r ∈ y, r.Within near) →
      (∀ r ∈ z, r.Within far) →
        n.onto v .left (a.onto v sa x y) z = a.onto v sa (n.onto v .left x z) y) :
    v.Refuses n.allConds main := by
  intro x hx
  refine Bool.eq_false_iff.2 fun htrue => ?_
  let w : Row R := x.only far
  have hw : w.Within far := fun i hi => if_neg hi
  have hpair : v.holdsAll n.allConds (Row.nothing.merge w) = true := by
    rw [← htrue]
    refine Interpretation.holdsAll_congr fun c hc i hi => ?_
    rcases mem_union.1 (subset_iff.1 (hn c hc) i hi) with hi | hi
    · rw [hx i hi]
      exact hw i (hfar i hi)
    · exact if_pos hi
  have hempty : ∀ r ∈ (0 : Bag R), r.Within main := fun r hr => absurd hr (Multiset.notMem_zero r)
  have hone : ∀ r ∈ ({Row.nothing} : Bag R), r.Within near := fun r hr i _ => by
    rw [Multiset.mem_singleton.1 hr, Row.nothing]
  have htwo : ∀ r ∈ ({w, w} : Bag R), r.Within far := fun r hr => by
    obtain rfl : r = w := by simpa using hr
    exact hw
  have heq := h 0 {Row.nothing} {w, w} hempty hone htwo
  simp only [JoinInfo.onto, hkind] at heq
  exact JoinKind.onto_zero_ne hkeeps hpair heq

/-! ### Verdicts -/

/-- A join that rejects NULL on a side, as far as the program can tell, refuses rows without what it
reads there. -/
theorem JoinNode.refuses_main_of_rejects {v : Interpretation R} {n : JoinNode} {s : Side}
    {main other : TableSet} (hreads : ∀ c ∈ n.info.allConds, c.tables ⊆ main ∪ other)
    (hapart : ∀ i ∈ (n.side s).tables, i ∉ other) (hv : ∀ c ∈ n.info.allConds, v.RejectsRightly c)
    (h : n.rejects s = true) : v.Refuses n.info.allConds main := by
  obtain ⟨c, hc, hoverlap⟩ := List.any_eq_true.1 h
  obtain ⟨i, hside, hi⟩ := overlaps_iff.1 hoverlap
  have hread := subset_iff.1 (hreads c hc) i (subset_iff.1 c.rejected_subset i hi)
  have hmain : i ∈ main := (mem_union.1 hread).resolve_right (hapart i hside)
  intro x hx
  refine Bool.eq_false_iff.2 fun htrue => ?_
  exact hv c hc i hi x (hx i hmain) (Interpretation.holdsAll_iff.1 htrue c hc)

section

variable {v : Interpretation R} {n a : JoinNode} {s sa : Side} {x y z : Bag R}

/-- Joins with a positive verdict are exchangeable, unless the verdict was given by mistake and the left
join lets rows without the input in common through. -/
theorem JoinNode.exchangeable_main_of_exchanges (hbelow : n.side s = a.tree)
    (hnear : ∀ i ∈ (a.side sa).tables, i ∉ (a.side sa.other).tables)
    (hfar : ∀ i ∈ a.tree.tables, i ∉ (n.side s.other).tables)
    (ha : ∀ c ∈ a.info.allConds, c.tables ⊆ (a.side sa).tables ∪ (a.side sa.other).tables)
    (hn : ∀ c ∈ n.info.allConds, c.tables ⊆ (a.side sa).tables ∪ (n.side s.other).tables)
    (hverdict : n.exchanges s a sa = true)
    (hv : ∀ c ∈ a.info.allConds ++ n.info.allConds, v.RejectsRightly c)
    (hstands : Mistaken n s a sa → v.Refuses n.info.allConds (a.side sa).tables) :
    v.Exchangeable (a.side sa).tables n.info s a.info sa := by
  obtain ⟨hva, hvn⟩ := List.forall_mem_append.1 hv
  by_cases hmistaken : Mistaken n s a sa
  · have hrefuses := hstands hmistaken
    obtain ⟨hkind, rfl, hkind', rfl⟩ := hmistaken
    constructor <;> simp [hkind, hkind', JoinKind.shows, JoinKind.keeps, Side.other, hrefuses]
  · obtain ⟨hshown, hshown', hpasses, hpasses'⟩ := (exchanges_iff hmistaken).1 hverdict
    refine ⟨hshown, hshown', fun hk => ?_, fun hk => ?_⟩
    · exact (hpasses hk).imp_right (refuses_main_of_rejects ha hnear hva)
    · exact (hpasses' hk).imp_right (refuses_main_of_rejects hn (hbelow ▸ hfar) hvn)

end

namespace Tree

/-- The rows of the bag take nothing from other tables than those of the tree. -/
def Covers (t : Tree) (x : Bag R) : Prop := ∀ r ∈ x, r.Within t.tables

theorem covers_rows (m : Meaning R) (db : Contents R) (t : Tree) : t.Covers (t.rows m db) :=
  within_tables m db t

/-- Joins with a positive verdict may be applied in either order, unless the verdict was given by
mistake and the left join lets rows without the input in common through. -/
theorem onto_comm_of_exchanges {v : Interpretation R} (n a : JoinNode) (s sa : Side)
    (hbelow : n.side s = a.tree)
    (hnear : (a.side sa).tables.overlaps (a.side sa.other).tables = false)
    (hfar : (a.side sa).tables.overlaps (n.side s.other).tables = false)
    (hapart : (a.side sa.other).tables.overlaps (n.side s.other).tables = false)
    (ha : ∀ c ∈ a.info.allConds, c.tables ⊆ (a.side sa).tables ∪ (a.side sa.other).tables)
    (hn : ∀ c ∈ n.info.allConds, c.tables ⊆ (a.side sa).tables ∪ (n.side s.other).tables)
    (hverdict : n.exchanges s a sa = true)
    (hv : ∀ c ∈ a.info.allConds ++ n.info.allConds, v.RejectsRightly c)
    (hstands : JoinNode.Mistaken n s a sa → v.Refuses n.info.allConds (a.side sa).tables)
    {x y z : Bag R} (hx : (a.side sa).Covers x) (hy : (a.side sa.other).Covers y)
    (hz : (n.side s.other).Covers z) :
    n.info.onto v s (a.info.onto v sa x y) z = a.info.onto v sa (n.info.onto v s x z) y := by
  rw [overlaps_eq_false_iff] at hnear hfar hapart
  have hbelow_apart : ∀ i ∈ a.tree.tables, i ∉ (n.side s.other).tables := by
    intro i hi
    obtain ⟨u, hu⟩ := mem_tables_tree.1 hi
    rcases Side.eq_or_eq_other u sa with rfl | rfl
    · exact hfar i hu
    · exact hapart i hu
  have hex := JoinNode.exchangeable_main_of_exchanges hbelow hnear hbelow_apart ha hn hverdict hv hstands
  exact hex.onto_comm hnear hfar hapart ha hn hx hy hz

/-- A table without filters. -/
def sampleTable (i : Nat) : Tree := .leaf i (Spine.leaf i ∅)

/-- A join on the equality of the columns of two tables. -/
def sampleJoin (k : JoinKind) (i j : Nat) : JoinInfo := { kind := k, conds := JoinGraph.matching i j }

theorem rejectsRightly_sampleJoins (k k' : JoinKind) (i j i' j' : Nat) :
    ∀ c ∈ (sampleJoin k i j).allConds ++ (sampleJoin k' i' j').allConds,
      Dialect.plain.meaning.RejectsRightly c :=
  List.forall_mem_append.2
    ⟨JoinGraph.rejectsRightly_matching i j, JoinGraph.rejectsRightly_matching i' j'⟩

section

variable {i j : Nat} {a b : JoinInfo} {t₁ t₂ t₃ : Tree}

/-- **Verdicts on associativity are sound.** If the join `a` reads the first two of three inputs, the
join `b` the last two and the verdict is positive, then `(t₁ a t₂) b t₃` and `t₁ a (t₂ b t₃)` return the
same rows, whatever the inputs return and whatever conditions mean, as long as these reject NULL as
said. -/
theorem associative_keeps_rows (h₁₂ : t₁.tables.overlaps t₂.tables = false)
    (h₁₃ : t₁.tables.overlaps t₃.tables = false) (h₂₃ : t₂.tables.overlaps t₃.tables = false)
    (ha : ∀ c ∈ a.allConds, c.tables ⊆ t₁.tables ∪ t₂.tables)
    (hb : ∀ c ∈ b.allConds, c.tables ⊆ t₂.tables ∪ t₃.tables)
    (hverdict : (JoinNode.operator ⟨i, a, t₁, t₂⟩).associative
      (JoinNode.operator ⟨j, b, join i a t₁ t₂, t₃⟩) = true) :
    (∀ v : Interpretation R, (∀ c ∈ a.allConds ++ b.allConds, v.RejectsRightly c) →
      ∀ x₁ x₂ x₃ : Bag R, t₁.Covers x₁ → t₂.Covers x₂ → t₃.Covers x₃ →
        b.rows v (a.rows v x₁ x₂) x₃ = a.rows v x₁ (b.rows v x₂ x₃)) ∧
    ∀ m : Meaning R, (∀ c ∈ a.allConds ++ b.allConds, m.RejectsRightly c) → ∀ db,
      (join j b (join i a t₁ t₂) t₃).rows m db = (join i a t₁ (join j b t₂ t₃)).rows m db := by
  have hexchange (v : Interpretation R) (hv : ∀ c ∈ a.allConds ++ b.allConds, v.RejectsRightly c)
      (x₁ x₂ x₃ : Bag R) (h₁ : t₁.Covers x₁) (h₂ : t₂.Covers x₂) (h₃ : t₃.Covers x₃) :
      b.rows v (a.rows v x₁ x₂) x₃ = a.rows v x₁ (b.rows v x₂ x₃) :=
    onto_comm_of_exchanges ⟨j, b, join i a t₁ t₂, t₃⟩ ⟨i, a, t₁, t₂⟩ .left .right rfl
      (overlaps_comm t₁.tables t₂.tables ▸ h₁₂) h₂₃ h₁₃
      (fun c hc => union_comm t₁.tables t₂.tables ▸ ha c hc) hb hverdict hv nofun h₂ h₁ h₃
  refine ⟨hexchange, fun m hm db => ?_⟩
  exact hexchange m.interpretation (fun c hc => (hm c hc).interpretation) _ _ _ (covers_rows m db t₁)
    (covers_rows m db t₂) (covers_rows m db t₃)

/-- `t0 ⟗ t1` and `⟗ t2`, where equal columns match: the middle table is in common. -/
theorem associative_keeps_rows_matching :
    (sampleTable 0).tables.overlaps (sampleTable 1).tables = false ∧
    (sampleTable 0).tables.overlaps (sampleTable 2).tables = false ∧
    (sampleTable 1).tables.overlaps (sampleTable 2).tables = false ∧
    (∀ c ∈ (sampleJoin .full 0 1).allConds, c.tables ⊆ (sampleTable 0).tables ∪ (sampleTable 1).tables) ∧
    (∀ c ∈ (sampleJoin .full 1 2).allConds, c.tables ⊆ (sampleTable 1).tables ∪ (sampleTable 2).tables) ∧
    (JoinNode.operator ⟨2, sampleJoin .full 0 1, sampleTable 0, sampleTable 1⟩).associative
      (JoinNode.operator ⟨4, sampleJoin .full 1 2,
        join 2 (sampleJoin .full 0 1) (sampleTable 0) (sampleTable 1), sampleTable 2⟩) = true ∧
    (∀ c ∈ (sampleJoin .full 0 1).allConds ++ (sampleJoin .full 1 2).allConds,
      Dialect.plain.meaning.RejectsRightly c) ∧
    ∀ db, (join 4 (sampleJoin .full 1 2) (join 2 (sampleJoin .full 0 1) (sampleTable 0) (sampleTable 1))
        (sampleTable 2)).rows Dialect.plain.meaning db =
      (join 2 (sampleJoin .full 0 1) (sampleTable 0) (join 4 (sampleJoin .full 1 2) (sampleTable 1)
        (sampleTable 2))).rows Dialect.plain.meaning db := by
  have hrejects := rejectsRightly_sampleJoins .full .full 0 1 1 2
  refine ⟨by decide, by decide, by decide, by decide, by decide, by decide, hrejects, ?_⟩
  exact (associative_keeps_rows (by decide) (by decide) (by decide) (by decide) (by decide)
    (by decide)).2 Dialect.plain.meaning hrejects

/-- **Verdicts on right asscom are sound.** If the join `a` reads the first and the last of three inputs,
the join `b` the last two and the verdict is positive, then `t₁ a (t₂ b t₃)` and `t₂ b (t₁ a t₃)` return
the same rows. -/
theorem rightAsscom_keeps_rows (h₁₂ : t₁.tables.overlaps t₂.tables = false)
    (h₁₃ : t₁.tables.overlaps t₃.tables = false) (h₂₃ : t₂.tables.overlaps t₃.tables = false)
    (ha : ∀ c ∈ a.allConds, c.tables ⊆ t₁.tables ∪ t₃.tables)
    (hb : ∀ c ∈ b.allConds, c.tables ⊆ t₂.tables ∪ t₃.tables)
    (hverdict : (JoinNode.operator ⟨i, a, t₁, join j b t₂ t₃⟩).rightAsscom
      (JoinNode.operator ⟨j, b, t₂, t₃⟩) = true) :
    (∀ v : Interpretation R, (∀ c ∈ a.allConds ++ b.allConds, v.RejectsRightly c) →
      ∀ x₁ x₂ x₃ : Bag R, t₁.Covers x₁ → t₂.Covers x₂ → t₃.Covers x₃ →
        a.rows v x₁ (b.rows v x₂ x₃) = b.rows v x₂ (a.rows v x₁ x₃)) ∧
    ∀ m : Meaning R, (∀ c ∈ a.allConds ++ b.allConds, m.RejectsRightly c) → ∀ db,
      (join i a t₁ (join j b t₂ t₃)).rows m db = (join j b t₂ (join i a t₁ t₃)).rows m db := by
  rw [overlaps_comm] at h₁₂ h₁₃ h₂₃
  rw [union_comm] at ha hb
  have hexchange (v : Interpretation R) (hv : ∀ c ∈ a.allConds ++ b.allConds, v.RejectsRightly c)
      (x₁ x₂ x₃ : Bag R) (h₁ : t₁.Covers x₁) (h₂ : t₂.Covers x₂) (h₃ : t₃.Covers x₃) :
      a.rows v x₁ (b.rows v x₂ x₃) = b.rows v x₂ (a.rows v x₁ x₃) :=
    onto_comm_of_exchanges ⟨i, a, t₁, join j b t₂ t₃⟩ ⟨j, b, t₂, t₃⟩ .right .right rfl h₂₃ h₁₃ h₁₂ hb ha
      hverdict (fun c hc => hv c (List.mem_append.2 (List.mem_append.1 hc).symm)) nofun h₃ h₂ h₁
  refine ⟨hexchange, fun m hm db => ?_⟩
  exact hexchange m.interpretation (fun c hc => (hm c hc).interpretation) _ _ _ (covers_rows m db t₁)
    (covers_rows m db t₂) (covers_rows m db t₃)

/-- `t0 ⟗ (t1 ⟗ t2)`, where columns equal to one of the last table match. -/
theorem rightAsscom_keeps_rows_matching :
    (sampleTable 0).tables.overlaps (sampleTable 1).tables = false ∧
    (sampleTable 0).tables.overlaps (sampleTable 2).tables = false ∧
    (sampleTable 1).tables.overlaps (sampleTable 2).tables = false ∧
    (∀ c ∈ (sampleJoin .full 0 2).allConds, c.tables ⊆ (sampleTable 0).tables ∪ (sampleTable 2).tables) ∧
    (∀ c ∈ (sampleJoin .full 1 2).allConds, c.tables ⊆ (sampleTable 1).tables ∪ (sampleTable 2).tables) ∧
    (JoinNode.operator ⟨4, sampleJoin .full 0 2, sampleTable 0,
        join 3 (sampleJoin .full 1 2) (sampleTable 1) (sampleTable 2)⟩).rightAsscom
      (JoinNode.operator ⟨3, sampleJoin .full 1 2, sampleTable 1, sampleTable 2⟩) = true ∧
    (∀ c ∈ (sampleJoin .full 0 2).allConds ++ (sampleJoin .full 1 2).allConds,
      Dialect.plain.meaning.RejectsRightly c) ∧
    ∀ db, (join 4 (sampleJoin .full 0 2) (sampleTable 0) (join 3 (sampleJoin .full 1 2) (sampleTable 1)
        (sampleTable 2))).rows Dialect.plain.meaning db =
      (join 3 (sampleJoin .full 1 2) (sampleTable 1) (join 4 (sampleJoin .full 0 2) (sampleTable 0)
        (sampleTable 2))).rows Dialect.plain.meaning db := by
  have hrejects := rejectsRightly_sampleJoins .full .full 0 2 1 2
  refine ⟨by decide, by decide, by decide, by decide, by decide, by decide, hrejects, ?_⟩
  exact (rightAsscom_keeps_rows (by decide) (by decide) (by decide) (by decide) (by decide)
    (by decide)).2 Dialect.plain.meaning hrejects

/-- **Where verdicts on left asscom are sound.** If the join `a` reads the first two of three inputs, the
join `b` the first and the last and the verdict is positive, then `(t₁ a t₂) b t₃` and `(t₁ b t₃) a t₂`
return the same rows, unless `a` is a full join and `b` a left join. Of these they do, whatever the
inputs return, just if the left join refuses rows without the first input. It does if it rejects NULL on
its left side, but the verdict looks at its right side. -/
theorem leftAsscom_keeps_rows_iff (h₁₂ : t₁.tables.overlaps t₂.tables = false)
    (h₁₃ : t₁.tables.overlaps t₃.tables = false) (h₂₃ : t₂.tables.overlaps t₃.tables = false)
    (ha : ∀ c ∈ a.allConds, c.tables ⊆ t₁.tables ∪ t₂.tables)
    (hb : ∀ c ∈ b.allConds, c.tables ⊆ t₁.tables ∪ t₃.tables)
    (hverdict : (JoinNode.operator ⟨i, a, t₁, t₂⟩).leftAsscom
      (JoinNode.operator ⟨j, b, join i a t₁ t₂, t₃⟩) = true) :
    (∀ v : Interpretation R, (∀ c ∈ a.allConds ++ b.allConds, v.RejectsRightly c) →
      ((∀ x₁ x₂ x₃ : Bag R, t₁.Covers x₁ → t₂.Covers x₂ → t₃.Covers x₃ →
          b.rows v (a.rows v x₁ x₂) x₃ = a.rows v (b.rows v x₁ x₃) x₂) ↔
        (a.kind = .full → b.kind = .left → v.Refuses b.allConds t₁.tables)) ∧
      ((JoinNode.operator ⟨j, b, join i a t₁ t₂, t₃⟩).rejectsNull (t₁.tables ∪ t₂.tables) = true →
        v.Refuses b.allConds t₁.tables)) ∧
    ∀ m : Meaning R, (∀ c ∈ a.allConds ++ b.allConds, m.RejectsRightly c) →
      (a.kind = .full → b.kind = .left → m.interpretation.Refuses b.allConds t₁.tables) → ∀ db,
      (join j b (join i a t₁ t₂) t₃).rows m db = (join i a (join j b t₁ t₃) t₂).rows m db := by
  have hexchange (v : Interpretation R) (hv : ∀ c ∈ a.allConds ++ b.allConds, v.RejectsRightly c)
      (hstands : a.kind = .full → b.kind = .left → v.Refuses b.allConds t₁.tables)
      (x₁ x₂ x₃ : Bag R) (h₁ : t₁.Covers x₁) (h₂ : t₂.Covers x₂) (h₃ : t₃.Covers x₃) :
      b.rows v (a.rows v x₁ x₂) x₃ = a.rows v (b.rows v x₁ x₃) x₂ :=
    onto_comm_of_exchanges ⟨j, b, join i a t₁ t₂, t₃⟩ ⟨i, a, t₁, t₂⟩ .left .left rfl h₁₂ h₁₃ h₂₃ ha hb
      hverdict hv (fun hmistaken => hstands hmistaken.2.2.1 hmistaken.1) h₁ h₂ h₃
  refine ⟨fun v hv => ⟨⟨fun hsame hfull hleft => ?_, hexchange v hv⟩, fun hrejects => ?_⟩,
    fun m hm hstands db => ?_⟩
  · have hkeeps : a.kind.keeps Side.left.other = true := by rw [hfull]; rfl
    exact Interpretation.refuses_of_onto_comm a t₂.tables hleft hkeeps (overlaps_eq_false_iff.1 h₁₃) hb
      hsame
  · refine JoinNode.refuses_main_of_rejects (n := ⟨j, b, join i a t₁ t₂, t₃⟩) (s := .left) hb
      (fun i hi => ?_) (fun c hc => hv c (List.mem_append_right _ hc)) hrejects
    exact (mem_union.1 hi).elim (overlaps_eq_false_iff.1 h₁₃ i) (overlaps_eq_false_iff.1 h₂₃ i)
  · exact hexchange m.interpretation (fun c hc => (hm c hc).interpretation) hstands _ _ _
      (covers_rows m db t₁) (covers_rows m db t₂) (covers_rows m db t₃)

/-- `t0 ⟗ t1` and `⟕ t2`, where equal columns match: the left join rejects NULL on both sides. -/
theorem leftAsscom_keeps_rows_matching :
    (sampleTable 0).tables.overlaps (sampleTable 1).tables = false ∧
    (sampleTable 0).tables.overlaps (sampleTable 2).tables = false ∧
    (sampleTable 1).tables.overlaps (sampleTable 2).tables = false ∧
    (∀ c ∈ (sampleJoin .full 0 1).allConds, c.tables ⊆ (sampleTable 0).tables ∪ (sampleTable 1).tables) ∧
    (∀ c ∈ (sampleJoin .left 0 2).allConds, c.tables ⊆ (sampleTable 0).tables ∪ (sampleTable 2).tables) ∧
    (JoinNode.operator ⟨2, sampleJoin .full 0 1, sampleTable 0, sampleTable 1⟩).leftAsscom
      (JoinNode.operator ⟨4, sampleJoin .left 0 2,
        join 2 (sampleJoin .full 0 1) (sampleTable 0) (sampleTable 1), sampleTable 2⟩) = true ∧
    (∀ c ∈ (sampleJoin .full 0 1).allConds ++ (sampleJoin .left 0 2).allConds,
      Dialect.plain.meaning.RejectsRightly c) ∧
    Dialect.plain.meaning.interpretation.Refuses (sampleJoin .left 0 2).allConds (sampleTable 0).tables ∧
    ∀ db, (join 4 (sampleJoin .left 0 2) (join 2 (sampleJoin .full 0 1) (sampleTable 0) (sampleTable 1))
        (sampleTable 2)).rows Dialect.plain.meaning db =
      (join 2 (sampleJoin .full 0 1) (join 4 (sampleJoin .left 0 2) (sampleTable 0) (sampleTable 2))
        (sampleTable 1)).rows Dialect.plain.meaning db := by
  have hrejects := rejectsRightly_sampleJoins .full .left 0 1 0 2
  have hreads : ∀ c ∈ (sampleJoin .left 0 2).allConds,
      c.tables ⊆ (sampleTable 0).tables ∪ (sampleTable 2).tables := by decide
  have hrefuses : Dialect.plain.meaning.interpretation.Refuses (sampleJoin .left 0 2).allConds
      (sampleTable 0).tables :=
    JoinNode.refuses_main_of_rejects (n := ⟨4, sampleJoin .left 0 2, sampleTable 0, sampleTable 2⟩)
      (s := .left) hreads (overlaps_eq_false_iff.1 (by decide))
      (fun c hc => (hrejects c (List.mem_append_right _ hc)).interpretation) (by decide)
  refine ⟨by decide, by decide, by decide, by decide, hreads, by decide, hrejects, hrefuses, ?_⟩
  exact (leftAsscom_keeps_rows_iff (by decide) (by decide) (by decide) (by decide) (by decide)
    (by decide)).2 Dialect.plain.meaning hrejects fun _ _ => hrefuses

end

/-- `(t0 ⟗ t1) ⟕ t2`, where the left join asks for `t0.x IS NULL` and `t2.x = 1`: it rejects NULL on its
right side, so the verdict is positive, and it takes a row of `t1` by itself for one of `t0 ⟗ t1`. -/
theorem leftAsscom_misjudged :
    (sampleTable 0).tables.overlaps (sampleTable 1).tables = false ∧
    (sampleTable 0).tables.overlaps (sampleTable 2).tables = false ∧
    (sampleTable 1).tables.overlaps (sampleTable 2).tables = false ∧
    (∀ c ∈ (sampleJoin .full 0 1).allConds, c.tables ⊆ (sampleTable 0).tables ∪ (sampleTable 1).tables) ∧
    (∀ c ∈ JoinGraph.halfRejecting, c.tables ⊆ (sampleTable 0).tables ∪ (sampleTable 2).tables) ∧
    (JoinNode.operator ⟨2, sampleJoin .full 0 1, sampleTable 0, sampleTable 1⟩).leftAsscom
      (JoinNode.operator ⟨4, { kind := .left, conds := JoinGraph.halfRejecting },
        join 2 (sampleJoin .full 0 1) (sampleTable 0) (sampleTable 1), sampleTable 2⟩) = true ∧
    (∀ c ∈ (sampleJoin .full 0 1).allConds ++ JoinGraph.halfRejecting,
      Dialect.plain.meaning.RejectsRightly c) ∧
    ∃ db, (join 4 { kind := .left, conds := JoinGraph.halfRejecting }
        (join 2 (sampleJoin .full 0 1) (sampleTable 0) (sampleTable 1))
        (sampleTable 2)).rows Dialect.plain.meaning db ≠
      (join 2 (sampleJoin .full 0 1) (join 4 { kind := .left, conds := JoinGraph.halfRejecting }
        (sampleTable 0) (sampleTable 2)) (sampleTable 1)).rows Dialect.plain.meaning db := by
  refine ⟨by decide, by decide, by decide, by decide, by decide, by decide, ?_, ?_⟩
  · refine List.forall_mem_append.2 ⟨JoinGraph.rejectsRightly_matching 0 1, fun c hc => ?_⟩
    rcases List.mem_pair.1 hc with rfl | rfl
    · exact fun i hi => absurd hi (not_mem_empty i)
    · refine Dialect.plain.meaning_rejectsRightly (Dialect.plain.rejectsRightly_of_strictOperands ?_)
      exact .compare _ (Dialect.plain.strict_column _) (Dialect.plain.strict_literal _)
  · let r := JoinGraph.record (.int 1)
    let db : Contents Assignment := Spine.contents .left r
    have hrows (i : Nat) : (sampleTable i).rows Dialect.plain.meaning db =
        (db i).map (Row.single {i}) := Spine.rows_leaf _ _ _ _ _
    have hzero : (sampleTable 0).rows Dialect.plain.meaning db = 0 := hrows 0
    have hone : (sampleTable 1).rows Dialect.plain.meaning db = {Row.single {1} r} := hrows 1
    have htwo : (sampleTable 2).rows Dialect.plain.meaning db =
        {Row.single {2} r, Row.single {2} r} := hrows 2
    have htrue : Dialect.plain.meaning.holdsAll JoinGraph.halfRejecting
        ((Row.single {1} r).merge (Row.single {2} r)) = true := by decide +kernel
    refine ⟨db, ?_⟩
    rw [rows, rows, rows, rows, hzero, hone, htwo]
    exact JoinKind.onto_zero_ne (k := .full) (s := .left) rfl htrue

end Tree

end QueryGraph
