import QueryGraph.Proofs.Meaning.NullRejection
import QueryGraph.Proofs.Passes.Outline
import QueryGraph.Tree.Conditions

/-!
# Which hash keys are usable

A hash join computes one side of a key from its left input and the other side from its right input, and
compares the two. So each side has to read tables of one input and none of the other.

## The model

A join condition becomes a hash key if it is an equality that reads tables of both inputs and has at most one
column on its left. This looks at the tables of the condition as a whole. A side may read both inputs, as in
`t0.x + t1.x = 1`, and a row with one column may be compared with a row that has none or several
(`keys_not_usable`).

## What is proved

* `equatesSides_iff` — a condition equates something of the one input with something of the other just if it
  is a hash key and neither of its two sides reads both inputs.
* `joins_divideKeys` — what the division makes of each join.
* `hashKeys_exact` — so no usable key is missed, and those keys are usable that have two sides of which neither
  reads both inputs.
-/

namespace QueryGraph

open BitSet

namespace Expr

variable {c e l r : Expr} {left right : TableSet}

/-- The two sides of an equality of values, or of rows with one column each. -/
def sides? : Expr → Option (Expr × Expr)
  | compare .eq l r => some (l, r)
  | rowEq [l] [r] => some (l, r)
  | _ => none

/-- The expression reads tables of the one set and none of the other. -/
structure ReadsFrom (e : Expr) (here there : TableSet) : Prop where
  /-- Some table of the one set is read. -/
  reads : e.tables.overlaps here = true
  /-- No table of the other is. -/
  avoids : e.tables.overlaps there = false

/-- The condition equates an expression over the one set of tables with an expression over the other. -/
def EquatesSides (left right : TableSet) (c : Expr) : Prop :=
  ∃ l r, c.sides? = some (l, r) ∧
    (l.ReadsFrom left right ∧ r.ReadsFrom right left ∨ l.ReadsFrom right left ∧ r.ReadsFrom left right)

/-- The expression reads tables of both sets. -/
def Mixes (left right : TableSet) (e : Expr) : Prop :=
  e.tables.overlaps left = true ∧ e.tables.overlaps right = true

instance (left right : TableSet) (e : Expr) : Decidable (e.Mixes left right) :=
  inferInstanceAs (Decidable (_ ∧ _))

/-- The condition has two sides, and neither of them reads tables of both sets. -/
def SidesUnmixed (left right : TableSet) (c : Expr) : Prop :=
  ∃ l r, c.sides? = some (l, r) ∧ ¬ l.Mixes left right ∧ ¬ r.Mixes left right

theorem isHashKey_iff : c.isHashKey left right = true ↔ c.isEquality = true ∧ c.Mixes left right ∧
    c.rowWidth < 2 := by
  simp only [isHashKey, Mixes, Bool.and_eq_true, decide_eq_true_iff, and_assoc]

/-! ### Two sides -/

theorem sides?_eq_some : c.sides? = some (l, r) ↔ c = l.equals r ∨ c = rowEq [l] [r] := by
  constructor
  · intro h
    unfold sides? at h
    split at h
    · cases h
      exact .inl rfl
    · cases h
      exact .inr rfl
    · cases h
  · rintro (rfl | rfl) <;> rfl

theorem tables_of_sides (h : c.sides? = some (l, r)) : c.tables = l.tables ∪ r.tables := by
  rcases sides?_eq_some.1 h with rfl | rfl
  · rfl
  · exact congrArg₂ (· ∪ ·) (union_empty l.tables) (union_empty r.tables)

/-- A condition with two sides reads what the sides read. -/
theorem overlaps_of_sides (h : c.sides? = some (l, r)) (ts : TableSet) :
    c.tables.overlaps ts = true ↔ l.tables.overlaps ts = true ∨ r.tables.overlaps ts = true := by
  rw [tables_of_sides h]
  simp only [overlaps_iff, mem_union, or_and_right, exists_or]

/-- All that a hash key of two sides has to do is to read both sets of tables. -/
theorem isHashKey_of_sides (h : c.sides? = some (l, r)) (hmixes : c.Mixes left right) :
    c.isHashKey left right = true := by
  refine isHashKey_iff.2 ⟨?_, hmixes, ?_⟩
  · rcases sides?_eq_some.1 h with rfl | rfl <;> rfl
  · rcases sides?_eq_some.1 h with rfl | rfl
    · exact Nat.zero_lt_two
    · exact Nat.one_lt_two

/-- Of tables that are all in one of the two sets, those that are read are in the one that is read. -/
theorem ReadsFrom.subset (h : e.ReadsFrom left right) (hsub : e.tables ⊆ left ∪ right) : e.tables ⊆ left :=
  subset_iff.2 fun i hi => (mem_union.1 (subset_iff.1 hsub i hi)).elim id fun hright =>
    absurd hright (overlaps_eq_false_iff.1 h.avoids i hi)

theorem mixes_comm : e.Mixes left right ↔ e.Mixes right left := and_comm

theorem readsFrom_iff :
    e.ReadsFrom left right ↔ e.tables.overlaps left = true ∧ ¬ e.Mixes left right := by
  constructor
  · intro h
    refine ⟨h.reads, fun hmixes => ?_⟩
    have hright := hmixes.2
    rw [h.avoids] at hright
    cases hright
  · rintro ⟨hreads, hmixes⟩
    exact ⟨hreads, Bool.eq_false_iff.2 fun hright => hmixes ⟨hreads, hright⟩⟩

/-- If the condition reads both sets of tables and neither side does, then each side reads one of them. -/
theorem equatesSides_of_mixes (hmixes : c.Mixes left right) (h : c.SidesUnmixed left right) :
    c.EquatesSides left right := by
  obtain ⟨l, r, hsides, hl, hr⟩ := h
  have hl' : ¬ l.Mixes right left := fun hm => hl (mixes_comm.1 hm)
  have hr' : ¬ r.Mixes right left := fun hm => hr (mixes_comm.1 hm)
  refine ⟨l, r, hsides, ?_⟩
  rcases (overlaps_of_sides hsides left).1 hmixes.1 with hleft | hleft
  · rcases (overlaps_of_sides hsides right).1 hmixes.2 with hright | hright
    · exact absurd ⟨hleft, hright⟩ hl
    · exact .inl ⟨readsFrom_iff.2 ⟨hleft, hl⟩, readsFrom_iff.2 ⟨hright, hr'⟩⟩
  · rcases (overlaps_of_sides hsides right).1 hmixes.2 with hright | hright
    · exact .inr ⟨readsFrom_iff.2 ⟨hright, hl'⟩, readsFrom_iff.2 ⟨hleft, hr⟩⟩
    · exact absurd ⟨hleft, hright⟩ hr

/-- A condition equates something of the one input with something of the other just if it is a hash key and
neither of its two sides reads both inputs. -/
theorem equatesSides_iff :
    c.EquatesSides left right ↔ c.isHashKey left right = true ∧ c.SidesUnmixed left right := by
  constructor
  · rintro ⟨l, r, hsides, ⟨hl, hr⟩ | ⟨hl, hr⟩⟩
    · have hmixes : c.Mixes left right :=
        ⟨(overlaps_of_sides hsides left).2 (.inl hl.reads), (overlaps_of_sides hsides right).2 (.inr hr.reads)⟩
      refine ⟨isHashKey_of_sides hsides hmixes, l, r, hsides, (readsFrom_iff.1 hl).2, fun hm => ?_⟩
      exact (readsFrom_iff.1 hr).2 (mixes_comm.1 hm)
    · have hmixes : c.Mixes left right :=
        ⟨(overlaps_of_sides hsides left).2 (.inr hr.reads), (overlaps_of_sides hsides right).2 (.inl hl.reads)⟩
      refine ⟨isHashKey_of_sides hsides hmixes, l, r, hsides, fun hm => ?_, (readsFrom_iff.1 hr).2⟩
      exact (readsFrom_iff.1 hl).2 (mixes_comm.1 hm)
  · rintro ⟨hkey, h⟩
    exact equatesSides_of_mixes (isHashKey_iff.1 hkey).2.1 h

end Expr

/-- The join with its conditions divided into hash keys and others, as are those below it. -/
def JoinNode.divideKeys (n : JoinNode) : JoinNode where
  id := n.id
  info := Tree.divideConds n.left.tables n.right.tables n.info
  left := n.left.divideKeys
  right := n.right.divideKeys

namespace Tree

variable {info : JoinInfo} {left right : TableSet}

theorem joins_divideKeys (t : Tree) : t.divideKeys.joins = t.joins.map JoinNode.divideKeys := by
  induction t with
  | leaf i l => rfl
  | join i info l r ihl ihr =>
    rw [divideKeys, joins, joins, ihl, ihr, List.map_append, List.map_append]
    rfl

/-- Without keys before, the keys are the conditions that are found to be keys. -/
theorem keys_divideConds (h : info.keys = []) :
    (divideConds left right info).keys = info.conds.filter (Expr.isHashKey left right) := by
  rw [divideConds]
  split
  next hempty => rw [h, List.isEmpty_iff.1 hempty, List.filter_nil]
  next => rfl

/-- **Which hash keys are usable.** When the conditions of all joins are divided, every condition that
equates something of the left input with something of the right one becomes a hash key. A key does so just if
it has two sides of which neither reads both inputs, and then each of the two can be computed from one
input. -/
theorem hashKeys_exact {t : Tree}
    (hreads : ∀ n ∈ t.joins, ∀ c ∈ n.info.conds, c.tables ⊆ n.left.tables ∪ n.right.tables)
    (hundivided : ∀ n ∈ t.joins, n.info.keys = []) :
    t.divideKeys.joins = t.joins.map JoinNode.divideKeys ∧ ∀ n ∈ t.joins,
      (∀ c ∈ n.info.conds, c.EquatesSides n.left.tables n.right.tables → c ∈ n.divideKeys.info.keys) ∧
      ∀ c ∈ n.divideKeys.info.keys, c ∈ n.info.conds ∧
        (c.EquatesSides n.left.tables n.right.tables ↔ c.SidesUnmixed n.left.tables n.right.tables) ∧
        (c.EquatesSides n.left.tables n.right.tables → ∃ l r, c.sides? = some (l, r) ∧
          (l.tables ⊆ n.left.tables ∧ r.tables ⊆ n.right.tables ∨
            l.tables ⊆ n.right.tables ∧ r.tables ⊆ n.left.tables)) := by
  refine ⟨joins_divideKeys t, fun n hn => ?_⟩
  have hkeys (c : Expr) : c ∈ n.divideKeys.info.keys ↔
      c ∈ n.info.conds ∧ c.isHashKey n.left.tables n.right.tables = true := by
    rw [JoinNode.divideKeys, keys_divideConds (hundivided n hn), List.mem_filter]
  refine ⟨fun c hc hequates => (hkeys c).2 ⟨hc, (Expr.equatesSides_iff.1 hequates).1⟩, fun c hc => ?_⟩
  obtain ⟨hcond, hkey⟩ := (hkeys c).1 hc
  refine ⟨hcond, by rw [Expr.equatesSides_iff, and_iff_right hkey], ?_⟩
  rintro ⟨l, r, hsides, hside⟩
  have hsub := hreads n hn c hcond
  rw [Expr.tables_of_sides hsides] at hsub
  have hl : l.tables ⊆ n.left.tables ∪ n.right.tables := Subset.trans (subset_union_left _ _) hsub
  have hr : r.tables ⊆ n.left.tables ∪ n.right.tables := Subset.trans (subset_union_right _ _) hsub
  refine ⟨l, r, hsides, hside.imp ?_ ?_⟩
  · rintro ⟨hl', hr'⟩
    exact ⟨hl'.subset hl, hr'.subset (union_comm _ _ ▸ hr)⟩
  · rintro ⟨hl', hr'⟩
    exact ⟨hl'.subset (union_comm _ _ ▸ hl), hr'.subset hr⟩

/-! ### Samples -/

/-- `t0.x + t1.x = 1` -/
def sumTest : Expr :=
  (Expr.call "plus" [Dialect.sampleColumn 0, Dialect.sampleColumn 1] .int).equals (.literal (.int 1))

/-- `(t0.x) = (t1.x, t1.y)` -/
def rowTest : Expr :=
  .rowEq [Dialect.sampleColumn 0] [Dialect.sampleColumn 1, .column ⟨1, "t", "y", .int⟩]

/-- `t0 ⋈ t1` on some conditions. -/
def pairJoin (conds : List Expr) : JoinNode where
  id := 2
  info := { kind := .inner, conds := conds }
  left := .leaf 0 { table := ⟨0, "t"⟩ }
  right := .leaf 1 { table := ⟨1, "t"⟩ }

theorem hashKeys_exact_pair :
    let key : Expr := (Dialect.sampleColumn 0).equals (Dialect.sampleColumn 1)
    let n : JoinNode := pairJoin [key, sumTest]
    (∀ a ∈ n.tree.joins, ∀ c ∈ a.info.conds, c.tables ⊆ a.left.tables ∪ a.right.tables) ∧
      (∀ a ∈ n.tree.joins, a.info.keys = []) ∧ n ∈ n.tree.joins ∧ key ∈ n.divideKeys.info.keys ∧
      key.SidesUnmixed n.left.tables n.right.tables ∧ key.EquatesSides n.left.tables n.right.tables := by
  intro key n
  have hreads : ∀ a ∈ n.tree.joins, ∀ c ∈ a.info.conds, c.tables ⊆ a.left.tables ∪ a.right.tables := by decide
  have hundivided : ∀ a ∈ n.tree.joins, a.info.keys = [] := List.forall_mem_singleton.2 rfl
  have hn : n ∈ n.tree.joins := List.mem_singleton.2 rfl
  have hkey : key ∈ n.divideKeys.info.keys := by
    rw [JoinNode.divideKeys, keys_divideConds rfl]
    exact List.mem_filter.2 ⟨List.mem_cons_self, by decide⟩
  have hunmixed : key.SidesUnmixed n.left.tables n.right.tables :=
    ⟨Dialect.sampleColumn 0, Dialect.sampleColumn 1, rfl, by decide, by decide⟩
  obtain ⟨-, hexact⟩ := hashKeys_exact hreads hundivided
  exact ⟨hreads, hundivided, hn, hkey, hunmixed, ((hexact n hn).2 key hkey).2.1.2 hunmixed⟩

/-- A test of a sum that reads both inputs becomes a hash key, and so does an equality of rows of different
widths. -/
theorem keys_not_usable :
    let t : Tree := (pairJoin [sumTest, rowTest]).tree
    t.Separate ∧ (∀ n ∈ t.joins, ∀ c ∈ n.info.conds, c.tables ⊆ n.left.tables ∪ n.right.tables) ∧
      (∀ n ∈ t.joins, n.info.keys = []) ∧
      ∃ n ∈ t.divideKeys.joins, n.info.keys = [sumTest, rowTest] ∧
        ∀ c ∈ n.info.keys, ¬ c.EquatesSides n.left.tables n.right.tables := by
  intro t
  have hn : (pairJoin [sumTest, rowTest]).divideKeys ∈ t.divideKeys.joins := List.mem_singleton.2 rfl
  have hkeys : (pairJoin [sumTest, rowTest]).divideKeys.info.keys = [sumTest, rowTest] := by
    rw [JoinNode.divideKeys, keys_divideConds rfl]
    exact List.filter_eq_self.2 (by decide)
  refine ⟨by decide, by decide, List.forall_mem_singleton.2 rfl, _, hn, hkeys, ?_⟩
  rw [hkeys, List.forall_mem_cons, List.forall_mem_singleton, Expr.equatesSides_iff, Expr.equatesSides_iff]
  constructor
  · rintro ⟨-, l, r, hsides, hl, -⟩
    cases hsides
    exact hl ⟨by decide, by decide⟩
  · rintro ⟨-, l, r, hsides, -⟩
    cases hsides

end Tree

end QueryGraph
