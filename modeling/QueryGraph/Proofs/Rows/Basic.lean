import Mathlib.Data.Multiset.Bind
import Mathlib.Data.Multiset.Filter
import QueryGraph.BitSet.Lemmas
import QueryGraph.JoinKind

/-!
# Rows and joins

What joins do to bags of rows.

## The model

A row of a result takes a record from each of the tables that it is made of, and nothing from the
others. A row that has been padded with NULL takes nothing from the padded tables, so padding needs
no definition of its own: a row without a partner is the row by itself. Two rows are put together by
taking from the second what the first has nothing of.

A bag counts how often each row occurs. The order of rows is not kept, and neither is that of tables.
-/

namespace QueryGraph

open BitSet

variable {R : Type}

/-- A row of a result: the record that it takes from the table of each number, if it takes one. -/
abbrev Row (R : Type) := Nat → Option R

/-- Rows with their multiplicities. -/
abbrev Bag (R : Type) := Multiset (Row R)

namespace Row

/-- The row that takes nothing from any table. -/
def nothing : Row R := fun _ => none

/-- The row that takes one record, from the only table of the set. -/
def single (ts : TableSet) (r : R) : Row R := fun i => if i ∈ ts then some r else none

/-- Two rows put together. -/
def merge (a b : Row R) : Row R := fun i => (a i).or (b i)

/-- The row takes nothing from other tables than these. -/
def Within (ts : TableSet) (a : Row R) : Prop := ∀ i, i ∉ ts → a i = none

/-- The rows take the same from these tables. -/
def Agree (ts : TableSet) (a b : Row R) : Prop := ∀ i ∈ ts, a i = b i

theorem merge_nothing (a : Row R) : a.merge nothing = a := funext fun _ => Option.or_none

theorem merge_assoc (a b c : Row R) : (a.merge b).merge c = a.merge (b.merge c) :=
  funext fun _ => Option.or_assoc

theorem Within.mono {ts us : TableSet} {a : Row R} (h : a.Within ts) (hsub : ts ⊆ us) :
    a.Within us := fun i hi => h i fun hts => hi (subset_iff.1 hsub i hts)

theorem within_single (ts : TableSet) (r : R) : (single ts r).Within ts := fun _ hi => if_neg hi

theorem Within.merge {ts us : TableSet} {a b : Row R} (ha : a.Within ts) (hb : b.Within us) :
    (a.merge b).Within (ts ∪ us) := by
  intro i hi
  rw [mem_union, not_or] at hi
  rw [Row.merge, ha i hi.1, hb i hi.2, Option.or_none]

/-- What the second row has nothing of comes from the first. -/
theorem agree_merge_left {ts us : TableSet} {b : Row R} (hb : b.Within us)
    (h : ∀ i ∈ ts, i ∉ us) (a : Row R) : (a.merge b).Agree ts a := by
  intro i hi
  rw [merge, hb i (h i hi), Option.or_none]

/-- What the first row has nothing of comes from the second. -/
theorem agree_merge_right {ts us : TableSet} {a : Row R} (ha : a.Within us)
    (h : ∀ i ∈ ts, i ∉ us) (b : Row R) : (a.merge b).Agree ts b := by
  intro i hi
  rw [merge, ha i (h i hi), Option.none_or]

/-- Rows of different tables may be put together in any order. -/
theorem merge_comm {ts us : TableSet} {a b : Row R} (ha : a.Within ts) (hb : b.Within us)
    (h : ∀ i ∈ ts, i ∉ us) : a.merge b = b.merge a := by
  funext i
  by_cases hi : i ∈ ts
  · rw [agree_merge_left hb h a i hi, merge, hb i (h i hi), Option.none_or]
  · rw [merge, merge, ha i hi, Option.none_or, Option.or_none]

/-- Of three rows, the last two may change places. -/
theorem merge_right_comm {ts us : TableSet} (a : Row R) {b c : Row R} (hb : b.Within ts)
    (hc : c.Within us) (h : ∀ i ∈ ts, i ∉ us) : (a.merge b).merge c = (a.merge c).merge b := by
  rw [merge_assoc, merge_comm hb hc h, merge_assoc]

end Row

namespace JoinKind

/-- The rows of a bag that the condition lets go with a row. -/
def partners (p : Row R → Bool) (r : Bag R) (a : Row R) : Bag R := r.filter fun b => p (a.merge b)

/-- The row on the left has a partner in the bag on the right. -/
def Matched (p : Row R → Bool) (r : Bag R) (a : Row R) : Prop := ∃ b ∈ r, p (a.merge b) = true

/-- The row on the right is a partner of one in the bag on the left. -/
def Taken (p : Row R → Bool) (l : Bag R) (b : Row R) : Prop := ∃ a ∈ l, p (a.merge b) = true

instance (p : Row R → Bool) (r : Bag R) (a : Row R) : Decidable (Matched p r a) :=
  Multiset.decidableExistsMultiset

instance (p : Row R → Bool) (l : Bag R) (b : Row R) : Decidable (Taken p l b) :=
  Multiset.decidableExistsMultiset

/-- What a row on the left becomes in a join with the bag on the right. -/
def outputs (p : Row R → Bool) (r : Bag R) (a : Row R) : JoinKind → Bag R
  | inner => (partners p r a).map a.merge
  | left => if Matched p r a then (partners p r a).map a.merge else {a}
  | semi => if Matched p r a then {a} else 0
  | anti => if Matched p r a then 0 else {a}
  | full => if Matched p r a then (partners p r a).map a.merge else {a}

/-- What is left of the bag on the right: in a full join, the rows that are no partners. -/
def unclaimed (p : Row R → Bool) (l r : Bag R) : JoinKind → Bag R
  | full => r.filter fun b => ¬ Taken p l b
  | _ => 0

/-- The rows of a join of two bags on a condition. -/
def rows (p : Row R → Bool) (l r : Bag R) (k : JoinKind) : Bag R :=
  (l.bind fun a => k.outputs p r a) + k.unclaimed p l r

theorem mem_partners {p : Row R → Bool} {r : Bag R} {a b : Row R} :
    b ∈ partners p r a ↔ b ∈ r ∧ p (a.merge b) = true := Multiset.mem_filter

/-- Joins whose rows may take something from the right side. -/
def showsRight (k : JoinKind) : Bool := k ≠ semi && k ≠ anti

/-- A row on the left becomes itself, or it is put together with partners. -/
theorem mem_outputs {p : Row R → Bool} {r : Bag R} {k : JoinKind} {a x : Row R}
    (h : x ∈ k.outputs p r a) :
    x = a ∧ k ≠ inner ∨ k.showsRight = true ∧ ∃ b ∈ r, p (a.merge b) = true ∧ x = a.merge b := by
  have hpartner (h : x ∈ (partners p r a).map a.merge) :
      ∃ b ∈ r, p (a.merge b) = true ∧ x = a.merge b := by
    obtain ⟨b, hb, rfl⟩ := Multiset.mem_map.1 h
    exact ⟨b, (mem_partners.1 hb).1, (mem_partners.1 hb).2, rfl⟩
  cases k with
  | inner => exact .inr ⟨rfl, hpartner h⟩
  | left =>
    rw [outputs] at h
    split at h
    · exact .inr ⟨rfl, hpartner h⟩
    · exact .inl ⟨Multiset.mem_singleton.1 h, nofun⟩
  | semi =>
    rw [outputs] at h
    split at h
    · exact .inl ⟨Multiset.mem_singleton.1 h, nofun⟩
    · exact absurd h (Multiset.notMem_zero x)
  | anti =>
    rw [outputs] at h
    split at h
    · exact absurd h (Multiset.notMem_zero x)
    · exact .inl ⟨Multiset.mem_singleton.1 h, nofun⟩
  | full =>
    rw [outputs] at h
    split at h
    · exact .inr ⟨rfl, hpartner h⟩
    · exact .inl ⟨Multiset.mem_singleton.1 h, nofun⟩

theorem mem_unclaimed {p : Row R → Bool} {l r : Bag R} {k : JoinKind} {x : Row R}
    (h : x ∈ k.unclaimed p l r) : k = full ∧ x ∈ r := by
  cases k with
  | full => exact ⟨rfl, (Multiset.mem_filter.1 h).1⟩
  | _ => exact absurd h (Multiset.notMem_zero x)

/-- A row of a join is a row of the left side, a row of the right side of a full join, or one of
each side put together. -/
theorem mem_rows {p : Row R → Bool} {l r : Bag R} {k : JoinKind} {x : Row R}
    (h : x ∈ k.rows p l r) : x ∈ l ∨ (k = full ∧ x ∈ r) ∨
      (k.showsRight = true ∧ ∃ a ∈ l, ∃ b ∈ r, p (a.merge b) = true ∧ x = a.merge b) := by
  rcases Multiset.mem_add.1 h with h | h
  · obtain ⟨a, ha, hx⟩ := Multiset.mem_bind.1 h
    rcases mem_outputs hx with ⟨rfl, -⟩ | ⟨hk, b, hb, hp, rfl⟩
    · exact .inl ha
    · exact .inr (.inr ⟨hk, a, ha, b, hb, hp, rfl⟩)
  · exact .inr (.inl (mem_unclaimed h))

/-- The tables that rows of a join may take from: those of the left side, and those of the right
side unless it only decides which rows stay. -/
def scope (ts us : TableSet) (k : JoinKind) : TableSet := if k.showsRight then ts ∪ us else ts

theorem scope_subset (ts us : TableSet) (k : JoinKind) : k.scope ts us ⊆ ts ∪ us := by
  unfold scope
  split
  · exact Subset.refl _
  · exact subset_union_left ts us

theorem subset_scope (ts us : TableSet) (k : JoinKind) : ts ⊆ k.scope ts us := by
  unfold scope
  split
  · exact subset_union_left ts us
  · exact Subset.refl ts

/-- Rows of a join take nothing from other tables than the rows of its sides do. -/
theorem within_rows {p : Row R → Bool} {l r : Bag R} {ts us : TableSet} (k : JoinKind)
    (hl : ∀ a ∈ l, a.Within ts) (hr : ∀ b ∈ r, b.Within us) :
    ∀ x ∈ k.rows p l r, x.Within (k.scope ts us) := by
  intro x hx
  rcases mem_rows hx with hxl | ⟨rfl, hxr⟩ | ⟨hk, a, ha, b, hb, -, rfl⟩
  · exact (hl x hxl).mono (subset_scope ts us k)
  · exact (hr x hxr).mono (subset_union_right ts us)
  · rw [scope, if_pos hk]
    exact (hl a ha).merge (hr b hb)

theorem matched_congr {p q : Row R → Bool} {r : Bag R} {a : Row R}
    (h : ∀ b ∈ r, p (a.merge b) = q (a.merge b)) : Matched p r a ↔ Matched q r a :=
  exists_congr fun b => and_congr_right fun hb => by rw [h b hb]

/-- Conditions that agree on all pairs make the same of a row. -/
theorem outputs_congr {p q : Row R → Bool} {r : Bag R} {a : Row R} (k : JoinKind)
    (h : ∀ b ∈ r, p (a.merge b) = q (a.merge b)) : k.outputs p r a = k.outputs q r a := by
  have hpartners : partners p r a = partners q r a :=
    Multiset.filter_congr fun b hb => by rw [h b hb]
  cases k <;> simp only [outputs, hpartners, matched_congr h]

/-- Conditions that agree on all pairs of rows give the same join. -/
theorem rows_congr {p q : Row R → Bool} {l r : Bag R} (k : JoinKind)
    (h : ∀ a ∈ l, ∀ b ∈ r, p (a.merge b) = q (a.merge b)) : k.rows p l r = k.rows q l r := by
  have houtputs : (l.bind fun a => k.outputs p r a) = l.bind fun a => k.outputs q r a :=
    Multiset.bind_congr fun a ha => outputs_congr k (h a ha)
  have htaken : ∀ b ∈ r, Taken p l b ↔ Taken q l b := fun b hb =>
    exists_congr fun a => and_congr_right fun ha => by rw [h a ha b hb]
  have hunclaimed : k.unclaimed p l r = k.unclaimed q l r := by
    cases k with
    | full => exact Multiset.filter_congr fun b hb => not_congr (htaken b hb)
    | _ => rfl
  rw [rows, rows, houtputs, hunclaimed]

end JoinKind

end QueryGraph
