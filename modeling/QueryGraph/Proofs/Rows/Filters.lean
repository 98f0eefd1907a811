import QueryGraph.Proofs.Rows.Basic

/-!
# Filters and joins

When a filter may be evaluated before a join instead of after it.

## The model

A condition takes part in a join in one of two ways: as one more condition of the join itself, or as
a filter of what the join returns. `rowsWith` is the join in both. Which kinds of joins let a
condition into a side is what `opensLeft` and `opensRight` say of the two ways.

## What is proved

* `rowsWith_left`, `rowsWith_right` — a condition on one side alone may filter that side instead.
* `rowsWith_part_left`, `rowsWith_part_right` — a side may be filtered in advance by what a condition
  implies on it.
* `rowsWith_inner` — a filter above an inner join is one of its conditions.
-/

namespace QueryGraph.JoinKind

variable {R : Type} {p c part : Row R → Bool} {l r : Bag R} {own : Bool} {k : JoinKind}

/-- The rows of a join with one more condition: `own` says that it is a condition of the join, and
not a filter above it. -/
def rowsWith (own : Bool) (p c : Row R → Bool) (l r : Bag R) (k : JoinKind) : Bag R :=
  if own then k.rows (fun x => p x && c x) l r else (k.rows p l r).filter fun x => c x

/-- Rows that become nothing need not be there. -/
theorem bind_filter {f : Row R → Bag R} (h : ∀ a ∈ l, part a = false → f a = 0) :
    ((l.filter fun a => part a).bind f) = l.bind f := by
  rw [Multiset.bind_filter]
  refine Multiset.bind_congr fun a ha => ?_
  split
  · rfl
  next hpart => exact (h a ha (Bool.eq_false_iff.2 hpart)).symm

theorem unclaimed_of_ne_full (h : k ≠ full) : k.unclaimed p l r = 0 := by
  cases k with
  | full => exact absurd rfl h
  | _ => rfl

theorem rows_of_ne_full (h : k ≠ full) : k.rows p l r = l.bind fun a => k.outputs p r a := by
  rw [rows, unclaimed_of_ne_full h, add_zero]

/-- A condition that is true of all rows changes nothing. -/
theorem rowsWith_of_holds (hk : k ≠ full)
    (hl : ∀ a ∈ l, c a = true) (hlr : ∀ a ∈ l, ∀ b ∈ r, c (a.merge b) = true) :
    k.rowsWith own p c l r = k.rows p l r := by
  unfold rowsWith
  split
  next =>
    refine rows_congr k fun a ha b hb => ?_
    rw [hlr a ha b hb, Bool.and_true]
  next =>
    refine Multiset.filter_eq_self.2 fun x hx => ?_
    rcases mem_rows hx with ha | ⟨hfull, -⟩ | ⟨-, a, ha, b, hb, -, rfl⟩
    · exact hl x ha
    · exact absurd hfull hk
    · exact hlr a ha b hb

/-! ### The left side -/

theorem ne_full_of_opensLeft (h : k.opensLeft own = true) : k ≠ full := by
  rintro rfl
  cases own <;> cases h

theorem innerLike_of_opensLeft (h : k.opensLeft true = true) : k.innerLike = true := by
  cases k <;> first | rfl | cases h

/-- A row without a partner is lost in an inner join and in a semijoin. -/
theorem outputs_eq_zero (hk : k.innerLike = true) {a : Row R}
    (h : ∀ b ∈ r, p (a.merge b) = false) : k.outputs p r a = 0 := by
  have hmatched : ¬ Matched p r a := by
    rintro ⟨b, hb, hp⟩
    rw [h b hb] at hp
    cases hp
  have hpartners : partners p r a = 0 := Multiset.filter_eq_nil.2 fun b hb hp =>
    hmatched ⟨b, hb, hp⟩
  cases k with
  | inner => rw [outputs, hpartners, Multiset.map_zero]
  | semi => rw [outputs, if_neg hmatched]
  | _ => cases hk

/-- The left side may be filtered in advance by what the condition implies on it. -/
theorem rowsWith_part_left (hopen : k.opensLeft own = true) (hl : ∀ a ∈ l, c a = true → part a = true)
    (hlr : ∀ a ∈ l, ∀ b ∈ r, c (a.merge b) = true → part a = true) :
    k.rowsWith own p c (l.filter fun a => part a) r = k.rowsWith own p c l r := by
  have hfull := ne_full_of_opensLeft hopen
  have hfalse {a x : Row R} (h : c x = true → part a = true) (ha : part a = false) : c x = false := by
    by_contra hx
    rw [h (Bool.not_eq_false _ ▸ hx)] at ha
    cases ha
  unfold rowsWith
  split
  next hown =>
    subst hown
    rw [rows_of_ne_full hfull, rows_of_ne_full hfull]
    refine bind_filter fun a ha hpart => outputs_eq_zero (innerLike_of_opensLeft hopen) fun b hb => ?_
    rw [hfalse (hlr a ha b hb) hpart, Bool.and_false]
  next hown =>
    rw [rows_of_ne_full hfull, rows_of_ne_full hfull, Multiset.filter_bind, Multiset.filter_bind]
    refine bind_filter fun a ha hpart => Multiset.filter_eq_nil.2 fun x hx hc => ?_
    rcases mem_outputs hx with ⟨rfl, -⟩ | ⟨-, b, hb, -, rfl⟩
    · rw [hfalse (hl x ha) hpart] at hc
      cases hc
    · rw [hfalse (hlr a ha b hb) hpart] at hc
      cases hc

/-- A condition on the left side alone may filter that side instead. -/
theorem rowsWith_left (hopen : k.opensLeft own = true)
    (hlr : ∀ a ∈ l, ∀ b ∈ r, c (a.merge b) = c a) :
    k.rowsWith own p c l r = k.rows p (l.filter fun a => c a) r := by
  rw [← rowsWith_part_left hopen (fun a _ h => h) fun a ha b hb h => (hlr a ha b hb).symm.trans h]
  refine rowsWith_of_holds (ne_full_of_opensLeft hopen) (fun a ha => (Multiset.mem_filter.1 ha).2) ?_
  intro a ha b hb
  obtain ⟨hal, hca⟩ := Multiset.mem_filter.1 ha
  rw [hlr a hal b hb, hca]

/-! ### The right side -/

theorem ne_full_of_opensRight (h : k.opensRight own = true) : k ≠ full := by
  rintro rfl
  cases own <;> cases h

/-- A filter above a join goes to the right through inner joins and semijoins. -/
theorem eq_inner_of_opensRight (h : k.opensRight false = true) (hsemi : k ≠ semi) : k = inner := by
  cases k with
  | inner => rfl
  | semi => exact absurd rfl hsemi
  | _ => cases h

/-- What is no partner of a row plays no part in what the row becomes. -/
theorem outputs_filter {a : Row R} (h : ∀ b ∈ r, p (a.merge b) = true → part b = true) :
    k.outputs p (r.filter fun b => part b) a = k.outputs p r a := by
  have hpartners : partners p (r.filter fun b => part b) a = partners p r a := by
    rw [partners, partners, Multiset.filter_filter]
    exact Multiset.filter_congr fun b hb => and_iff_left_of_imp (h b hb)
  have hmatched : Matched p (r.filter fun b => part b) a ↔ Matched p r a := by
    constructor
    · rintro ⟨b, hb, hp⟩
      exact ⟨b, (Multiset.mem_filter.1 hb).1, hp⟩
    · rintro ⟨b, hb, hp⟩
      exact ⟨b, Multiset.mem_filter.2 ⟨hb, h b hb hp⟩, hp⟩
  cases k <;> simp only [outputs, hpartners, hmatched]

/-- A filter above an inner join is one of its conditions. -/
theorem rowsWith_inner : inner.rowsWith false p c l r = inner.rows (fun x => p x && c x) l r := by
  have hfull : inner ≠ full := nofun
  rw [rowsWith, if_neg Bool.false_ne_true, rows_of_ne_full hfull, rows_of_ne_full hfull,
    Multiset.filter_bind]
  refine Multiset.bind_congr fun a _ => ?_
  rw [outputs, outputs, partners, partners, Multiset.filter_map, Multiset.filter_filter]
  congr 1
  exact Multiset.filter_congr fun b _ => by simp [and_comm]

/-- The right side may be filtered in advance by what the condition implies on it. -/
theorem rowsWith_part_right (hopen : k.opensRight own = true) (hsemi : own = false → k ≠ semi)
    (hlr : ∀ a ∈ l, ∀ b ∈ r, c (a.merge b) = true → part b = true) :
    k.rowsWith own p c l (r.filter fun b => part b) = k.rowsWith own p c l r := by
  have hpairs (k : JoinKind) (hfull : k ≠ full) :
      k.rows (fun x => p x && c x) l (r.filter fun b => part b) =
        k.rows (fun x => p x && c x) l r := by
    rw [rows_of_ne_full hfull, rows_of_ne_full hfull]
    refine Multiset.bind_congr fun a ha => outputs_filter fun b hb h => ?_
    exact hlr a ha b hb (Bool.and_eq_true _ _ ▸ h).2
  cases own with
  | true => exact hpairs k (ne_full_of_opensRight hopen)
  | false =>
    rw [eq_inner_of_opensRight hopen (hsemi rfl), rowsWith_inner, rowsWith_inner, hpairs inner nofun]

/-- A condition on the right side alone may filter that side instead. -/
theorem rowsWith_right (hopen : k.opensRight own = true) (hsemi : own = false → k ≠ semi)
    (hlr : ∀ a ∈ l, ∀ b ∈ r, c (a.merge b) = c b) :
    k.rowsWith own p c l r = k.rows p l (r.filter fun b => c b) := by
  rw [← rowsWith_part_right hopen hsemi fun a ha b hb h => (hlr a ha b hb).symm.trans h]
  have hpairs (k : JoinKind) :
      k.rows (fun x => p x && c x) l (r.filter fun b => c b) = k.rows p l (r.filter fun b => c b) := by
    refine rows_congr k fun a ha b hb => ?_
    obtain ⟨hbr, hcb⟩ := Multiset.mem_filter.1 hb
    rw [hlr a ha b hbr, hcb, Bool.and_true]
  cases own with
  | true => exact hpairs k
  | false =>
    rw [eq_inner_of_opensRight hopen (hsemi rfl), rowsWith_inner, hpairs inner]

end QueryGraph.JoinKind
