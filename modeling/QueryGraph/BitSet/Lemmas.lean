import QueryGraph.BitSet.Basic

/-!
# Membership in sets of small numbers

What the operations on sets do to their members. With these lemmas nobody has to look at the bits:
two sets with the same members are equal (`ext`), and inclusion, overlap and the list of members are
read off membership.
-/

namespace QueryGraph.BitSet

theorem mem_def {i : Nat} {s : BitSet} : i ∈ s ↔ s.word.toNat.testBit i = true := Iff.rfl

/-- Members are below 64. -/
theorem lt_of_mem {i : Nat} {s : BitSet} (h : i ∈ s) : i < 64 := by
  rw [mem_def] at h
  rcases Nat.lt_or_ge i 64 with hi | hi
  · exact hi
  · have hlt : s.word.toNat < 2 ^ i :=
      Nat.lt_of_lt_of_le s.word.toNat_lt (Nat.pow_le_pow_right (by decide) hi)
    rw [Nat.testBit_lt_two_pow hlt] at h
    cases h

/-- Two sets with the same members are equal. -/
theorem ext {s t : BitSet} (h : ∀ i, i ∈ s ↔ i ∈ t) : s = t := by
  have hw : s.word = t.word := by
    refine UInt64.toNat_inj.1 (Nat.eq_of_testBit_eq fun i => ?_)
    have hi := h i
    rw [mem_def, mem_def] at hi
    exact Bool.eq_iff_iff.2 hi
  cases s; cases t; cases hw; rfl

@[simp] theorem not_mem_empty (i : Nat) : i ∉ (∅ : BitSet) := by
  show ¬ (0 : UInt64).toNat.testBit i = true
  simp

@[simp] theorem mem_union {i : Nat} {s t : BitSet} : i ∈ s ∪ t ↔ i ∈ s ∨ i ∈ t := by
  show (s.word ||| t.word).toNat.testBit i = true ↔ _
  rw [UInt64.toNat_or, Nat.testBit_or, Bool.or_eq_true]
  exact Iff.rfl

@[simp] theorem mem_inter {i : Nat} {s t : BitSet} : i ∈ s ∩ t ↔ i ∈ s ∧ i ∈ t := by
  show (s.word &&& t.word).toNat.testBit i = true ↔ _
  rw [UInt64.toNat_and, Nat.testBit_and, Bool.and_eq_true]
  exact Iff.rfl

/-- A number below 64 is the one member of its singleton. -/
theorem mem_singleton {i j : Nat} (hi : i < 64) : j ∈ ({i} : BitSet) ↔ j = i := by
  have hword : ((1 : UInt64) <<< i.toUInt64).toNat = 2 ^ i := by
    have hmod : i.toUInt64.toNat = i := by
      show (UInt64.ofNat i).toNat = i
      rw [UInt64.toNat_ofNat']
      exact Nat.mod_eq_of_lt (by omega)
    rw [UInt64.toNat_shiftLeft, hmod, Nat.mod_eq_of_lt hi, UInt64.toNat_one, Nat.shiftLeft_eq,
      Nat.one_mul]
    exact Nat.mod_eq_of_lt (Nat.pow_lt_pow_right (by decide) hi)
  show ((1 : UInt64) <<< i.toUInt64).toNat.testBit j = true ↔ _
  rw [hword, Nat.testBit_two_pow]
  simp [eq_comm]

/-- Numbers are taken up to multiples of 64. -/
theorem singleton_mod (i : Nat) : ({i % 64} : BitSet) = {i} := by
  have hword : (1 : UInt64) <<< (i % 64).toUInt64 = 1 <<< i.toUInt64 := by
    refine UInt64.toNat_inj.1 ?_
    have hmod (j : Nat) : j.toUInt64.toNat = j % 2 ^ 64 := UInt64.toNat_ofNat'
    rw [UInt64.toNat_shiftLeft, UInt64.toNat_shiftLeft, hmod, hmod]
    congr 2
    omega
  exact congrArg BitSet.mk hword

theorem singleton_ne_empty (i : Nat) : ({i} : BitSet) ≠ ∅ := by
  have hmem : i % 64 ∈ ({i} : BitSet) :=
    singleton_mod i ▸ (mem_singleton (Nat.mod_lt i (by decide))).2 rfl
  intro h
  rw [h] at hmem
  exact not_mem_empty _ hmem

theorem eq_empty_iff {s : BitSet} : s = ∅ ↔ ∀ i, i ∉ s := by
  constructor
  · rintro rfl i
    exact not_mem_empty i
  · intro h
    exact ext fun i => ⟨fun hi => absurd hi (h i), fun hi => absurd hi (not_mem_empty i)⟩

theorem ne_empty_iff {s : BitSet} : s ≠ ∅ ↔ ∃ i, i ∈ s := by
  rw [Ne, eq_empty_iff, Classical.not_forall]
  simp

theorem subset_iff {s t : BitSet} : s ⊆ t ↔ ∀ i, i ∈ s → i ∈ t := by
  show s ∩ t = s ↔ _
  constructor
  · intro h i hi
    rw [← h, mem_inter] at hi
    exact hi.2
  · intro h
    exact ext fun i => by rw [mem_inter]; exact ⟨And.left, fun hi => ⟨hi, h i hi⟩⟩

theorem not_subset_iff {s t : BitSet} : ¬ s ⊆ t ↔ ∃ i ∈ s, i ∉ t := by
  rw [subset_iff]
  simp

theorem overlaps_iff {s t : BitSet} : s.overlaps t = true ↔ ∃ i, i ∈ s ∧ i ∈ t := by
  rw [overlaps, decide_eq_true_iff, ne_empty_iff]
  simp only [mem_inter]

/-- Sets that do not overlap have no member in common. -/
theorem overlaps_eq_false_iff {s t : BitSet} : s.overlaps t = false ↔ ∀ i, i ∈ s → i ∉ t := by
  rw [← Bool.not_eq_true, overlaps_iff]
  simp

theorem overlaps_singleton_eq_false_iff {s : BitSet} {i : Nat} (hi : i < 64) :
    s.overlaps {i} = false ↔ i ∉ s := by
  simp only [overlaps_eq_false_iff, mem_singleton hi]
  exact ⟨fun h his => h i his rfl, fun h j hj hji => h (hji ▸ hj)⟩

theorem Subset.refl (s : BitSet) : s ⊆ s := subset_iff.2 fun _ h => h

theorem Subset.trans {s t u : BitSet} (hst : s ⊆ t) (htu : t ⊆ u) : s ⊆ u :=
  subset_iff.2 fun i hi => subset_iff.1 htu i (subset_iff.1 hst i hi)

theorem Subset.antisymm {s t : BitSet} (hst : s ⊆ t) (hts : t ⊆ s) : s = t :=
  ext fun i => ⟨subset_iff.1 hst i, subset_iff.1 hts i⟩

theorem subset_union_left (s t : BitSet) : s ⊆ s ∪ t := subset_iff.2 fun _ h => mem_union.2 (.inl h)

theorem subset_union_right (s t : BitSet) : t ⊆ s ∪ t := subset_iff.2 fun _ h => mem_union.2 (.inr h)

theorem union_comm (s t : BitSet) : s ∪ t = t ∪ s :=
  ext fun i => by rw [mem_union, mem_union, Or.comm]

theorem union_empty (s : BitSet) : s ∪ ∅ = s :=
  ext fun i => by rw [mem_union, or_iff_left (not_mem_empty i)]

theorem union_eq_left {s t : BitSet} (h : t ⊆ s) : s ∪ t = s :=
  ext fun i => by rw [mem_union, or_iff_left_of_imp (subset_iff.1 h i)]

theorem empty_subset (s : BitSet) : ∅ ⊆ s := subset_iff.2 fun i h => absurd h (not_mem_empty i)

theorem union_subset {s t u : BitSet} (hs : s ⊆ u) (ht : t ⊆ u) : s ∪ t ⊆ u :=
  subset_iff.2 fun i hi => (mem_union.1 hi).elim (subset_iff.1 hs i) (subset_iff.1 ht i)

theorem union_mono {s s' t t' : BitSet} (hs : s ⊆ s') (ht : t ⊆ t') : s ∪ t ⊆ s' ∪ t' :=
  union_subset (Subset.trans hs (subset_union_left s' t')) (Subset.trans ht (subset_union_right s' t'))

theorem inter_subset_left (s t : BitSet) : s ∩ t ⊆ s := subset_iff.2 fun _ h => (mem_inter.1 h).1

theorem inter_subset_right (s t : BitSet) : s ∩ t ⊆ t := subset_iff.2 fun _ h => (mem_inter.1 h).2

theorem overlaps_mono {s s' t t' : BitSet} (hs : s ⊆ s') (ht : t ⊆ t') (h : s.overlaps t = true) :
    s'.overlaps t' = true := by
  obtain ⟨i, his, hit⟩ := overlaps_iff.1 h
  exact overlaps_iff.2 ⟨i, subset_iff.1 hs i his, subset_iff.1 ht i hit⟩

theorem subset_inter_iff {s t u : BitSet} (h : s ⊆ u) : s ⊆ t ∩ u ↔ s ⊆ t := by
  simp only [subset_iff, mem_inter]
  exact forall_congr' fun i => imp_congr_right fun hi => and_iff_left (subset_iff.1 h i hi)

theorem overlaps_inter {s t u : BitSet} (h : s ⊆ u) : s.overlaps (t ∩ u) = s.overlaps t := by
  rw [Bool.eq_iff_iff, overlaps_iff, overlaps_iff]
  refine exists_congr fun i => and_congr_right fun hi => ?_
  rw [mem_inter]
  exact and_iff_left (subset_iff.1 h i hi)

theorem inter_mono {s s' t t' : BitSet} (hs : s ⊆ s') (ht : t ⊆ t') : s ∩ t ⊆ s' ∩ t' :=
  subset_iff.2 fun i hi =>
    mem_inter.2 ⟨subset_iff.1 hs i (mem_inter.1 hi).1, subset_iff.1 ht i (mem_inter.1 hi).2⟩

theorem inter_comm (s t : BitSet) : s ∩ t = t ∩ s :=
  ext fun i => by simp only [mem_inter, and_comm]

theorem overlaps_comm (s t : BitSet) : s.overlaps t = t.overlaps s := by
  rw [overlaps, overlaps, inter_comm]

theorem inter_assoc (s t u : BitSet) : s ∩ t ∩ u = s ∩ (t ∩ u) :=
  ext fun i => by simp only [mem_inter, and_assoc]

theorem union_inter (s t u : BitSet) : (s ∪ t) ∩ u = s ∩ u ∪ t ∩ u :=
  ext fun i => by simp only [mem_inter, mem_union, or_and_right]

theorem inter_eq_left {s t : BitSet} (h : s ⊆ t) : s ∩ t = s := h

theorem wantedOrAll_subset (wanted available : BitSet) : wantedOrAll wanted available ⊆ available := by
  unfold wantedOrAll
  split
  · exact inter_subset_right _ _
  · exact Subset.refl _

/-- Of a set with members, some are always taken. -/
theorem wantedOrAll_ne_empty {wanted available : BitSet} (h : available ≠ ∅) :
    wantedOrAll wanted available ≠ ∅ := by
  unfold wantedOrAll
  split
  next ho => simpa [overlaps] using ho
  next => exact h

@[simp] theorem mem_unions {i : Nat} {ss : List BitSet} : i ∈ unions ss ↔ ∃ s ∈ ss, i ∈ s := by
  induction ss with
  | nil => simp [unions]
  | cons s ss ih => simp [unions, ih]

theorem mem_intersections {i : Nat} {ss : List BitSet} :
    i ∈ intersections ss ↔ ss ≠ [] ∧ ∀ s ∈ ss, i ∈ s := by
  induction ss with
  | nil => simp [intersections]
  | cons s ss ih => cases ss with
    | nil => simp [intersections]
    | cons s' ss => rw [intersections, mem_inter, ih] <;> simp

/-- A list of numbers below 64 has the same members as its set. -/
theorem mem_ofList {i : Nat} {is : List Nat} (h : ∀ j ∈ is, j < 64) : i ∈ ofList is ↔ i ∈ is := by
  rw [ofList, mem_unions]
  constructor
  · rintro ⟨s, hs, hi⟩
    obtain ⟨j, hj, rfl⟩ := List.mem_map.1 hs
    exact (mem_singleton (h j hj)).1 hi ▸ hj
  · intro hi
    exact ⟨{i}, List.mem_map.2 ⟨i, hi, rfl⟩, (mem_singleton (h i hi)).2 rfl⟩

/-! ### The least member -/

/-- The lowest set bit of a positive number is set, and clearing it clears no other. -/
theorem testBit_and_pred {n : Nat} (hn : 0 < n) :
    n.testBit (halvings n) = true ∧
      ∀ i, (n &&& (n - 1)).testBit i = true ↔ n.testBit i = true ∧ i ≠ halvings n := by
  induction n using Nat.strongRecOn with
  | _ n ih =>
    rw [halvings]
    by_cases hodd : n % 2 = 1
    · rw [if_pos (Or.inr hodd)]
      refine ⟨by simp [hodd], fun i => ?_⟩
      rw [Nat.testBit_and, Bool.and_eq_true]
      cases i with
      | zero =>
        have heven : (n - 1) % 2 = 0 := by omega
        simp [heven]
      | succ i =>
        have hhalf : (n - 1) / 2 = n / 2 := by omega
        simp [Nat.testBit_succ, hhalf]
    · have hpos : 0 < n / 2 := by omega
      obtain ⟨hset, hclear⟩ := ih (n / 2) (by omega) hpos
      rw [if_neg (by omega)]
      refine ⟨by rw [Nat.testBit_succ]; exact hset, fun i => ?_⟩
      rw [Nat.testBit_and, Bool.and_eq_true]
      cases i with
      | zero =>
        have heven : n % 2 = 0 := by omega
        simp [heven]
      | succ i =>
        have hhalf : (n - 1) / 2 = n / 2 - 1 := by omega
        rw [Nat.testBit_succ, Nat.testBit_succ, hhalf, ← Bool.and_eq_true, ← Nat.testBit_and,
          hclear i]
        simp

theorem toNat_pos {s : BitSet} (h : s ≠ ∅) : 0 < s.word.toNat := by
  obtain ⟨i, hi⟩ := ne_empty_iff.1 h
  rcases Nat.eq_zero_or_pos s.word.toNat with h0 | h0
  · rw [mem_def, h0] at hi
    simp at hi
  · exact h0

/-- The least member is a member. -/
theorem least_mem {s : BitSet} (h : s ≠ ∅) : s.least ∈ s := (testBit_and_pred (toNat_pos h)).1

/-- All members but the least are left. -/
theorem mem_eraseLeast {s : BitSet} (h : s ≠ ∅) {i : Nat} :
    i ∈ s.eraseLeast ↔ i ∈ s ∧ i ≠ s.least := by
  have hpos := toNat_pos h
  have hsub : (s.word - 1).toNat = s.word.toNat - 1 :=
    UInt64.toNat_sub_of_le _ _ (UInt64.le_iff_toNat_le.2 (by rw [UInt64.toNat_one]; exact hpos))
  show (s.word &&& (s.word - 1)).toNat.testBit i = true ↔ _
  rw [UInt64.toNat_and, hsub]
  exact (testBit_and_pred hpos).2 i

/-- A set with exactly one member has no two different ones. -/
theorem eq_of_isSingleton {s : BitSet} (h : s.isSingleton = true) {i j : Nat} (hi : i ∈ s)
    (hj : j ∈ s) : i = j := by
  rw [isSingleton, Bool.and_eq_true, decide_eq_true_iff, decide_eq_true_iff] at h
  have hleast {k : Nat} (hk : k ∈ s) : k = s.least := by
    refine Classical.byContradiction fun hne => ?_
    have hrest := (mem_eraseLeast h.1).2 ⟨hk, hne⟩
    rw [h.2] at hrest
    exact not_mem_empty k hrest
  rw [hleast hi, hleast hj]

theorem isSingleton_iff {s : BitSet} : s.isSingleton = true ↔ ∃ i, ∀ j, j ∈ s ↔ j = i := by
  constructor
  · intro h
    have hne : s ≠ ∅ := of_decide_eq_true (Bool.and_eq_true_iff.1 h).1
    exact ⟨s.least, fun j => ⟨fun hj => eq_of_isSingleton h hj (least_mem hne), fun hj => hj ▸ least_mem hne⟩⟩
  · rintro ⟨i, hi⟩
    have hne : s ≠ ∅ := ne_empty_iff.2 ⟨i, (hi i).2 rfl⟩
    have herase : s.eraseLeast = ∅ := by
      refine eq_empty_iff.2 fun j hj => ?_
      obtain ⟨hmem, hleast⟩ := (mem_eraseLeast hne).1 hj
      exact hleast (((hi j).1 hmem).trans ((hi _).1 (least_mem hne)).symm)
    exact Bool.and_eq_true_iff.2 ⟨decide_eq_true hne, decide_eq_true herase⟩

/-- The bits below the number of halvings are not set. -/
theorem halvings_le_of_testBit {n i : Nat} (h : n.testBit i = true) : halvings n ≤ i := by
  induction n using Nat.strongRecOn generalizing i with
  | _ n ih =>
    rw [halvings]
    split
    · exact Nat.zero_le i
    · cases i with
      | zero =>
        rw [Nat.testBit_zero, decide_eq_true_iff] at h
        omega
      | succ i =>
        rw [Nat.testBit_succ] at h
        exact Nat.succ_le_succ (ih (n / 2) (by omega) h)

/-- No member is less than the least. -/
theorem least_le {s : BitSet} {i : Nat} (h : i ∈ s) : s.least ≤ i := halvings_le_of_testBit h

/-! ### The list of members -/

@[simp] theorem mem_toList {i : Nat} {s : BitSet} : i ∈ s.toList ↔ i ∈ s := by
  induction hn : s.word.toNat using Nat.strongRecOn generalizing s with
  | _ n ih =>
    rw [toList]
    split
    next h => subst h; simp
    next h =>
      rw [List.mem_cons, ih _ (hn ▸ eraseLeast_lt h) rfl, mem_eraseLeast h]
      constructor
      · rintro (rfl | hi)
        · exact least_mem h
        · exact hi.1
      · intro hi
        by_cases hl : i = s.least
        · exact Or.inl hl
        · exact Or.inr ⟨hi, hl⟩

/-- Members are listed in increasing order. -/
theorem pairwise_toList (s : BitSet) : s.toList.Pairwise (· < ·) := by
  induction hn : s.word.toNat using Nat.strongRecOn generalizing s with
  | _ n ih =>
    rw [toList]
    split
    next h => exact List.Pairwise.nil
    next h =>
      refine List.Pairwise.cons (fun j hj => ?_) (ih _ (hn ▸ eraseLeast_lt h) _ rfl)
      obtain ⟨hmem, hne⟩ := (mem_eraseLeast h).1 (mem_toList.1 hj)
      have hle := least_le hmem
      omega

/-- The set of the listed members is the set itself. -/
theorem ofList_toList (s : BitSet) : ofList s.toList = s :=
  ext fun i => by rw [mem_ofList fun j hj => lt_of_mem (mem_toList.1 hj), mem_toList]

end QueryGraph.BitSet
