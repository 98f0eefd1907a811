import QueryGraph.BitSet.Lemmas
import QueryGraph.Proofs.Iterators

/-!
# Going through the bits of a word

The list of the members of a set is what an iterator gives that takes one member after the other.

## The model

The iterator keeps the word of the members that it has not given yet (`next?`). Each call gives the number of
the lowest set bit and clears it with `w &&& (w - 1)`. Subtraction on words goes round at zero, so the calls are
told with a subtraction that fails there (`pred?`), and what is proved of them includes that it never does.

## What is proved

* `yields_iff` — the calls come to an end, with the list of the members.
* `length_toList_eq_one_iff` — sets with one member are those whose list has one entry.
* `listed_toList` — what the list, the test for one member and the least member have to do with the bits.
-/

namespace QueryGraph.BitSet

/-! ### Subtraction that may fail -/

/-- The word less one, if that is not below zero. -/
def pred? (w : UInt64) : Option UInt64 := if 1 ≤ w then some (w - 1) else none

/-- The set without its least member, if no number falls below zero on the way. -/
def eraseLeast? (s : BitSet) : Option BitSet := (pred? s.word).map fun p => ⟨s.word &&& p⟩

/-- Whether the set has exactly one member, if no number falls below zero on the way. The empty set is told
apart before anything is subtracted. -/
def isSingleton? (s : BitSet) : Option Bool :=
  if s = ∅ then some false else s.eraseLeast?.map fun t => decide (t = ∅)

/-- One call of the iterator: a member and the set of those that are left, or the end. None at the outside if a
number falls below zero. -/
def next? (s : BitSet) : Option (Option (Nat × BitSet)) :=
  if s = ∅ then some none else s.eraseLeast?.map fun t => some (s.least, t)

theorem eraseLeast?_eq {s : BitSet} (h : s ≠ ∅) : s.eraseLeast? = some s.eraseLeast := by
  have hle : 1 ≤ s.word := UInt64.le_iff_toNat_le.2 (toNat_pos h)
  rw [eraseLeast?, pred?, if_pos hle]
  rfl

/-- Nothing falls below zero when a single member is looked for. -/
theorem isSingleton?_eq (s : BitSet) : s.isSingleton? = some s.isSingleton := by
  rw [isSingleton?, isSingleton]
  split
  next h => simp [h]
  next h => simp [eraseLeast?_eq h, h]

theorem next?_empty : next? ∅ = some none := rfl

theorem next?_eq {s : BitSet} (h : s ≠ ∅) : s.next? = some (some (s.least, s.eraseLeast)) := by
  rw [next?, if_neg h, eraseLeast?_eq h]
  rfl

/-! ### Call after call -/

/-- What a call of the iterator returns, if no number falls below zero. -/
def Next (s : BitSet) (o : Option (Nat × BitSet)) : Prop := s.next? = some o

theorem Next.unique {s : BitSet} {o o' : Option (Nat × BitSet)} (h : s.Next o) (h' : s.Next o') : o = o' :=
  Option.some.inj (h.symm.trans h')

/-- The iteration comes to an end, since the word becomes smaller with every member. -/
theorem yields_toList (s : BitSet) : Yields Next s s.toList := by
  induction s using toList.induct with
  | case1 =>
    rw [toList, dif_pos rfl]
    exact .done next?_empty
  | case2 s h ih =>
    rw [toList, dif_neg h]
    exact .more (next?_eq h) ih

theorem yields_iff {s : BitSet} {is : List Nat} : Yields Next s is ↔ is = s.toList :=
  ⟨fun h => h.unique s.yields_toList fun _ _ _ => Next.unique, fun h => h ▸ s.yields_toList⟩

/-! ### The list -/

theorem toList_eq {s : BitSet} (h : s ≠ ∅) : s.toList = s.least :: s.eraseLeast.toList := by
  rw [toList, dif_neg h]

theorem toList_eq_nil_iff {s : BitSet} : s.toList = [] ↔ s = ∅ := by
  rw [eq_empty_iff, List.eq_nil_iff_forall_not_mem]
  simp only [mem_toList]

theorem length_toList_eq_one_iff (s : BitSet) : s.toList.length = 1 ↔ s.isSingleton = true := by
  rw [isSingleton, Bool.and_eq_true, decide_eq_true_iff, decide_eq_true_iff]
  by_cases h : s = ∅
  · simp [h, toList_eq_nil_iff.2]
  · rw [toList_eq h, List.length_cons, ← toList_eq_nil_iff (s := s.eraseLeast), ← List.length_eq_zero_iff]
    simp [h]

/-- The list is that of the bits that are set in the word of the set. -/
structure Listed (s : BitSet) (is : List Nat) : Prop where
  /-- Going through the bits comes to an end, with this list and no other, and no number falls below zero. -/
  yields_iff : ∀ js, Yields Next s js ↔ js = is
  /-- The entries are the places of the bits that are set. -/
  mem_iff : ∀ i, i ∈ is ↔ s.word.toNat.testBit i = true
  /-- They increase. -/
  increasing : is.Pairwise (· < ·)
  /-- None of them is too large to be the place of a bit. -/
  lt_width : ∀ i ∈ is, i < 64
  /-- The union of the sets of single entries is the set again. -/
  union_eq : ofList is = s
  /-- To find out whether the set has one member no number falls below zero either. -/
  isSingleton?_eq : s.isSingleton? = some s.isSingleton
  /-- It has one member just if the list has one entry. -/
  isSingleton_iff : s.isSingleton = true ↔ is.length = 1
  /-- The least member of a set with members comes first in the list. -/
  head?_eq : s ≠ ∅ → is.head? = some s.least

/-- **The members are listed bit by bit.** -/
theorem listed_toList (s : BitSet) : s.Listed s.toList where
  yields_iff _ := yields_iff
  mem_iff _ := mem_toList
  increasing := s.pairwise_toList
  lt_width _ hi := lt_of_mem (mem_toList.1 hi)
  union_eq := s.ofList_toList
  isSingleton?_eq := s.isSingleton?_eq
  isSingleton_iff := s.length_toList_eq_one_iff.symm
  head?_eq h := by rw [toList_eq h, List.head?_cons]

/-- The first and the last bit of a word. -/
example : (⟨0x8000000000000001⟩ : BitSet).toList = [0, 63] := by decide +kernel

end QueryGraph.BitSet
