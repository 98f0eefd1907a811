/-!
# Sets of small numbers

The tables of a query block and the nodes of its hypergraph are numbered from zero, and there are
fewer than 64 of either. A set of them is kept in one machine word.

## The model

`i ∈ s` says that bit `i` of the word is set. Union, intersection and inclusion are the bitwise
operations on the word; `toList` lists the members in increasing order by clearing the lowest set
bit until none is left, which ends because the word becomes smaller.

What is *not* here: complements and numbers from 64 on. A singleton of such a number is taken
modulo 64, as shifting the word does; the callers check the numbers of tables beforehand.
-/

namespace QueryGraph

/-- A set of numbers below 64: bit `i` of `word` is set when `i` is a member. -/
structure BitSet where
  /-- The characteristic bits of the set. -/
  word : UInt64
  deriving DecidableEq, Inhabited

namespace BitSet

instance : EmptyCollection BitSet := ⟨⟨0⟩⟩

instance : Union BitSet := ⟨fun s t => ⟨s.word ||| t.word⟩⟩

instance : Inter BitSet := ⟨fun s t => ⟨s.word &&& t.word⟩⟩

instance : Singleton Nat BitSet := ⟨fun i => ⟨1 <<< i.toUInt64⟩⟩

instance : Insert Nat BitSet := ⟨fun i s => {i} ∪ s⟩

instance : Membership Nat BitSet := ⟨fun s i => s.word.toNat.testBit i = true⟩

/-- `s ⊆ t`: intersecting with `t` takes nothing from `s`. -/
instance : HasSubset BitSet := ⟨fun s t => s ∩ t = s⟩

instance (i : Nat) (s : BitSet) : Decidable (i ∈ s) :=
  inferInstanceAs (Decidable (s.word.toNat.testBit i = true))

instance (s t : BitSet) : Decidable (s ⊆ t) :=
  inferInstanceAs (Decidable (s ∩ t = s))

/-- Whether the two sets have a member in common. -/
def overlaps (s t : BitSet) : Bool :=
  s ∩ t ≠ ∅

/-- The union of a list of sets. -/
def unions : List BitSet → BitSet
  | [] => ∅
  | s :: ss => s ∪ unions ss

/-- The intersection of a list of sets, where that of no sets at all is taken to be empty. -/
def intersections : List BitSet → BitSet
  | [] => ∅
  | [s] => s
  | s :: ss => s ∩ intersections ss

/-- The set without its least member: subtracting one changes exactly the lowest set bit and the
zeros below it. -/
def eraseLeast (s : BitSet) : BitSet :=
  ⟨s.word &&& (s.word - 1)⟩

/-- Whether the set has exactly one member. -/
def isSingleton (s : BitSet) : Bool :=
  s ≠ ∅ && s.eraseLeast = ∅

/-- How often a positive number can be halved without a remainder. -/
def halvings (n : Nat) : Nat :=
  if n = 0 ∨ n % 2 = 1 then 0 else halvings (n / 2) + 1
  termination_by n
  decreasing_by omega

/-- The least member of a non-empty set. -/
def least (s : BitSet) : Nat :=
  halvings s.word.toNat

/-- The least member, if there is one. -/
def least? (s : BitSet) : Option Nat :=
  if s = ∅ then none else some s.least

theorem eraseLeast_lt {s : BitSet} (h : s ≠ ∅) : s.eraseLeast.word.toNat < s.word.toNat := by
  have hw : s.word ≠ 0 := fun h' => h (by cases s; cases h'; rfl)
  have hpos : 1 ≤ s.word.toNat := by
    rcases Nat.eq_zero_or_pos s.word.toNat with h0 | h0
    · exact absurd (UInt64.toNat_inj.1 (by simpa using h0)) hw
    · exact h0
  have hsub : (s.word - 1).toNat = s.word.toNat - 1 :=
    UInt64.toNat_sub_of_le _ _ (UInt64.le_iff_toNat_le.2 (by simpa using hpos))
  have hle : s.eraseLeast.word.toNat ≤ s.word.toNat - 1 := by
    simpa [eraseLeast, hsub] using @Nat.and_le_right s.word.toNat (s.word.toNat - 1)
  omega

/-- The members in increasing order. -/
def toList (s : BitSet) : List Nat :=
  if _h : s = ∅ then [] else s.least :: toList s.eraseLeast
  termination_by s.word.toNat
  decreasing_by exact eraseLeast_lt _h

/-- The set of a list of numbers. -/
def ofList (is : List Nat) : BitSet :=
  unions (is.map ({·}))

/-- The members that `wanted` asks for; or all of them, if it asks for none of them. -/
def wantedOrAll (wanted available : BitSet) : BitSet :=
  if wanted.overlaps available then wanted ∩ available else available

/-- The word in binary, after the mark `0b`. -/
def binary (s : BitSet) : String :=
  "0b" ++ String.ofList (Nat.toDigits 2 s.word.toNat)

end BitSet

/-- A set of table numbers. -/
abbrev TableSet := BitSet

/-- A set of hypergraph nodes. -/
abbrev NodeSet := BitSet

end QueryGraph
