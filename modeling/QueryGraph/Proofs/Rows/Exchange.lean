import QueryGraph.Proofs.Rows.Filters
import QueryGraph.Tree.Pushdown

/-!
# Joins that change places

When two joins may be applied to the same rows in either order.

## The model

Seen from one of its sides, a join takes the rows of that side, the main input, and puts them together
with rows of the other one. Each row of the main input becomes some rows by itself: its `parts` say
what is put to it. Besides there are rows of the other input that nothing is put to, the `extras`.
That is all of the join, unless it does not show its main input at all, as a semijoin does not show
its right side.

So two joins on one main input have three sources of rows: what the parts of both make of the main
input, and the extras of either. The first is the same in both orders. The extras of one join have to
pass through the other one unchanged, which they do if that one `keeps` rows of its main input without
a partner and finds none for rows without anything from the main input.

## What is proved

* `onto_eq` — a join seen from a side that it shows is made of parts and extras.
* `Branch.apply_comm` — two joins on one main input may be applied in either order, if each lets the extras of
  the other pass.
-/

namespace QueryGraph

variable {R : Type}

open BitSet

namespace JoinKind

/-- Joins that keep the rows of a side which have no partner. -/
def keeps : JoinKind → Side → Bool
  | left, .left => true
  | full, _ => true
  | _, _ => false

/-- Joins that show the rows of a side. -/
def shows : JoinKind → Side → Bool
  | semi, .right => false
  | anti, .right => false
  | _, _ => true

/-- A join whose main input is on the given side. -/
def onto (k : JoinKind) (s : Side) (p : Row R → Bool) (main rest : Bag R) : Bag R :=
  match s with
  | .left => k.rows p main rest
  | .right => k.rows p rest main

/-- What is put to a row of the main input: its partners, or nothing if the row stays alone. -/
def parts (k : JoinKind) (s : Side) (p : Row R → Bool) (rest : Bag R) (a : Row R) : Bag R :=
  if Matched p rest a then
    if k.showsRight then partners p rest a else if k = semi then {Row.nothing} else 0
  else if k = anti || k.keeps s then {Row.nothing} else 0

/-- The rows of the other input that are kept without a partner. -/
def extras (k : JoinKind) (s : Side) (p : Row R → Bool) (main rest : Bag R) : Bag R :=
  if k.keeps s.other then rest.filter fun b => ¬ Taken p main b else 0

/-- The pairs of rows that go together. -/
def pairs (p : Row R → Bool) (l r : Bag R) : Bag R := l.bind fun a => (partners p r a).map a.merge

variable {p : Row R → Bool} {l r : Bag R}

theorem partners_eq_zero {a : Row R} (h : ¬ Matched p r a) : partners p r a = 0 :=
  Multiset.filter_eq_nil.2 fun b hb hp => h ⟨b, hb, hp⟩

/-- Rows with partners and rows without one are told apart. -/
theorem bind_padded :
    (l.bind fun a => if Matched p r a then (partners p r a).map a.merge else {a}) =
      pairs p l r + l.filter fun a => ¬ Matched p r a := by
  rw [Multiset.filter_eq_bind, pairs, ← Multiset.bind_add]
  refine Multiset.bind_congr fun a _ => ?_
  by_cases h : Matched p r a
  · rw [if_pos h, if_neg (not_not.2 h), add_zero]
  · rw [if_neg h, if_pos h, partners_eq_zero h, Multiset.map_zero, zero_add]

/-- The rows of the two bags may be put together either way round. -/
def Apart (l r : Bag R) : Prop := ∀ a ∈ l, ∀ b ∈ r, a.merge b = b.merge a

theorem Apart.symm (h : Apart l r) : Apart r l := fun b hb a ha => (h a ha b hb).symm

theorem apart_of_within {ts us : TableSet} (hl : ∀ a ∈ l, a.Within ts) (hr : ∀ b ∈ r, b.Within us)
    (h : ∀ i ∈ ts, i ∉ us) : Apart l r := fun a ha b hb => Row.merge_comm (hl a ha) (hr b hb) h

theorem pairs_eq_bind :
    pairs p l r = l.bind fun a => r.bind fun b => if p (a.merge b) then {a.merge b} else 0 := by
  refine Multiset.bind_congr fun a _ => ?_
  rw [partners, Multiset.filter_eq_bind, Multiset.map_bind]
  refine Multiset.bind_congr fun b _ => ?_
  split <;> simp

/-- Pairs may be found from either side. -/
theorem pairs_comm (h : Apart l r) : pairs p l r = pairs p r l := by
  rw [pairs_eq_bind, pairs_eq_bind, Multiset.bind_bind]
  exact Multiset.bind_congr fun b hb => Multiset.bind_congr fun a ha => by rw [h a ha b hb]

/-- An inner join may have its sides changed round. -/
theorem rows_inner_comm (h : Apart l r) : inner.rows p l r = inner.rows p r l :=
  congrArg (· + 0) (pairs_comm h)

theorem taken_iff_matched (h : Apart l r) {b : Row R} (hb : b ∈ r) :
    Taken p l b ↔ Matched p l b :=
  exists_congr fun a => and_congr_right fun ha => by rw [h a ha b hb]

/-! ### Parts and extras -/

/-- What a row on the left becomes is made of its parts. -/
theorem outputs_eq_parts (k : JoinKind) (a : Row R) :
    k.outputs p r a = (k.parts .left p r a).map a.merge := by
  have hnothing : ({Row.nothing} : Bag R).map a.merge = {a} := by
    rw [Multiset.map_singleton, Row.merge_nothing]
  by_cases h : Matched p r a
  · cases k <;> simp [outputs, parts, showsRight, h, hnothing]
  · cases k <;> simp [outputs, parts, keeps, h, hnothing, partners_eq_zero h]

theorem bind_parts (k : JoinKind) (s : Side) (hk : k ≠ semi) (hk' : k ≠ anti) :
    (l.bind fun a => (k.parts s p r a).map a.merge) =
      pairs p l r + if k.keeps s then l.filter fun a => ¬ Matched p r a else 0 := by
  have hparts (a : Row R) : k.parts s p r a =
      if Matched p r a then partners p r a else if k.keeps s then {Row.nothing} else 0 := by
    simp [parts, showsRight, hk, hk']
  simp only [hparts]
  split
  next =>
    rw [← bind_padded]
    refine Multiset.bind_congr fun a _ => ?_
    split
    · rfl
    · rw [Multiset.map_singleton, Row.merge_nothing]
  next =>
    rw [add_zero]
    refine Multiset.bind_congr fun a _ => ?_
    split
    · rfl
    next h => rw [partners_eq_zero h]

/-- A join seen from a side that it shows is made of parts and extras. -/
theorem onto_eq {k : JoinKind} {s : Side} (hshows : k.shows s = true) (h : Apart l r) :
    k.onto s p l r = (l.bind fun a => (k.parts s p r a).map a.merge) + k.extras s p l r := by
  have hfilter : (r.filter fun b => ¬ Matched p l b) = r.filter fun b => ¬ Taken p l b :=
    Multiset.filter_congr fun b hb => not_congr (taken_iff_matched h hb).symm
  have hfilter' : (l.filter fun a => ¬ Taken p r a) = l.filter fun a => ¬ Matched p r a :=
    Multiset.filter_congr fun a ha => not_congr (taken_iff_matched h.symm ha)
  cases s with
  | left =>
    rw [onto, rows, Multiset.bind_congr fun a _ => outputs_eq_parts k a]
    cases k <;> rfl
  | right =>
    cases k with
    | semi => cases hshows
    | anti => cases hshows
    | inner =>
      rw [bind_parts inner .right (by decide) (by decide), pairs_comm h]
      show pairs p r l + 0 = pairs p r l + 0 + 0
      rw [add_zero, add_zero]
    | left =>
      rw [bind_parts left .right (by decide) (by decide), pairs_comm h, onto, rows]
      simp only [outputs, bind_padded, unclaimed, extras, hfilter]
      show _ + 0 = pairs p r l + 0 + Multiset.filter _ r
      rw [add_zero, add_zero]
    | full =>
      rw [bind_parts full .right (by decide) (by decide), pairs_comm h, onto, rows]
      simp only [outputs, bind_padded, unclaimed, extras, hfilter, hfilter']
      exact add_right_comm _ _ _

/-! ### Two joins on one main input -/

/-- The condition does not read the tables. -/
def Ignores (p : Row R → Bool) (ts : TableSet) : Prop :=
  ∀ x y : Row R, (∀ i, i ∉ ts → x i = y i) → p x = p y

/-- The condition is true of no row that takes from these tables only. -/
def Rejects (p : Row R → Bool) (ts : TableSet) : Prop := ∀ x : Row R, x.Within ts → p x = false

/-- The rows that are put to a row of the main input take from the tables of the other input. -/
theorem within_parts {k : JoinKind} {s : Side} {ts : TableSet} (hr : ∀ b ∈ r, b.Within ts)
    {a w : Row R} (hw : w ∈ k.parts s p r a) : w.Within ts := by
  have hnothing (hw : w ∈ ({Row.nothing} : Bag R)) : w.Within ts := by
    rw [Multiset.mem_singleton.1 hw]
    exact fun _ _ => rfl
  have hpartner (hw : w ∈ partners p r a) : w.Within ts := hr w (mem_partners.1 hw).1
  have hzero (hw : w ∈ (0 : Bag R)) : w.Within ts := absurd hw (Multiset.notMem_zero w)
  rw [parts] at hw
  split_ifs at hw
  · exact hpartner hw
  · exact hnothing hw
  · exact hzero hw
  · exact hnothing hw
  · exact hzero hw

/-- What a condition ignores does not matter to the parts. -/
theorem parts_merge {k : JoinKind} {s : Side} {ts : TableSet} (hp : Ignores p ts) (a : Row R)
    {w : Row R} (hw : w.Within ts) : k.parts s p r (a.merge w) = k.parts s p r a := by
  have hpair (b : Row R) : p ((a.merge w).merge b) = p (a.merge b) :=
    hp _ _ fun i hi => by rw [Row.merge, Row.merge, Row.merge, hw i hi, Option.or_none]
  have hmatched : Matched p r (a.merge w) ↔ Matched p r a :=
    exists_congr fun b => and_congr_right fun _ => by rw [hpair]
  have hpartners : partners p r (a.merge w) = partners p r a :=
    Multiset.filter_congr fun b _ => by rw [hpair]
  simp only [parts, hmatched, hpartners]

/-- A row without a partner is kept as it is. -/
theorem parts_of_keeps {k : JoinKind} {s : Side} (hk : k.keeps s = true) {a : Row R}
    (h : ¬ Matched p r a) : k.parts s p r a = {Row.nothing} := by
  rw [parts, if_neg h, if_pos (by rw [hk, Bool.or_true])]

/-- No row of the main input gets lost where rows without a partner are kept. -/
theorem parts_ne_zero {k : JoinKind} {s : Side} (hk : k.keeps s = true) (a : Row R) :
    ∃ w, w ∈ k.parts s p r a := by
  by_cases h : Matched p r a
  · obtain ⟨b, hb, hp⟩ := h
    have hshows : k.showsRight = true := by cases k <;> first | rfl | cases hk
    refine ⟨b, ?_⟩
    rw [parts, if_pos ⟨b, hb, hp⟩, if_pos hshows]
    exact mem_partners.2 ⟨hb, hp⟩
  · exact ⟨Row.nothing, by rw [parts_of_keeps hk h]; exact Multiset.mem_singleton_self _⟩

theorem mem_extras {k : JoinKind} {s : Side} {b : Row R} (h : b ∈ k.extras s p l r) :
    k.keeps s.other = true ∧ b ∈ r := by
  rw [extras] at h
  split at h
  next hk => exact ⟨hk, (Multiset.mem_filter.1 h).1⟩
  next => exact absurd h (Multiset.notMem_zero b)

end JoinKind

/-- A join without its main input: what it does to rows of that input. -/
structure Branch (R : Type) where
  /-- The kind of the join. -/
  kind : JoinKind
  /-- The side of the main input. -/
  side : Side
  /-- The condition. -/
  cond : Row R → Bool
  /-- The other input. -/
  rest : Bag R
  /-- The tables of the other input. -/
  tables : TableSet
  /-- The rows of the other input take from its tables only. -/
  within : ∀ w ∈ rest, w.Within tables
  /-- The join shows the main input. -/
  shown : kind.shows side = true

namespace Branch

open JoinKind

/-- The join on a main input. -/
def apply (b : Branch R) (main : Bag R) : Bag R := b.kind.onto b.side b.cond main b.rest

/-- What a row of the main input becomes. -/
def image (b : Branch R) (x : Row R) : Bag R := (b.kind.parts b.side b.cond b.rest x).map x.merge

/-- The rows of the other input that are kept without a partner. -/
def extras (b : Branch R) (main : Bag R) : Bag R := b.kind.extras b.side b.cond main b.rest

/-- What the second join keeps of its other input passes through the first one unchanged. -/
def LetsPass (a b : Branch R) : Prop :=
  b.kind.keeps b.side.other = true →
    a.kind.keeps a.side = true ∧ Rejects a.cond (a.tables ∪ b.tables)

variable {a b : Branch R} {main : Bag R} {ts : TableSet}

theorem apply_eq (hmain : ∀ x ∈ main, x.Within ts) (h : ∀ i ∈ ts, i ∉ b.tables) :
    b.apply main = main.bind b.image + b.extras main :=
  onto_eq b.shown (apart_of_within hmain b.within h)

/-- The rows of a join take from the tables of both inputs. -/
theorem within_apply (hmain : ∀ x ∈ main, x.Within ts) :
    ∀ x ∈ b.apply main, x.Within (ts ∪ b.tables) := by
  intro x hx
  rw [apply, onto.eq_def] at hx
  split at hx
  · exact (within_rows b.kind hmain b.within x hx).mono (scope_subset _ _ _)
  · refine (within_rows b.kind b.within hmain x hx).mono (Subset.trans (scope_subset _ _ _) ?_)
    exact union_subset (subset_union_right ts b.tables) (subset_union_left ts b.tables)

/-- What two joins make of the rows of the main input is the same in both orders. -/
theorem bind_image_comm (hab : ∀ i ∈ a.tables, i ∉ b.tables) (ha : Ignores a.cond b.tables)
    (hb : Ignores b.cond a.tables) :
    (main.bind a.image).bind b.image = (main.bind b.image).bind a.image := by
  have himage {a b : Branch R} (hb : Ignores b.cond a.tables) (x : Row R) :
      (a.image x).bind b.image = (a.kind.parts a.side a.cond a.rest x).bind fun y =>
        (b.kind.parts b.side b.cond b.rest x).map fun z => (x.merge y).merge z := by
    rw [image, Multiset.bind_map]
    refine Multiset.bind_congr fun y hy => ?_
    rw [image, parts_merge hb x (within_parts a.within hy)]
  rw [Multiset.bind_assoc, Multiset.bind_assoc]
  refine Multiset.bind_congr fun x _ => ?_
  rw [himage hb, himage ha, Multiset.bind_map_comm]
  refine Multiset.bind_congr fun z hz => Multiset.map_congr rfl fun y hy => ?_
  exact Row.merge_right_comm x (within_parts a.within hy) (within_parts b.within hz) hab

/-- Rows that one join keeps of its other input pass through the other join unchanged. -/
theorem bind_image_extras (h : LetsPass a b) : (b.extras main).bind a.image = b.extras main := by
  have hsingle : ∀ x ∈ b.extras main, a.image x = {x} := by
    intro x hx
    obtain ⟨hkeeps, hxb⟩ := mem_extras hx
    obtain ⟨hka, hrejects⟩ := h hkeeps
    have hmatched : ¬ Matched a.cond a.rest x := by
      rintro ⟨y, hy, hp⟩
      have hwithin := ((b.within x hxb).mono (subset_union_right a.tables b.tables)).merge
        ((a.within y hy).mono (subset_union_left a.tables b.tables))
      rw [hrejects _ (hwithin.mono (union_subset (Subset.refl _) (Subset.refl _)))] at hp
      cases hp
    rw [image, parts_of_keeps hka hmatched, Multiset.map_singleton, Row.merge_nothing]
  rw [Multiset.bind_congr hsingle, Multiset.bind_singleton, Multiset.map_id']

/-- What a join keeps of its other input is the same before and after another join. -/
theorem extras_apply (hmain : ∀ x ∈ main, x.Within ts) (hts : ∀ i ∈ ts, i ∉ a.tables)
    (hb : Ignores b.cond a.tables) (h : LetsPass a b) (h' : LetsPass b a) :
    b.extras (a.apply main) = b.extras main := by
  have hpair (x : Row R) {w : Row R} (hw : w.Within a.tables) (z : Row R) :
      b.cond ((x.merge w).merge z) = b.cond (x.merge z) :=
    hb _ _ fun i hi => by rw [Row.merge, Row.merge, Row.merge, hw i hi, Option.or_none]
  unfold extras JoinKind.extras
  split
  next hkeeps =>
    refine Multiset.filter_congr fun z hz => not_congr ?_
    rw [apply_eq hmain hts]
    constructor
    · rintro ⟨x, hx, hp⟩
      rcases Multiset.mem_add.1 hx with hx | hx
      · obtain ⟨y, hy, hx⟩ := Multiset.mem_bind.1 hx
        obtain ⟨w, hw, rfl⟩ := Multiset.mem_map.1 hx
        exact ⟨y, hy, (hpair y (within_parts a.within hw) z) ▸ hp⟩
      · obtain ⟨hka, hxa⟩ := mem_extras hx
        have hwithin := ((a.within x hxa).mono (subset_union_right b.tables a.tables)).merge
          ((b.within z hz).mono (subset_union_left b.tables a.tables))
        rw [(h' hka).2 _ (hwithin.mono (union_subset (Subset.refl _) (Subset.refl _)))] at hp
        cases hp
    · rintro ⟨x, hx, hp⟩
      obtain ⟨w, hw⟩ := parts_ne_zero (h hkeeps).1 x
      refine ⟨x.merge w, Multiset.mem_add.2 (.inl (Multiset.mem_bind.2 ⟨x, hx, ?_⟩)), ?_⟩
      · exact Multiset.mem_map_of_mem _ hw
      · rw [hpair x (within_parts a.within hw) z]
        exact hp
  next => rfl

/-- Two joins on one main input may be applied in either order, if each lets the rows pass that the
other one keeps. -/
theorem apply_comm (hmain : ∀ x ∈ main, x.Within ts) (hta : ∀ i ∈ ts, i ∉ a.tables)
    (htb : ∀ i ∈ ts, i ∉ b.tables) (hab : ∀ i ∈ a.tables, i ∉ b.tables)
    (ha : Ignores a.cond b.tables) (hb : Ignores b.cond a.tables) (h : LetsPass a b)
    (h' : LetsPass b a) : b.apply (a.apply main) = a.apply (b.apply main) := by
  have hdisjoint : ∀ i ∈ ts ∪ a.tables, i ∉ b.tables := fun i hi =>
    (mem_union.1 hi).elim (htb i) (hab i)
  have hdisjoint' : ∀ i ∈ ts ∪ b.tables, i ∉ a.tables := fun i hi =>
    (mem_union.1 hi).elim (hta i) fun hib hia => hab i hia hib
  calc b.apply (a.apply main)
      = (main.bind a.image).bind b.image + (a.extras main).bind b.image +
          b.extras (a.apply main) := by
        rw [apply_eq (within_apply hmain) hdisjoint, apply_eq hmain hta, Multiset.add_bind]
    _ = (main.bind b.image).bind a.image + a.extras main + b.extras main := by
        rw [bind_image_comm hab ha hb, bind_image_extras h', extras_apply hmain hta hb h h']
    _ = (main.bind b.image).bind a.image + (b.extras main).bind a.image +
          a.extras (b.apply main) := by
        rw [bind_image_extras h, extras_apply hmain htb ha h' h, add_right_comm]
    _ = a.apply (b.apply main) := by
        rw [apply_eq (within_apply hmain) hdisjoint', apply_eq hmain htb, Multiset.add_bind]

end Branch

end QueryGraph
