import QueryGraph.Proofs.Relabeling.Agreement

/-!
# Canonical constants

When expressions are written alike, as an equation.

## The model

Being written alike is not the same as being equal: the two zeros are alike, and a not-a-number is unlike
itself. Both are a matter of constants. The relabeling `canonical` puts one zero for both and changes the
sign of every not-a-number. So it moves what is not alike to itself alone, and since it is faithful,
nothing else depends on it.

What it leaves is in canonical form, and canonical expressions are alike only if they are equal. Where there
is no not-a-number, relabeling once leads to the canonical form.

## What is proved

* the instance `Faithful canonical` — constants are used alike before and after.
* `same_iff_of_canonical` — canonical expressions are written alike if they are equal, and only then.
* `same_of_relabel_eq`, `labels_of_same` — expressions with the same canonical form are written alike, and the
  other way round, if there is no not-a-number in them.
* `same_trans`, `tables_of_same` — what follows of expressions that are written alike.
* `QueryBlock.relabel_canonical` — without a not-a-number, the relabeled block is canonical.
-/

namespace QueryGraph

/-! ### Numbers -/

namespace Double

/-- One zero for both. A not-a-number gets the other sign, so that it does not stay as it is. -/
def canon (x : Double) : Double := if x.isZero then zero else if x.isNaN then x.negate else x

theorem magnitude_negate (x : Double) : x.negate.magnitude = x.magnitude := by
  change (x.bits ^^^ 0x8000000000000000).toNat % 2 ^ 63 = x.bits.toNat % 2 ^ 63
  rw [UInt64.toNat_xor, Nat.xor_mod_two_pow]
  exact Nat.xor_zero _

theorem negate_ne (x : Double) : x.negate ≠ x := by
  intro h
  have hbits : x.bits ^^^ 0x8000000000000000 = x.bits := congrArg Double.bits h
  exact absurd ((UInt64.xor_right_inj x.bits).1 (hbits.trans UInt64.xor_zero.symm)) (by decide)

theorem isZero_iff {x : Double} : x.isZero = true ↔ x.magnitude = 0 := decide_eq_true_iff

theorem isNaN_iff {x : Double} : x.isNaN = true ↔ infinity.magnitude < x.magnitude := decide_eq_true_iff

theorem magnitude_canon (x : Double) : x.canon.magnitude = x.magnitude := by
  unfold canon
  split
  next hzero => exact (isZero_iff.1 hzero).symm
  next =>
    split
    · exact magnitude_negate x
    · rfl

@[simp] theorem isZero_canon (x : Double) : x.canon.isZero = x.isZero := by
  rw [isZero, isZero, magnitude_canon]

@[simp] theorem isNaN_canon (x : Double) : x.canon.isNaN = x.isNaN := by
  rw [isNaN, isNaN, magnitude_canon]

theorem key_canon {x : Double} (h : x.isNaN = false) : x.canon.key = x.key := by
  unfold canon
  split
  next hzero =>
    have hkey : x.key = 0 := by simp [key, isZero_iff.1 hzero]
    exact hkey.symm
  next => rw [h]; rfl

@[simp] theorem compare?_canon_left (x y : Double) : x.canon.compare? y = x.compare? y := by
  rw [compare?, compare?, isNaN_canon]
  split
  · rfl
  next h =>
    have hx : x.isNaN = false := by simp_all
    rw [key_canon hx]

@[simp] theorem compare?_canon_right (x y : Double) : x.compare? y.canon = x.compare? y := by
  rw [compare?, compare?, isNaN_canon]
  split
  · rfl
  next h =>
    have hy : y.isNaN = false := by simp_all
    rw [key_canon hy]

theorem isNaN_eq_false_of_canon {x : Double} (h : x.canon = x) : x.isNaN = false := by
  cases hnan : x.isNaN with
  | false => rfl
  | true =>
    have hzero : ¬ x.isZero = true := by
      have hmagnitude := isNaN_iff.1 hnan
      rw [isZero_iff]
      omega
    rw [canon, if_neg hzero, if_pos hnan] at h
    exact absurd h (negate_ne x)

theorem canon_canon {x : Double} (h : x.isNaN = false) : x.canon.canon = x.canon := by
  have hcanon : x.canon.isNaN = false := (isNaN_canon x).trans h
  rw [canon, hcanon, isZero_canon]
  split
  next hzero => rw [canon, if_pos hzero]
  next => rfl

/-- A number is its sign and its magnitude. -/
theorem eq_of_magnitude {x y : Double} (hsign : x.isNegative = y.isNegative)
    (hmagnitude : x.magnitude = y.magnitude) : x = y := by
  obtain ⟨x⟩ := x
  obtain ⟨y⟩ := y
  have hx := x.toNat_lt
  have hy := y.toNat_lt
  simp only [isNegative, Nat.testBit_eq_decide_div_mod_eq, decide_eq_decide] at hsign
  simp only [magnitude] at hmagnitude
  exact congrArg Double.mk (UInt64.toNat_inj.1 (by omega))

/-- Numbers in canonical form are equal where they compare as equal. -/
theorem eq_of_equal {x y : Double} (hx : x.canon = x) (hy : y.canon = y) (h : x.equal y = true) :
    x = y := by
  have hkey : x.key = y.key := by
    rw [equal, compare?, isNaN_eq_false_of_canon hx, isNaN_eq_false_of_canon hy] at h
    exact compare_eq_iff_eq.1 (Option.some.inj (of_decide_eq_true h))
  by_cases hzero : x.magnitude = 0
  · have hzero' : y.magnitude = 0 := by
      unfold key at hkey
      split_ifs at hkey <;> omega
    rw [← hx, ← hy, canon, canon, if_pos (isZero_iff.2 hzero), if_pos (isZero_iff.2 hzero')]
  · unfold key at hkey
    refine eq_of_magnitude ?_ ?_
    · split_ifs at hkey with hxneg hyneg hyneg
      · rw [hxneg, hyneg]
      · omega
      · omega
      · rw [Bool.eq_false_of_not_eq_true hxneg, Bool.eq_false_of_not_eq_true hyneg]
    · split_ifs at hkey <;> omega

/-- Numbers that compare as equal have the same canonical form, and are numbers. -/
theorem canon_eq_of_equal {x y : Double} (h : x.equal y = true) :
    x.canon = y.canon ∧ x.isNaN = false := by
  have hnan : x.isNaN = false ∧ y.isNaN = false := by
    rw [equal, compare?] at h
    split at h
    · cases h
    next hnan => simpa using hnan
  have hcanon : x.canon.equal y.canon = true := by
    rw [equal, compare?_canon_left, compare?_canon_right]
    exact h
  exact ⟨eq_of_equal (canon_canon hnan.1) (canon_canon hnan.2) hcanon, hnan.1⟩

theorem equal_self {x : Double} (h : x.isNaN = false) : x.equal x = true := by
  simp [equal, compare?, h]

end Double

/-! ### Constants -/

namespace Value

/-- The constant with its number in canonical form, if it is a number with a point. -/
def canon : Value → Value
  | double x => double x.canon
  | v => v

/-- Whether the constant is a not-a-number. -/
def isNaN : Value → Bool
  | double x => x.isNaN
  | _ => false

theorem compare?_canon (v w : Value) : v.canon.compare? w.canon = v.compare? w := by
  cases v <;> cases w <;> simp [canon, compare?, number?]

theorem eq_of_same {v w : Value} (hv : v.canon = v) (hw : w.canon = w) (h : v.same w = true) : v = w := by
  cases v <;> cases w <;> simp_all [same, canon]
  exact Double.eq_of_equal hv hw h

theorem same_self {v : Value} (hv : v.canon = v) : v.same v = true := by
  cases v <;> simp_all [same, canon]
  exact Double.equal_self (Double.isNaN_eq_false_of_canon hv)

/-- Constants that are written alike have the same canonical form. -/
theorem canon_eq_of_same {v w : Value} (h : v.same w = true) : v.canon = w.canon ∧ v.isNaN = false := by
  cases v <;> cases w <;> simp_all [same, canon, isNaN]
  exact Double.canon_eq_of_equal h

theorem canon_canon {v : Value} (h : v.isNaN = false) : v.canon.canon = v.canon := by
  cases v with
  | double x => exact congrArg double (Double.canon_canon h)
  | _ => rfl

end Value

/-- Constants in canonical form, where they are numbers at all. Tables keep their numbers. -/
def Relabeling.canonical : Relabeling := ⟨id, Value.canon⟩

instance : Relabeling.canonical.Faithful where
  injective := Function.injective_id
  mod_iff _ _ := Iff.rfl
  type_value v := by cases v <;> rfl
  truth_value v := by
    cases v with
    | double x => exact congrArg (fun b => some !b) x.isZero_canon
    | _ => rfl
  compare?_value := Value.compare?_canon
  same_value v w := by
    cases v <;> cases w <;> simp [Relabeling.canonical, Value.canon, Value.same, Double.equal]

/-! ### Expressions -/

namespace Expr

/-- All constants in the expression are in canonical form. -/
def Canonical (e : Expr) : Prop := e.relabel .canonical = e

theorem canonical_iff {e : Expr} : e.Canonical ↔ e.AllLabels (fun _ => True) fun v => v.canon = v := by
  have h : e.Canonical ↔ e.AllLabels (fun i => i = i) fun v => v.canon = v := relabel_eq_self_iff
  simpa using h

/-- Canonical expressions are written alike if they are equal, and only then. -/
theorem same_iff_of_canonical {e e' : Expr} (he : e.Canonical) (he' : e'.Canonical) :
    e.same e' = true ↔ e = e' := by
  rw [canonical_iff] at he he'
  have hlist {es es' : List Expr} (ih : ∀ e ∈ es, ∀ {e' : Expr},
        e.AllLabels (fun _ => True) (fun v => v.canon = v) →
        e'.AllLabels (fun _ => True) (fun v => v.canon = v) → (e.same e' = true ↔ e = e'))
      (h : AllLabels.list (fun _ => True) (fun v => v.canon = v) es)
      (h' : AllLabels.list (fun _ => True) (fun v => v.canon = v) es') :
      same.list es es' = true ↔ es = es' := by
    induction es generalizing es' with
    | nil => cases es' <;> simp [same.list]
    | cons e es ihes =>
      cases es' with
      | nil => simp [same.list]
      | cons e' es' =>
        have htail := ihes (fun d hd => ih d (List.mem_cons_of_mem e hd)) h.2 h'.2
        rw [same.list, Bool.and_eq_true, ih e List.mem_cons_self h.1 h'.1, htail, List.cons.injEq]
  induction e generalizing e' with
  | column c => cases e' <;> simp [same]
  | literal v =>
    cases e' with
    | literal w =>
      rw [same, literal.injEq]
      exact ⟨Value.eq_of_same he he', fun h => h ▸ Value.same_self he⟩
    | _ => simp [same]
  | compare op l r ihl ihr =>
    cases e' with
    | compare op' l' r' => simp [same, ihl he.1 he'.1, ihr he.2 he'.2, and_assoc]
    | _ => simp [same]
  | rowEq l r ihl ihr =>
    cases e' with
    | rowEq l' r' => simp [same, hlist ihl he.1 he'.1, hlist ihr he.2 he'.2]
    | _ => simp [same]
  | allEqual ms ih | and args ih | or args ih =>
    cases e' <;> simp only [same, Bool.false_eq_true, reduceCtorEq, allEqual.injEq, and.injEq, or.injEq]
    exact hlist ih he he'
  | call f args t ih =>
    cases e' with
    | call f' args' t' => simp [same, hlist ih he he', and_assoc]
    | _ => simp [same]
  | cast e t ih =>
    cases e' with
    | cast e' t' =>
      have hsame : e.same e' = true ↔ e = e' := ih he he'
      simp [same, hsame]
    | _ => simp [same]
  | not e ih | isNull e ih | cached e ih =>
    cases e' <;> simp only [same, Bool.false_eq_true, reduceCtorEq, not.injEq, isNull.injEq, cached.injEq]
    exact ih he he'

/-- Expressions with the same canonical form are written alike, if it is one. -/
theorem same_of_relabel_eq {e e' : Expr} (h : e.relabel .canonical = e'.relabel .canonical)
    (he : (e.relabel .canonical).Canonical) : e.same e' = true := by
  have hsame : (e.relabel .canonical).same (e'.relabel .canonical) = e.same e' := same_relabel e e'
  rw [← hsame, ← h]
  exact (same_iff_of_canonical he he).2 rfl

/-- Expressions that are written alike differ in the two zeros alone, and there is no not-a-number in them. -/
theorem labels_of_same {e e' : Expr} (h : e.same e' = true) :
    e.relabel .canonical = e'.relabel .canonical ∧
      e.AllLabels (fun _ => True) fun v => v.isNaN = false := by
  have hlist {es es' : List Expr} (ih : ∀ e ∈ es, ∀ {e' : Expr}, e.same e' = true →
        e.relabel .canonical = e'.relabel .canonical ∧
          e.AllLabels (fun _ => True) fun v => v.isNaN = false)
      (h : same.list es es' = true) :
      relabel.list .canonical es = relabel.list .canonical es' ∧
        AllLabels.list (fun _ => True) (fun v => v.isNaN = false) es := by
    induction es generalizing es' with
    | nil =>
      cases es' with
      | nil => exact ⟨rfl, trivial⟩
      | cons e' es' => cases h
    | cons e es ihes =>
      cases es' with
      | nil => cases h
      | cons e' es' =>
        rw [same.list, Bool.and_eq_true] at h
        obtain ⟨hhead, hnan⟩ := ih e List.mem_cons_self h.1
        obtain ⟨htail, hnans⟩ := ihes (fun d hd => ih d (List.mem_cons_of_mem e hd)) h.2
        exact ⟨by rw [relabel.list, relabel.list, hhead, htail], hnan, hnans⟩
  induction e generalizing e' with
  | column c =>
    cases e' with
    | column d =>
      obtain rfl := of_decide_eq_true h
      exact ⟨rfl, trivial⟩
    | _ => cases h
  | literal v =>
    cases e' with
    | literal w => exact (Value.canon_eq_of_same h).imp_left (congrArg literal)
    | _ => cases h
  | compare op l r ihl ihr =>
    cases e' with
    | compare op' l' r' =>
      simp only [same, Bool.and_eq_true, decide_eq_true_eq] at h
      obtain ⟨⟨rfl, hl⟩, hr⟩ := h
      exact ⟨by rw [relabel, relabel, (ihl hl).1, (ihr hr).1], (ihl hl).2, (ihr hr).2⟩
    | _ => cases h
  | rowEq l r ihl ihr =>
    cases e' with
    | rowEq l' r' =>
      rw [same, Bool.and_eq_true] at h
      obtain ⟨hl, hnanl⟩ := hlist ihl h.1
      obtain ⟨hr, hnanr⟩ := hlist ihr h.2
      exact ⟨by rw [relabel, relabel, hl, hr], hnanl, hnanr⟩
    | _ => cases h
  | allEqual ms ih =>
    cases e' with
    | allEqual ms' => exact (hlist ih h).imp_left (congrArg allEqual)
    | _ => cases h
  | and args ih =>
    cases e' with
    | and args' => exact (hlist ih h).imp_left (congrArg and)
    | _ => cases h
  | or args ih =>
    cases e' with
    | or args' => exact (hlist ih h).imp_left (congrArg or)
    | _ => cases h
  | not e ih =>
    cases e' with
    | not e' => exact (ih h :).imp_left (congrArg not)
    | _ => cases h
  | isNull e ih =>
    cases e' with
    | isNull e' => exact (ih h :).imp_left (congrArg isNull)
    | _ => cases h
  | call f args t ih =>
    cases e' with
    | call f' args' t' =>
      simp only [same, Bool.and_eq_true, decide_eq_true_eq] at h
      obtain ⟨⟨rfl, hargs⟩, rfl⟩ := h
      exact (hlist ih hargs).imp_left fun heq => by rw [relabel, relabel, heq]
    | _ => cases h
  | cast e t ih =>
    cases e' with
    | cast e' t' =>
      simp only [same, Bool.and_eq_true, decide_eq_true_eq] at h
      obtain ⟨he, rfl⟩ := h
      exact (ih he :).imp_left fun heq => by rw [relabel, relabel, heq]
    | _ => cases h
  | cached e ih =>
    cases e' with
    | cached e' => exact (ih h :).imp_left (congrArg cached)
    | _ => cases h

/-- Without a not-a-number, relabeling once leads to the canonical form. -/
theorem canonical_relabel {e : Expr} (h : e.AllLabels (fun _ => True) fun v => v.isNaN = false) :
    (e.relabel .canonical).Canonical :=
  canonical_iff.2 (allLabels_relabel.2 (h.mono (fun _ _ => trivial) fun _ hv => Value.canon_canon hv))

/-- An expression without a not-a-number is written like itself. -/
theorem same_self {e : Expr} (h : e.AllLabels (fun _ => True) fun v => v.isNaN = false) :
    e.same e = true := same_of_relabel_eq rfl (canonical_relabel h)

/-- What is written like the same expression is written alike. -/
theorem same_trans {e e' e'' : Expr} (h : e.same e' = true) (h' : e'.same e'' = true) :
    e.same e'' = true := by
  obtain ⟨heq, hnan⟩ := labels_of_same h
  exact same_of_relabel_eq (heq.trans (labels_of_same h').1) (canonical_relabel hnan)

/-- Expressions that are written alike read the same tables. -/
theorem tables_of_same {e e' : Expr} (h : e.same e' = true) : e.tables = e'.tables := by
  have htables := congrArg tables (labels_of_same h).1
  rwa [tables_relabel, tables_relabel, Relabeling.set_inj] at htables

end Expr

/-- A block without a not-a-number is canonical after one relabeling. -/
theorem QueryBlock.relabel_canonical {q : QueryBlock}
    (h : q.AllLabels (fun _ => True) fun v => v.isNaN = false) :
    (q.relabel .canonical).relabel .canonical = q.relabel .canonical := by
  have hlabels : (q.relabel .canonical).AllLabels (fun _ => True) fun v => v.canon = v :=
    allLabels_relabel.2 (AllLabels.mono h (fun _ _ => trivial) fun v hv => Value.canon_canon hv)
  have hid : (q.relabel .canonical).relabel .canonical = (q.relabel .canonical).relabel ⟨id, id⟩ :=
    relabel_congr (fun _ _ => rfl) (fun v hv => hv) hlabels
  exact hid.trans (relabel_id _)

end QueryGraph
