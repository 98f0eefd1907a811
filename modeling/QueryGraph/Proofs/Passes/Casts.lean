import QueryGraph.Proofs.Passes.FinalForm

/-!
# Where casts are inserted

Which conditions can be given casts, and what the casts change.

## The model

Casts are inserted from the leaves up, so the types that decide about them are those of operands that have
their casts already. A cast inside an operand does not change the type of the operand: only the two operands of
a comparison are ever wrapped, and a comparison is a truth value. So nothing depends on the order, and what
matters is the condition as it was.

`Operands rel` says that what an expression itself compares is related pair by pair, and `Throughout` says it
of all its parts.

## What is proved

* `exists_withCasts_iff` — a condition can be given casts just if all that is compared in it, at any depth, has
  a common type, and rows that are compared have the same number of columns.
* `recast_withCasts` — afterwards the operands of all comparisons have the same type or one of them is NULL, and
  without all casts the condition is what it was without them.
* `withCasts_eq_self_iff` — conditions of this kind, and no others, stay as they are.
-/

namespace QueryGraph

namespace SqlType

/-- There is a type that values of the two types are brought to when they are compared. -/
def Compares (s t : SqlType) : Prop := ∃ u, s.common? t = some u

/-- Values of the two types are compared without a cast. -/
def Matches (s t : SqlType) : Prop := s = t ∨ s = null ∨ t = null

theorem common?_self (t : SqlType) : t.common? t = some t := by cases t <;> rfl

theorem common?_null (t : SqlType) : t.common? null = some t := by cases t <;> rfl

end SqlType

namespace Expr

open SqlType

variable {e e' l r : Expr} {es es' ls rs : List Expr}

/-! ### Parts -/

/-- The first expression is the second one or stands somewhere in it. -/
inductive PartOf : Expr → Expr → Prop where
  /-- Every expression is a part of itself. -/
  | refl (e : Expr) : PartOf e e
  /-- The parts of an argument are parts of the expression. -/
  | arg {p d e : Expr} (hd : d ∈ e.children) (hp : PartOf p d) : PartOf p e

/-- All parts of an expression have a property. -/
def Throughout (P : Expr → Prop) (e : Expr) : Prop := ∀ p, p.PartOf e → P p

theorem throughout_iff {P : Expr → Prop} :
    e.Throughout P ↔ P e ∧ ∀ d ∈ e.children, d.Throughout P := by
  constructor
  · intro h
    exact ⟨h e (.refl e), fun d hd p hp => h p (.arg hd hp)⟩
  · rintro ⟨hself, hargs⟩ p hp
    cases hp with
    | refl => exact hself
    | arg hd hp => exact hargs _ hd p hp

/-- The types of what the expression itself compares are related: of the two operands of a comparison, and of
two rows column by column, which have to be as many in either row. -/
def Operands (rel : SqlType → SqlType → Prop) : Expr → Prop
  | compare _ l r => rel l.type r.type
  | rowEq ls rs => List.Forall₂ (fun l r => rel l.type r.type) ls rs
  | _ => True

/-! ### One operand -/

/-- The expression without any casts. -/
def eraseCasts : Expr → Expr
  | column c => column c
  | literal v => literal v
  | compare op l r => compare op l.eraseCasts r.eraseCasts
  | rowEq ls rs => rowEq (list ls) (list rs)
  | allEqual ms => allEqual (list ms)
  | and args => and (list args)
  | or args => or (list args)
  | not e => not e.eraseCasts
  | isNull e => isNull e.eraseCasts
  | call f args t => call f (list args) t
  | cast e _ => e.eraseCasts
  | cached e => cached e.eraseCasts
where
  /-- Every expression of a list without casts. -/
  list : List Expr → List Expr
    | [] => []
    | e :: es => e.eraseCasts :: list es

/-- The second expression is the first one, or a cast of it. -/
inductive Brought (e : Expr) : Expr → Prop where
  /-- No cast was needed. -/
  | same : Brought e e
  /-- The value is brought to another type. -/
  | cast (t : SqlType) : Brought e (cast e t)

theorem Brought.eraseCasts_eq (h : e.Brought e') : e'.eraseCasts = e.eraseCasts := by
  cases h <;> rfl

/-- A cast compares nothing itself. -/
theorem Brought.throughout {rel : SqlType → SqlType → Prop} (h : e.Brought e')
    (he : e.Throughout (Operands rel)) : e'.Throughout (Operands rel) := by
  cases h with
  | same => exact he
  | cast t => exact throughout_iff.2 ⟨trivial, List.forall_mem_singleton.2 he⟩

theorem brought_castTo (t : SqlType) (e : Expr) : e.Brought (e.castTo t) := by
  unfold castTo
  split
  · exact .same
  · exact .cast t

theorem type_castTo (t : SqlType) (e : Expr) : (e.castTo t).type = t ∨ (e.castTo t).type = .null := by
  unfold castTo
  split
  next h => simpa using h
  next => exact .inl rfl

/-! ### A pair of operands -/

theorem exists_castPair_iff : (∃ pair, castPair l r = .ok pair) ↔ l.type.Compares r.type := by
  unfold castPair Compares
  split
  next h =>
    rw [h]
    exact iff_of_true ⟨_, rfl⟩ ⟨_, common?_self r.type⟩
  next => cases l.type.common? r.type <;> simp

/-- Each operand is brought to some type or left alone, and then they match. -/
theorem castPair_eq_ok {pair : Expr × Expr} (h : castPair l r = .ok pair) :
    l.Brought pair.1 ∧ r.Brought pair.2 ∧ pair.1.type.Matches pair.2.type := by
  unfold castPair at h
  split at h
  next heq =>
    cases h
    exact ⟨.same, .same, .inl heq⟩
  next =>
    split at h
    next t _ =>
      cases h
      refine ⟨brought_castTo t l, brought_castTo t r, ?_⟩
      rcases type_castTo t l with hl | hl
      · rcases type_castTo t r with hr | hr
        · exact .inl (hl.trans hr.symm)
        · exact .inr (.inr hr)
      · exact .inr (.inl hl)
    next => cases h

/-- Operands that match are left alone. -/
theorem castPair_of_matches (h : l.type.Matches r.type) : castPair l r = .ok (l, r) := by
  unfold castPair
  split
  · rfl
  next hne =>
    obtain heq | hnull | hnull := h
    · exact absurd heq hne
    · rw [hnull, common?]
      simp [castTo, hnull]
    · rw [hnull, common?_null]
      simp [castTo, hnull]

/-! ### Rows of operands -/

theorem exists_castRows_iff (hlength : ls.length = rs.length) :
    (∃ rows, castRows ls rs = .ok rows) ↔ List.Forall₂ (fun l r => l.type.Compares r.type) ls rs := by
  induction ls generalizing rs with
  | nil =>
    obtain rfl := List.length_eq_zero_iff.1 hlength.symm
    exact iff_of_true ⟨_, rfl⟩ .nil
  | cons l ls ih =>
    cases rs with
    | nil => cases hlength
    | cons r rs =>
      rw [List.forall₂_cons, ← exists_castPair_iff, ← ih (Nat.succ.inj hlength)]
      constructor
      · rintro ⟨rows, h⟩
        obtain ⟨pair, hpair, h⟩ := Except.bind_eq_ok.1 h
        obtain ⟨rest, hrest, -⟩ := Except.bind_eq_ok.1 h
        exact ⟨⟨pair, hpair⟩, rest, hrest⟩
      · rintro ⟨⟨pair, hpair⟩, rest, hrest⟩
        exact ⟨_, Except.bind_eq_ok.2 ⟨pair, hpair, Except.bind_eq_ok.2 ⟨rest, hrest, rfl⟩⟩⟩

/-- Rows of the same length are treated column by column. -/
theorem castRows_eq_ok {rows : List Expr × List Expr} (hlength : ls.length = rs.length)
    (h : castRows ls rs = .ok rows) : List.Forall₂ Brought ls rows.1 ∧ List.Forall₂ Brought rs rows.2 ∧
      List.Forall₂ (fun l r => l.type.Matches r.type) rows.1 rows.2 := by
  induction ls generalizing rs rows with
  | nil =>
    obtain rfl := List.length_eq_zero_iff.1 hlength.symm
    cases h
    exact ⟨.nil, .nil, .nil⟩
  | cons l ls ih =>
    cases rs with
    | nil => cases hlength
    | cons r rs =>
      obtain ⟨pair, hpair, h⟩ := Except.bind_eq_ok.1 h
      obtain ⟨rest, hrest, h⟩ := Except.bind_eq_ok.1 h
      cases h
      obtain ⟨hl, hr, hmatch⟩ := castPair_eq_ok hpair
      obtain ⟨hls, hrs, hmatches⟩ := ih (Nat.succ.inj hlength) hrest
      exact ⟨.cons hl hls, .cons hr hrs, .cons hmatch hmatches⟩

theorem castRows_of_matches (h : List.Forall₂ (fun l r => l.type.Matches r.type) ls rs) :
    castRows ls rs = .ok (ls, rs) := by
  induction h with
  | nil => rfl
  | cons hmatch _ ih =>
    rw [castRows, castPair_of_matches hmatch, ih]
    rfl

/-! ### Expressions -/

theorem withCasts.list_eq_mapM (es : List Expr) : withCasts.list es = es.mapM withCasts := by
  induction es with
  | nil => rfl
  | cons e es ih =>
    rw [withCasts.list, ih, List.mapM_cons]
    rfl

/-- The second expression is the first one with casts where operands do not match. -/
structure Recast (e e' : Expr) : Prop where
  /-- The type is the same. -/
  type_eq : e'.type = e.type
  /-- Without casts it is the same expression. -/
  eraseCasts_eq : e'.eraseCasts = e.eraseCasts
  /-- Everything that is compared matches. -/
  matched : e'.Throughout (Operands Matches)

/-- Operands that have been brought to other types after they got their casts. -/
theorem eraseCasts_brought (hrecast : List.Forall₂ Recast es es') (hbrought : List.Forall₂ Brought es' ls) :
    eraseCasts.list ls = eraseCasts.list es ∧ ∀ e ∈ ls, e.Throughout (Operands Matches) := by
  induction hrecast generalizing ls with
  | nil =>
    cases hbrought
    exact ⟨rfl, nofun⟩
  | cons he _ ih =>
    cases hbrought with
    | cons hl hls =>
      obtain ⟨herase, hmatched⟩ := ih hls
      refine ⟨?_, List.forall_mem_cons.2 ⟨hl.throughout he.matched, hmatched⟩⟩
      rw [eraseCasts.list, eraseCasts.list, hl.eraseCasts_eq, he.eraseCasts_eq, herase]

/-- Arguments that have got their casts and are left alone. -/
theorem eraseCasts_recast (h : List.Forall₂ Recast es es') :
    eraseCasts.list es' = eraseCasts.list es ∧ ∀ e ∈ es', e.Throughout (Operands Matches) :=
  eraseCasts_brought h (List.forall₂_same.2 fun _ _ => .same)

/-- The expression gets no casts but where operands do not match, and then they do. -/
theorem recast_withCasts (h : e.withCasts = .ok e') : Recast e e' := by
  have hlist {es es' : List Expr} (ih : ∀ e ∈ es, ∀ {e'}, e.withCasts = .ok e' → Recast e e')
      (h : withCasts.list es = .ok es') : List.Forall₂ Recast es es' := by
    induction es generalizing es' with
    | nil =>
      cases h
      exact .nil
    | cons e es ih' =>
      obtain ⟨d, hd, h⟩ := Except.bind_eq_ok.1 h
      obtain ⟨ds, hds, h⟩ := Except.bind_eq_ok.1 h
      cases h
      exact .cons (ih e List.mem_cons_self hd) (ih' (fun e he => ih e (List.mem_cons_of_mem _ he)) hds)
  induction e generalizing e' with
  | column c | literal v =>
    cases h
    exact ⟨rfl, rfl, throughout_iff.2 ⟨trivial, nofun⟩⟩
  | compare op l r ihl ihr =>
    obtain ⟨l', hl, h⟩ := Except.bind_eq_ok.1 h
    obtain ⟨r', hr, h⟩ := Except.bind_eq_ok.1 h
    obtain ⟨pair, hpair, h⟩ := Except.bind_eq_ok.1 h
    cases h
    obtain ⟨hbl, hbr, hmatch⟩ := castPair_eq_ok hpair
    refine ⟨rfl, ?_, throughout_iff.2 ⟨hmatch, List.forall_mem_cons.2 ⟨?_, List.forall_mem_singleton.2 ?_⟩⟩⟩
    · rw [eraseCasts, eraseCasts, hbl.eraseCasts_eq, hbr.eraseCasts_eq, (ihl hl).eraseCasts_eq,
        (ihr hr).eraseCasts_eq]
    · exact hbl.throughout (ihl hl).matched
    · exact hbr.throughout (ihr hr).matched
  | rowEq ls rs ihl ihr =>
    obtain ⟨ls', hls, h⟩ := Except.bind_eq_ok.1 h
    obtain ⟨rs', hrs, h⟩ := Except.bind_eq_ok.1 h
    split at h
    next => cases h
    next hlength =>
      obtain ⟨rows, hrows, h⟩ := Except.bind_eq_ok.1 h
      cases h
      obtain ⟨hbls, hbrs, hmatch⟩ := castRows_eq_ok (not_not.1 hlength) hrows
      obtain ⟨hels, hmls⟩ := eraseCasts_brought (hlist ihl hls) hbls
      obtain ⟨hers, hmrs⟩ := eraseCasts_brought (hlist ihr hrs) hbrs
      refine ⟨rfl, ?_, throughout_iff.2 ⟨hmatch, List.forall_mem_append.2 ⟨hmls, hmrs⟩⟩⟩
      rw [eraseCasts, eraseCasts, hels, hers]
  | allEqual args ih | and args ih | or args ih | call name args t ih =>
    obtain ⟨es', hes, rfl⟩ := Except.map_eq_ok.1 h
    obtain ⟨herase, hmatched⟩ := eraseCasts_recast (hlist ih hes)
    refine ⟨rfl, ?_, throughout_iff.2 ⟨trivial, hmatched⟩⟩
    rw [eraseCasts, eraseCasts, herase]
  | not e ih | isNull e ih =>
    obtain ⟨d, hd, rfl⟩ := Except.map_eq_ok.1 h
    refine ⟨rfl, ?_, throughout_iff.2 ⟨trivial, List.forall_mem_singleton.2 (ih hd).matched⟩⟩
    rw [eraseCasts, eraseCasts, (ih hd).eraseCasts_eq]
  | cast e t ih =>
    obtain ⟨d, hd, rfl⟩ := Except.map_eq_ok.1 h
    exact ⟨rfl, (ih hd).eraseCasts_eq, throughout_iff.2 ⟨trivial, List.forall_mem_singleton.2 (ih hd).matched⟩⟩
  | cached e ih =>
    obtain ⟨d, hd, rfl⟩ := Except.map_eq_ok.1 h
    refine ⟨(ih hd).type_eq, ?_, throughout_iff.2 ⟨trivial, List.forall_mem_singleton.2 (ih hd).matched⟩⟩
    rw [eraseCasts, eraseCasts, (ih hd).eraseCasts_eq]

theorem recast_list (h : withCasts.list es = .ok es') : List.Forall₂ Recast es es' := by
  rw [withCasts.list_eq_mapM, mapM_eq_ok_iff] at h
  exact h.imp fun _ _ => recast_withCasts

/-! ### Success -/

theorem exists_list_iff :
    (∃ es', withCasts.list es = .ok es') ↔ ∀ e ∈ es, ∃ e', e.withCasts = .ok e' := by
  induction es with
  | nil => exact iff_of_true ⟨[], rfl⟩ nofun
  | cons e es ih =>
    rw [List.forall_mem_cons, ← ih]
    constructor
    · rintro ⟨es', h⟩
      obtain ⟨d, hd, h⟩ := Except.bind_eq_ok.1 h
      obtain ⟨ds, hds, -⟩ := Except.bind_eq_ok.1 h
      exact ⟨⟨d, hd⟩, ds, hds⟩
    · rintro ⟨⟨d, hd⟩, ds, hds⟩
      exact ⟨_, Except.bind_eq_ok.2 ⟨d, hd, Except.bind_eq_ok.2 ⟨ds, hds, rfl⟩⟩⟩

/-- Rows whose columns have got their casts have the types that they had. -/
theorem forall₂_recast {rel : SqlType → SqlType → Prop} (hl : List.Forall₂ Recast ls es)
    (hr : List.Forall₂ Recast rs es') : List.Forall₂ (fun l r => rel l.type r.type) es es' ↔
      List.Forall₂ (fun l r => rel l.type r.type) ls rs := by
  have htypes {es es' : List Expr} (h : List.Forall₂ Recast es es') : es'.map type = es.map type := by
    induction h with
    | nil => rfl
    | cons he _ ih => rw [List.map_cons, List.map_cons, he.type_eq, ih]
  have hrows (ls rs : List Expr) : List.Forall₂ (fun l r => rel l.type r.type) ls rs ↔
      List.Forall₂ rel (ls.map type) (rs.map type) := by
    rw [List.forall₂_map_left_iff, List.forall₂_map_right_iff]
  rw [hrows, hrows, htypes hl, htypes hr]

theorem exists_compare_iff {op : Comparison} : (∃ e', (compare op l r).withCasts = .ok e') ↔
    l.type.Compares r.type ∧ (∃ l', l.withCasts = .ok l') ∧ ∃ r', r.withCasts = .ok r' := by
  constructor
  · rintro ⟨e', h⟩
    obtain ⟨l', hl, h⟩ := Except.bind_eq_ok.1 h
    obtain ⟨r', hr, h⟩ := Except.bind_eq_ok.1 h
    obtain ⟨pair, hpair, -⟩ := Except.bind_eq_ok.1 h
    have hcompares := exists_castPair_iff.1 ⟨pair, hpair⟩
    rw [(recast_withCasts hl).type_eq, (recast_withCasts hr).type_eq] at hcompares
    exact ⟨hcompares, ⟨l', hl⟩, r', hr⟩
  · rintro ⟨hcompares, ⟨l', hl⟩, r', hr⟩
    rw [← (recast_withCasts hl).type_eq, ← (recast_withCasts hr).type_eq] at hcompares
    obtain ⟨pair, hpair⟩ := exists_castPair_iff.2 hcompares
    exact ⟨_, Except.bind_eq_ok.2 ⟨l', hl, Except.bind_eq_ok.2 ⟨r', hr,
      Except.bind_eq_ok.2 ⟨pair, hpair, rfl⟩⟩⟩⟩

theorem exists_rowEq_iff : (∃ e', (rowEq ls rs).withCasts = .ok e') ↔
    List.Forall₂ (fun l r => l.type.Compares r.type) ls rs ∧
      (∃ ls', withCasts.list ls = .ok ls') ∧ ∃ rs', withCasts.list rs = .ok rs' := by
  constructor
  · rintro ⟨e', h⟩
    obtain ⟨ls', hls, h⟩ := Except.bind_eq_ok.1 h
    obtain ⟨rs', hrs, h⟩ := Except.bind_eq_ok.1 h
    split at h
    next => cases h
    next hlength =>
      obtain ⟨rows, hrows, -⟩ := Except.bind_eq_ok.1 h
      have hcompares := (exists_castRows_iff (not_not.1 hlength)).1 ⟨rows, hrows⟩
      exact ⟨(forall₂_recast (recast_list hls) (recast_list hrs)).1 hcompares, ⟨ls', hls⟩, rs', hrs⟩
  · rintro ⟨hcompares, ⟨ls', hls⟩, rs', hrs⟩
    rw [← forall₂_recast (recast_list hls) (recast_list hrs)] at hcompares
    obtain ⟨rows, hrows⟩ := (exists_castRows_iff hcompares.length_eq).2 hcompares
    refine ⟨rowEq rows.1 rows.2, Except.bind_eq_ok.2 ⟨ls', hls, Except.bind_eq_ok.2 ⟨rs', hrs, ?_⟩⟩⟩
    rw [if_neg (not_not.2 hcompares.length_eq)]
    exact Except.bind_eq_ok.2 ⟨rows, hrows, rfl⟩

/-- A condition can be given casts just if everything that is compared in it has a common type. -/
theorem exists_withCasts_iff :
    (∃ e', e.withCasts = .ok e') ↔ e.Throughout (Operands Compares) := by
  have hlist {es : List Expr}
      (ih : ∀ e ∈ es, ((∃ e', e.withCasts = .ok e') ↔ e.Throughout (Operands Compares))) :
      (∃ es', withCasts.list es = .ok es') ↔ ∀ e ∈ es, e.Throughout (Operands Compares) := by
    rw [exists_list_iff]
    exact forall₂_congr ih
  induction e with
  | column c | literal v => exact iff_of_true ⟨_, rfl⟩ (throughout_iff.2 ⟨trivial, nofun⟩)
  | compare op l r ihl ihr =>
    rw [exists_compare_iff, throughout_iff, children, List.forall_mem_cons, List.forall_mem_singleton]
    exact and_congr_right' (and_congr ihl ihr)
  | rowEq ls rs ihl ihr =>
    rw [exists_rowEq_iff, hlist ihl, hlist ihr, throughout_iff, children, List.forall_mem_append]
    rfl
  | allEqual args ih | and args ih | or args ih | call name args t ih =>
    rw [withCasts, Except.exists_map_eq_ok, hlist ih, throughout_iff]
    exact (and_iff_right trivial).symm
  | not e ih | isNull e ih | cast e t ih | cached e ih =>
    rw [withCasts, Except.exists_map_eq_ok, throughout_iff, children, List.forall_mem_singleton]
    exact ih.trans (and_iff_right trivial).symm

/-! ### Nothing to do -/

/-- Conditions in which everything that is compared matches stay as they are, and no others do. -/
theorem withCasts_eq_self_iff : e.withCasts = .ok e ↔ e.Throughout (Operands Matches) := by
  refine ⟨fun h => (recast_withCasts h).matched, fun h => ?_⟩
  have hlist {es : List Expr}
      (ih : ∀ e ∈ es, e.Throughout (Operands Matches) → e.withCasts = .ok e)
      (h : ∀ e ∈ es, e.Throughout (Operands Matches)) : withCasts.list es = .ok es := by
    rw [withCasts.list_eq_mapM, mapM_eq_ok_iff, List.forall₂_same]
    exact fun e he => ih e he (h e he)
  induction e with
  | column c | literal v => rfl
  | compare op l r ihl ihr =>
    obtain ⟨hself, hargs⟩ := throughout_iff.1 h
    rw [withCasts, ihl (hargs l (by simp [children])), ihr (hargs r (by simp [children]))]
    refine Except.bind_eq_ok.2 ⟨_, rfl, Except.bind_eq_ok.2 ⟨_, rfl, ?_⟩⟩
    exact Except.bind_eq_ok.2 ⟨_, castPair_of_matches hself, rfl⟩
  | rowEq ls rs ihl ihr =>
    obtain ⟨hself, hargs⟩ := throughout_iff.1 h
    obtain ⟨hls, hrs⟩ := List.forall_mem_append.1 hargs
    rw [withCasts, hlist ihl hls, hlist ihr hrs]
    refine Except.bind_eq_ok.2 ⟨_, rfl, Except.bind_eq_ok.2 ⟨_, rfl, ?_⟩⟩
    rw [if_neg (not_not.2 hself.length_eq)]
    exact Except.bind_eq_ok.2 ⟨_, castRows_of_matches hself, rfl⟩
  | allEqual args ih | and args ih | or args ih | call name args t ih =>
    rw [withCasts, hlist ih (throughout_iff.1 h).2]
    rfl
  | not e ih | isNull e ih | cast e t ih | cached e ih =>
    rw [withCasts, ih (List.forall_mem_singleton.1 (throughout_iff.1 h).2)]
    rfl

/-- Casts are inserted in just the conditions in which everything that is compared has a common type. Then the
operands of each comparison and the columns of compared rows match, the condition is as it was but for casts
and has the type that it had, and there is nothing more to insert. -/
theorem withCasts_exact (e : Expr) :
    ((∃ e', e.withCasts = .ok e') ↔ e.Throughout (Operands Compares)) ∧
      ∀ e', e.withCasts = .ok e' → e'.Throughout (Operands Matches) ∧ e'.eraseCasts = e.eraseCasts ∧
        e'.type = e.type ∧ e'.withCasts = .ok e' := by
  refine ⟨exists_withCasts_iff, fun e' h => ?_⟩
  have hrecast := recast_withCasts h
  exact ⟨hrecast.matched, hrecast.eraseCasts_eq, hrecast.type_eq, withCasts_eq_self_iff.2 hrecast.matched⟩

/-- `NOT ((x, NULL) = (CAST(y AS double), z))` for an integer `x`, a number `y` and a text `z` gets one cast, of
`x`, and keeps the one that is there. -/
theorem withCasts_exact_row :
    let x : Expr := column ⟨0, "t", "x", .int⟩
    let y : Expr := cast (column ⟨1, "t", "y", .int⟩) .double
    let z : Expr := column ⟨1, "t", "z", .varchar⟩
    let e : Expr := not (rowEq [x, literal .null] [y, z])
    let e' : Expr := not (rowEq [cast x .double, literal .null] [y, z])
    e.withCasts = .ok e' ∧ e.Throughout (Operands Compares) ∧ e'.Throughout (Operands Matches) ∧
      e'.eraseCasts = e.eraseCasts ∧ e'.type = e.type ∧ e'.withCasts = .ok e' := by
  intro x y z e e'
  have h : e.withCasts = .ok e' := rfl
  obtain ⟨hsome, hcasts⟩ := withCasts_exact e
  exact ⟨h, hsome.1 ⟨e', h⟩, hcasts e' h⟩

end Expr

end QueryGraph
