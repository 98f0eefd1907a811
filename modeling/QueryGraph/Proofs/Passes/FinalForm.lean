import Mathlib.Data.List.Forall2
import QueryGraph.Expr.FinalForm

/-!
# What a final form keeps

Functions that say the same of a condition and of its default final form.

## The model

The final form differs from the condition in casts and marks alone, wherever these stand. A function that sees
through both, and that looks at the arguments of an expression no further than the function itself does, says
the same of both (`SeesThrough`).

## What is proved

* `SeesThrough.withCasts`, `SeesThrough.withCaches` — the two parts of the final form by themselves.
* `SeesThrough.apply_default` — the default final form of a condition.
-/

namespace QueryGraph

/-! ### What succeeds -/

section

variable {ε α β : Type}

theorem Except.bind_eq_ok {x : Except ε α} {f : α → Except ε β} {b : β} :
    x >>= f = .ok b ↔ ∃ a, x = .ok a ∧ f a = .ok b := by
  constructor
  · intro h
    cases x with
    | error e => cases h
    | ok a => exact ⟨a, rfl, h⟩
  · rintro ⟨a, rfl, h⟩
    exact h

theorem Except.map_eq_ok {x : Except ε α} {f : α → β} {b : β} :
    x.map f = .ok b ↔ ∃ a, x = .ok a ∧ f a = b := by
  constructor
  · intro h
    cases x with
    | error e => cases h
    | ok a => exact ⟨a, rfl, Except.ok.inj h⟩
  · rintro ⟨a, rfl, rfl⟩
    rfl

theorem Except.exists_map_eq_ok {x : Except ε α} {f : α → β} :
    (∃ b, x.map f = .ok b) ↔ ∃ a, x = .ok a := by
  simp only [Except.map_eq_ok]
  constructor
  · rintro ⟨_, a, ha, -⟩
    exact ⟨a, ha⟩
  · rintro ⟨a, ha⟩
    exact ⟨f a, a, ha, rfl⟩

end

/-- Lists that correspond to each other do so at every place. -/
theorem exists_of_forall₂ {α β : Type} {R : α → β → Prop} {xs : List α} {ys : List β}
    (h : List.Forall₂ R xs ys) {k : Nat} {x : α} (hx : xs[k]? = some x) :
    ∃ y, ys[k]? = some y ∧ R x y := by
  induction h generalizing k with
  | nil => cases hx
  | cons hxy _ ih =>
    cases k with
    | zero =>
      cases hx
      exact ⟨_, rfl, hxy⟩
    | succ k => exact ih hx

theorem exists_of_mem_forall₂ {α β : Type} {R : α → β → Prop} {xs : List α} {ys : List β}
    (h : List.Forall₂ R xs ys) {y : β} (hy : y ∈ ys) : ∃ x ∈ xs, R x y := by
  obtain ⟨k, hk⟩ := List.mem_iff_getElem?.1 hy
  obtain ⟨x, hx, hxy⟩ := exists_of_forall₂ h.flip hk
  exact ⟨x, List.mem_of_getElem? hx, hxy⟩

/-- A loop over a list returns what its rounds return. -/
theorem mapM_eq_ok_iff {ε α β : Type} {f : α → Except ε β} {xs : List α} {ys : List β} :
    xs.mapM f = .ok ys ↔ List.Forall₂ (fun x y => f x = .ok y) xs ys := by
  induction xs generalizing ys with
  | nil => simp [pure, Except.pure, eq_comm]
  | cons x xs ih =>
    rw [List.mapM_cons, Except.bind_eq_ok, List.forall₂_cons_left_iff]
    refine exists_congr fun y => ?_
    constructor
    · rintro ⟨hy, h⟩
      obtain ⟨ys, hys, h⟩ := Except.bind_eq_ok.1 h
      cases h
      exact ⟨ys, hy, ih.1 hys, rfl⟩
    · rintro ⟨ys, hy, hys, rfl⟩
      exact ⟨hy, Except.bind_eq_ok.2 ⟨ys, ih.2 hys, rfl⟩⟩

/-- The final form of a condition is what the finisher makes of it, if that succeeds. -/
theorem Finisher.apply_eq_ok {fin : Finisher} {c d : Expr} : fin.apply c = .ok d ↔ fin.finish c = .ok d := by
  rw [apply]
  cases fin.finish c with
  | ok e =>
    show Except.ok e = Except.ok d ↔ Except.ok e = Except.ok d
    rw [Except.ok.injEq, Except.ok.injEq]
  | error e => exact iff_of_false (fun h => by cases h) fun h => by cases h

namespace Expr

/-- The function says of a cast and of a mark what it says of the expression in it, and of other expressions
what follows from what it says of their arguments. -/
structure SeesThrough {α : Type} (f : Expr → α) : Prop where
  /-- A cast does not matter. -/
  cast : ∀ e t, f (.cast e t) = f e
  /-- A mark does not matter. -/
  cached : ∀ e, f (.cached e) = f e
  /-- Of a comparison only its sides matter. -/
  compare : ∀ op {l l' r r'}, f l' = f l → f r' = f r → f (.compare op l' r') = f (.compare op l r)
  /-- Of an equality of rows only their columns matter. -/
  rowEq : ∀ {ls ls' rs rs'}, ls'.map f = ls.map f → rs'.map f = rs.map f →
    f (.rowEq ls' rs') = f (.rowEq ls rs)
  /-- Of an equality of several members only the members matter. -/
  allEqual : ∀ {ms ms'}, ms'.map f = ms.map f → f (.allEqual ms') = f (.allEqual ms)
  /-- Of a conjunction only its arguments matter. -/
  and : ∀ {es es'}, es'.map f = es.map f → f (.and es') = f (.and es)
  /-- Of a disjunction only its arguments matter. -/
  or : ∀ {es es'}, es'.map f = es.map f → f (.or es') = f (.or es)
  /-- Of a negation only its argument matters. -/
  not : ∀ {e e'}, f e' = f e → f (.not e') = f (.not e)
  /-- Of a test for NULL only its argument matters. -/
  isNull : ∀ {e e'}, f e' = f e → f (.isNull e') = f (.isNull e)
  /-- Of the value of a function only the arguments matter. -/
  call : ∀ name t {es es'}, es'.map f = es.map f → f (.call name es' t) = f (.call name es t)

namespace SeesThrough

variable {α : Type} {f : Expr → α} (hf : SeesThrough f)

include hf

theorem castTo (t : SqlType) (e : Expr) : f (e.castTo t) = f e := by
  unfold Expr.castTo
  split
  · rfl
  · exact hf.cast e t

theorem castPair {l r : Expr} {out : Expr × Expr} (h : Expr.castPair l r = .ok out) :
    f out.1 = f l ∧ f out.2 = f r := by
  unfold Expr.castPair at h
  split at h
  · cases h
    exact ⟨rfl, rfl⟩
  · split at h
    next t _ =>
      cases h
      exact ⟨hf.castTo t l, hf.castTo t r⟩
    next => cases h

theorem castRows {ls rs : List Expr} {out : List Expr × List Expr}
    (h : Expr.castRows ls rs = .ok out) : out.1.map f = ls.map f ∧ out.2.map f = rs.map f := by
  induction ls generalizing rs out with
  | nil =>
    cases h
    exact ⟨rfl, rfl⟩
  | cons l ls ih =>
    cases rs with
    | nil =>
      cases h
      exact ⟨rfl, rfl⟩
    | cons r rs =>
      obtain ⟨pair, hpair, h⟩ := Except.bind_eq_ok.1 h
      obtain ⟨rest, hrest, h⟩ := Except.bind_eq_ok.1 h
      cases h
      obtain ⟨hl, hr⟩ := hf.castPair hpair
      obtain ⟨hls, hrs⟩ := ih hrest
      exact ⟨by rw [List.map_cons, List.map_cons, hl, hls],
        by rw [List.map_cons, List.map_cons, hr, hrs]⟩

/-- Casts do not matter, wherever they stand. -/
theorem withCasts {e e' : Expr} (h : e.withCasts = .ok e') : f e' = f e := by
  have hlist {es es' : List Expr} (ih : ∀ e ∈ es, ∀ {e'}, e.withCasts = .ok e' → f e' = f e)
      (h : withCasts.list es = .ok es') : es'.map f = es.map f := by
    induction es generalizing es' with
    | nil =>
      cases h
      rfl
    | cons e es ih' =>
      obtain ⟨d, hd, h⟩ := Except.bind_eq_ok.1 h
      obtain ⟨ds, hds, h⟩ := Except.bind_eq_ok.1 h
      cases h
      rw [List.map_cons, List.map_cons, ih e List.mem_cons_self hd,
        ih' (fun e he => ih e (List.mem_cons_of_mem _ he)) hds]
  induction e generalizing e' with
  | column c =>
    cases h
    rfl
  | literal v =>
    cases h
    rfl
  | compare op l r ihl ihr =>
    obtain ⟨l', hl, h⟩ := Except.bind_eq_ok.1 h
    obtain ⟨r', hr, h⟩ := Except.bind_eq_ok.1 h
    obtain ⟨pair, hpair, h⟩ := Except.bind_eq_ok.1 h
    cases h
    obtain ⟨hl', hr'⟩ := hf.castPair hpair
    exact hf.compare op (hl'.trans (ihl hl)) (hr'.trans (ihr hr))
  | rowEq l r ihl ihr =>
    obtain ⟨ls, hls, h⟩ := Except.bind_eq_ok.1 h
    obtain ⟨rs, hrs, h⟩ := Except.bind_eq_ok.1 h
    split at h
    · cases h
    obtain ⟨rows, hrows, h⟩ := Except.bind_eq_ok.1 h
    cases h
    obtain ⟨hls', hrs'⟩ := hf.castRows hrows
    exact hf.rowEq (hls'.trans (hlist ihl hls)) (hrs'.trans (hlist ihr hrs))
  | allEqual ms ih =>
    obtain ⟨es', hes, rfl⟩ := Except.map_eq_ok.1 h
    exact hf.allEqual (hlist ih hes)
  | and args ih =>
    obtain ⟨es', hes, rfl⟩ := Except.map_eq_ok.1 h
    exact hf.and (hlist ih hes)
  | or args ih =>
    obtain ⟨es', hes, rfl⟩ := Except.map_eq_ok.1 h
    exact hf.or (hlist ih hes)
  | not e ih =>
    obtain ⟨d, hd, rfl⟩ := Except.map_eq_ok.1 h
    exact hf.not (ih hd)
  | isNull e ih =>
    obtain ⟨d, hd, rfl⟩ := Except.map_eq_ok.1 h
    exact hf.isNull (ih hd)
  | call name args t ih =>
    obtain ⟨es', hes, rfl⟩ := Except.map_eq_ok.1 h
    exact hf.call name t (hlist ih hes)
  | cast e t ih =>
    obtain ⟨d, hd, rfl⟩ := Except.map_eq_ok.1 h
    exact (hf.cast d t).trans ((ih hd).trans (hf.cast e t).symm)
  | cached e ih =>
    obtain ⟨d, hd, rfl⟩ := Except.map_eq_ok.1 h
    exact (hf.cached d).trans ((ih hd).trans (hf.cached e).symm)

/-- Marks do not matter, wherever they stand. -/
theorem cacheArg (e : Expr) : f e.cacheArg = f e := by
  have hmark {e marked : Expr} (h : f marked = f e) : f (cacheArg.mark e marked) = f e := by
    unfold cacheArg.mark
    split
    · exact hf.cached e
    · exact h
  have hlist {es : List Expr} (ih : ∀ e ∈ es, f e.cacheArg = f e) :
      (cacheArg.list es).map f = es.map f := by
    rw [cacheArg.list_eq_map, List.map_map]
    exact List.map_congr_left ih
  induction e with
  | column c => exact hmark rfl
  | literal v => rfl
  | compare op l r ihl ihr => exact hmark (hf.compare op ihl ihr)
  | rowEq l r ihl ihr => exact hmark (hf.rowEq (hlist ihl) (hlist ihr))
  | allEqual ms ih => exact hmark (hf.allEqual (hlist ih))
  | and args ih => exact hmark (hf.and (hlist ih))
  | or args ih => exact hmark (hf.or (hlist ih))
  | not e ih => exact hmark (hf.not ih)
  | isNull e ih => exact hmark (hf.isNull ih)
  | call name args t ih => exact hmark (hf.call name t (hlist ih))
  | cast e t ih => exact hmark ((hf.cast _ t).trans (ih.trans (hf.cast e t).symm))
  | cached e ih => rfl

theorem withCaches (e : Expr) : f e.withCaches = f e := by
  have hlist (es : List Expr) : (es.map Expr.cacheArg).map f = es.map f := by
    rw [List.map_map]
    exact List.map_congr_left fun e _ => hf.cacheArg e
  cases e with
  | column c => rfl
  | literal v => rfl
  | compare op l r => exact hf.compare op (hf.cacheArg l) (hf.cacheArg r)
  | rowEq l r => exact hf.rowEq (hlist l) (hlist r)
  | allEqual ms => exact hf.allEqual (hlist ms)
  | and args => exact hf.and (hlist args)
  | or args => exact hf.or (hlist args)
  | not e => exact hf.not (hf.cacheArg e)
  | isNull e => exact hf.isNull (hf.cacheArg e)
  | call name args t => exact hf.call name t (hlist args)
  | cast e t => exact (hf.cast _ t).trans ((hf.cacheArg e).trans (hf.cast e t).symm)
  | cached e => exact (hf.cached _).trans ((hf.cacheArg e).trans (hf.cached e).symm)

/-- The function says of the default final form of a condition what it says of the condition. -/
theorem apply_default {c d : Expr} (h : Finisher.default.apply c = .ok d) : f d = f c := by
  obtain ⟨e, he, rfl⟩ := Except.map_eq_ok.1 (Finisher.apply_eq_ok.1 h)
  rw [hf.withCaches, hf.withCasts he]

end SeesThrough

end Expr

end QueryGraph
