import QueryGraph.Proofs.Passes.Casts
import QueryGraph.Proofs.Passes.Tables

/-!
# Where constants are marked

What the default final form of a condition has in common with the condition, and where the marks on its
constant expressions stand.

## The model

Casts are inserted from the leaves up, and then marks are put from the root down: the walk goes through the
arguments of what reads a table, marks the first constant expression on its way and does not look into it. It
stops at literals, and at marks that are there already.

Every step of the walk rebuilds an expression from its arguments (`mapChildren`), so what is true of the
arguments carries over to it in one way for all kinds of expressions. Types are kept on the way, hence a
condition that needs no more casts needs none after it has got its marks.

## What is proved

* `cacheArg_cases` — what becomes of an argument.
* `withCaches_withCaches`, `Throughout.withCaches` — a second walk changes nothing and calls for no cast.
* `condensed_withCaches`, `marks_withCaches` — no constant is left without a mark, and no mark is superfluous.
* `finish_transparent` — all of it for the default final form.
-/

namespace QueryGraph.Expr

variable {e e' r : Expr} {f g : Expr → Expr}

/-! ### Arguments -/

/-- Induction on expressions, with the hypothesis for every argument. -/
theorem inductChildren {motive : Expr → Prop} (step : ∀ e, (∀ d ∈ e.children, motive d) → motive e) (e : Expr) :
    motive e := by
  induction e with
  | column c | literal v => exact step _ nofun
  | compare op l r ihl ihr => exact step _ (List.forall_mem_cons.2 ⟨ihl, List.forall_mem_singleton.2 ihr⟩)
  | rowEq ls rs ihl ihr => exact step _ (List.forall_mem_append.2 ⟨ihl, ihr⟩)
  | allEqual args ih | and args ih | or args ih | call name args t ih => exact step _ ih
  | not e ih | isNull e ih | cast e t ih | cached e ih => exact step _ (List.forall_mem_singleton.2 ih)

/-- The expression with a function applied to each of its arguments. -/
def mapChildren (f : Expr → Expr) : Expr → Expr
  | column c => column c
  | literal v => literal v
  | compare op l r => compare op (f l) (f r)
  | rowEq ls rs => rowEq (ls.map f) (rs.map f)
  | allEqual ms => allEqual (ms.map f)
  | and args => and (args.map f)
  | or args => or (args.map f)
  | not e => not (f e)
  | isNull e => isNull (f e)
  | call name args t => call name (args.map f) t
  | cast e t => cast (f e) t
  | cached e => cached (f e)

@[simp] theorem children_mapChildren (f : Expr → Expr) (e : Expr) :
    (e.mapChildren f).children = e.children.map f := by
  cases e <;> simp [mapChildren, children]

theorem mapChildren_mapChildren (f g : Expr → Expr) (e : Expr) :
    (e.mapChildren f).mapChildren g = e.mapChildren (g ∘ f) := by
  cases e <;> simp [mapChildren]

theorem mapChildren_congr (h : ∀ d ∈ e.children, f d = g d) : e.mapChildren f = e.mapChildren g := by
  cases e <;> simp_all [mapChildren, children]

theorem isEquality_mapChildren (f : Expr → Expr) (e : Expr) : (e.mapChildren f).isEquality = e.isEquality := by
  cases e <;> rfl

theorem rowWidth_mapChildren (f : Expr → Expr) (e : Expr) : (e.mapChildren f).rowWidth = e.rowWidth := by
  cases e <;> simp [mapChildren, rowWidth]

section

variable (h : ∀ d ∈ e.children, (f d).type = d.type)

include h

theorem type_mapChildren : (e.mapChildren f).type = e.type := by
  cases e with
  | cached d => exact h d (List.mem_singleton_self d)
  | _ => rfl

/-- Arguments of the same types are compared alike. -/
theorem operands_mapChildren {rel : SqlType → SqlType → Prop} :
    (e.mapChildren f).Operands rel ↔ e.Operands rel := by
  cases e with
  | compare op l r =>
    rw [mapChildren, Operands, Operands, h l (by simp [children]), h r (by simp [children])]
  | rowEq ls rs =>
    obtain ⟨hls, hrs⟩ := List.forall_mem_append.1 h
    have hrows (as bs : List Expr) : List.Forall₂ (fun a b => rel a.type b.type) as bs ↔
        List.Forall₂ rel (as.map type) (bs.map type) := by
      rw [List.forall₂_map_left_iff, List.forall₂_map_right_iff]
    have hls' : (ls.map f).map type = ls.map type := by rw [List.map_map]; exact List.map_congr_left hls
    have hrs' : (rs.map f).map type = rs.map type := by rw [List.map_map]; exact List.map_congr_left hrs
    rw [mapChildren, Operands, Operands, hrows, hrows, hls', hrs']
  | _ => exact Iff.rfl

end

/-! ### One argument -/

/-- The walk stops at the expression: it is a literal, or marked already. -/
def Stops (e : Expr) : Prop := (∃ v, e = literal v) ∨ ∃ d, e = cached d

theorem stops_mapChildren : (e.mapChildren f).Stops ↔ e.Stops := by
  cases e <;> simp [mapChildren, Stops]

/-- What becomes of an argument: the walk stops there, it is marked, or its own arguments come next. -/
theorem cacheArg_cases (e : Expr) : e.Stops ∧ e.cacheArg = e ∨
    ¬ e.Stops ∧ e.isConst = true ∧ e.cacheArg = cached e ∨
      ¬ e.Stops ∧ e.isConst = false ∧ e.cacheArg = e.mapChildren cacheArg := by
  have hmark (marked : Expr) : e.isConst = true ∧ cacheArg.mark e marked = cached e ∨
      e.isConst = false ∧ cacheArg.mark e marked = marked := by
    unfold cacheArg.mark
    cases e.isConst
    · exact .inr ⟨rfl, rfl⟩
    · exact .inl ⟨rfl, rfl⟩
  cases e with
  | literal v => exact .inl ⟨.inl ⟨v, rfl⟩, rfl⟩
  | cached d => exact .inl ⟨.inr ⟨d, rfl⟩, rfl⟩
  | _ =>
    simp only [cacheArg, cacheArg.list_eq_map, mapChildren]
    exact .inr ((hmark _).imp (⟨by simp [Stops], ·⟩) (⟨by simp [Stops], ·⟩))

theorem withCaches_eq_mapChildren (e : Expr) : e.withCaches = e.mapChildren cacheArg := by cases e <;> rfl

@[simp] theorem tables_cacheArg (e : Expr) : e.cacheArg.tables = e.tables := seesThrough_tables.cacheArg e

@[simp] theorem isConst_cacheArg (e : Expr) : e.cacheArg.isConst = e.isConst := by
  rw [isConst, isConst, tables_cacheArg]

theorem type_cacheArg (e : Expr) : e.cacheArg.type = e.type := by
  induction e using inductChildren with
  | step e ih =>
    obtain ⟨-, h⟩ | ⟨-, -, h⟩ | ⟨-, -, h⟩ := cacheArg_cases e <;> rw [h]
    · rfl
    · exact type_mapChildren ih

/-- A second walk changes nothing. -/
theorem cacheArg_cacheArg (e : Expr) : e.cacheArg.cacheArg = e.cacheArg := by
  induction e using inductChildren with
  | step e ih =>
    obtain ⟨-, h⟩ | ⟨-, -, h⟩ | ⟨hstops, hconst, h⟩ := cacheArg_cases e
    · rw [h, h]
    · rw [h]
      rfl
    · have hstops' : ¬ e.cacheArg.Stops := by rwa [h, stops_mapChildren]
      obtain ⟨hs, -⟩ | ⟨-, hc, -⟩ | ⟨-, -, h'⟩ := cacheArg_cases e.cacheArg
      · exact absurd hs hstops'
      · rw [isConst_cacheArg, hconst] at hc
        cases hc
      · rw [h', h, mapChildren_mapChildren]
        exact mapChildren_congr ih

theorem withCaches_withCaches (e : Expr) : e.withCaches.withCaches = e.withCaches := by
  simp only [withCaches_eq_mapChildren, mapChildren_mapChildren]
  exact mapChildren_congr fun d _ => cacheArg_cacheArg d

theorem type_withCaches (e : Expr) : e.withCaches.type = e.type := by
  rw [withCaches_eq_mapChildren]
  exact type_mapChildren fun d _ => type_cacheArg d

/-! ### Comparisons below marks -/

section

variable {rel : SqlType → SqlType → Prop}

/-- What is compared in arguments with marks is compared in the arguments without them. -/
theorem Throughout.mapChildren_cacheArg (h : e.Throughout (Operands rel))
    (hargs : ∀ d ∈ e.children, d.cacheArg.Throughout (Operands rel)) :
    (e.mapChildren cacheArg).Throughout (Operands rel) := by
  refine throughout_iff.2 ⟨?_, ?_⟩
  · exact (operands_mapChildren fun d _ => type_cacheArg d).2 (throughout_iff.1 h).1
  · rw [children_mapChildren]
    exact List.forall_mem_map.2 hargs

theorem Throughout.cacheArg (h : e.Throughout (Operands rel)) : e.cacheArg.Throughout (Operands rel) := by
  induction e using inductChildren with
  | step e ih =>
    obtain ⟨-, heq⟩ | ⟨-, -, heq⟩ | ⟨-, -, heq⟩ := cacheArg_cases e <;> rw [heq]
    · exact h
    · exact throughout_iff.2 ⟨trivial, List.forall_mem_singleton.2 h⟩
    · exact h.mapChildren_cacheArg fun d hd => ih d hd ((throughout_iff.1 h).2 d hd)

theorem Throughout.withCaches (h : e.Throughout (Operands rel)) : e.withCaches.Throughout (Operands rel) := by
  rw [withCaches_eq_mapChildren]
  exact h.mapChildren_cacheArg fun d hd => Throughout.cacheArg ((throughout_iff.1 h).2 d hd)

end

/-! ### No constant without a mark -/

/-- The first expression stands in the second one, below its root and not inside a mark. -/
inductive Exposed : Expr → Expr → Prop where
  /-- An argument of what is no mark. -/
  | arg {d e : Expr} (he : ∀ m, e ≠ cached m) (hd : d ∈ e.children) : Exposed d e
  /-- What is exposed in an argument of what is no mark. -/
  | inner {p d e : Expr} (he : ∀ m, e ≠ cached m) (hd : d ∈ e.children) (hp : Exposed p d) : Exposed p e

/-- The constants that are exposed in the expression are literals and marks. -/
def Condensed (e : Expr) : Prop := ∀ p : Expr, p.Exposed e → p.isConst = true → p.Stops

theorem condensed_of_children (h : ∀ d ∈ e.children, (d.isConst = true → d.Stops) ∧ d.Condensed) :
    e.Condensed := by
  intro p hp hconst
  cases hp with
  | arg _ hd => exact (h p hd).1 hconst
  | inner _ hd hp => exact (h _ hd).2 p hp hconst

/-- Nothing is exposed where the walk stops. -/
theorem Stops.condensed (h : e.Stops) : e.Condensed := by
  obtain ⟨v, rfl⟩ | ⟨m, rfl⟩ := h
  · exact condensed_of_children nofun
  · intro p hp _
    cases hp with
    | arg he _ => exact absurd rfl (he m)
    | inner he _ _ => exact absurd rfl (he m)

theorem condensed_cacheArg (e : Expr) :
    (e.cacheArg.isConst = true → e.cacheArg.Stops) ∧ e.cacheArg.Condensed := by
  induction e using inductChildren with
  | step e ih =>
    obtain ⟨hstops, h⟩ | ⟨-, -, h⟩ | ⟨-, hconst, h⟩ := cacheArg_cases e
    · rw [h]
      exact ⟨fun _ => hstops, hstops.condensed⟩
    · have hstops : e.cacheArg.Stops := .inr ⟨e, h⟩
      exact ⟨fun _ => hstops, hstops.condensed⟩
    · refine ⟨fun hc => ?_, condensed_of_children ?_⟩
      · rw [isConst_cacheArg, hconst] at hc
        cases hc
      · rw [h, children_mapChildren]
        exact List.forall_mem_map.2 ih

theorem condensed_withCaches (e : Expr) : e.withCaches.Condensed := by
  refine condensed_of_children ?_
  rw [withCaches_eq_mapChildren, children_mapChildren]
  exact List.forall_mem_map.2 fun d _ => condensed_cacheArg d

/-! ### No superfluous mark -/

/-- The expression is no mark. -/
def Unmarked (e : Expr) : Prop := ∀ m, e ≠ cached m

theorem unmarked_mapChildren : (e.mapChildren f).Unmarked ↔ e.Unmarked := by
  cases e <;> simp [mapChildren, Unmarked]

theorem eraseCasts_of_ne_cast (h : ∀ d t, e ≠ cast d t) : e.eraseCasts = e.mapChildren eraseCasts := by
  have hlist (es : List Expr) : eraseCasts.list es = es.map eraseCasts := by
    induction es with
    | nil => rfl
    | cons e es ih => rw [eraseCasts.list, ih, List.map_cons]
  cases e with
  | cast d t => exact absurd rfl (h d t)
  | _ => simp only [eraseCasts, mapChildren, hlist]

/-- Casts are no marks. -/
theorem unmarked_eraseCasts (e : Expr) : e.eraseCasts.Throughout Unmarked ↔ e.Throughout Unmarked := by
  induction e using inductChildren with
  | step e ih =>
    by_cases h : ∃ d t, e = cast d t
    · obtain ⟨d, t, rfl⟩ := h
      have hcast : (cast d t).Unmarked := by
        intro m hm
        cases hm
      rw [eraseCasts, ih d (List.mem_singleton_self d), throughout_iff (e := cast d t), children,
        List.forall_mem_singleton, and_iff_right hcast]
    · rw [eraseCasts_of_ne_cast fun d t heq => h ⟨d, t, heq⟩, throughout_iff, throughout_iff (e := e),
        unmarked_mapChildren, children_mapChildren, List.forall_mem_map]
      exact and_congr_right fun _ => forall₂_congr ih

theorem unmarked_withCasts (h : e.withCasts = .ok e') (he : e.Throughout Unmarked) :
    e'.Throughout Unmarked := by
  rw [← unmarked_eraseCasts, (recast_withCasts h).eraseCasts_eq, unmarked_eraseCasts]
  exact he

theorem Throughout.of_partOf {P : Expr → Prop} {q : Expr} (h : e.Throughout P) (hq : q.PartOf e) :
    q.Throughout P := by
  induction hq with
  | refl => exact h
  | arg hd _ ih => exact ih ((throughout_iff.1 h).2 _ hd)

/-- The expression that is marked is constant and no literal. -/
def MarksConst (m : Expr) : Prop := m.isConst = true ∧ ∀ v, m ≠ literal v

/-- Marks among the arguments of a part of the expression are on constants that are no literals, and the part
reads tables. -/
def MarkedWell (e : Expr) : Prop :=
  ∀ q : Expr, q.PartOf e → ∀ m, cached m ∈ q.children → m.MarksConst ∧ q.isConst = false

theorem markedWell_of_children (hself : ∀ m, cached m ∈ e.children → m.MarksConst ∧ e.isConst = false)
    (h : ∀ d ∈ e.children, d.MarkedWell) : e.MarkedWell := by
  intro q hq
  cases hq with
  | refl => exact hself
  | arg hd hq => exact h _ hd q hq

theorem not_mem_children_of_unmarked (h : e.Throughout Unmarked) (m : Expr) : cached m ∉ e.children :=
  fun hm => (throughout_iff.1 ((throughout_iff.1 h).2 _ hm)).1 m rfl

theorem markedWell_of_unmarked (h : e.Throughout Unmarked) : e.MarkedWell :=
  fun _ hq m hm => absurd hm (not_mem_children_of_unmarked (h.of_partOf hq) m)

/-- A mark that comes where there was none is on a constant that is no literal. -/
theorem marksConst_of_cacheArg {m : Expr} (he : e.Unmarked) (h : e.cacheArg = cached m) : m.MarksConst := by
  obtain ⟨-, heq⟩ | ⟨hstops, hconst, heq⟩ | ⟨-, -, heq⟩ := cacheArg_cases e
  · exact absurd (heq.symm.trans h) (he m)
  · obtain rfl : e = m := cached.inj (heq.symm.trans h)
    exact ⟨hconst, fun v hv => hstops (.inl ⟨v, hv⟩)⟩
  · exact absurd (heq.symm.trans h) (unmarked_mapChildren.2 he m)

/-- The marks among the arguments after the walk. -/
theorem marksConst_of_mem {m : Expr} (h : e.Throughout Unmarked)
    (hm : cached m ∈ (e.mapChildren cacheArg).children) : m.MarksConst := by
  rw [children_mapChildren] at hm
  obtain ⟨d, hd, heq⟩ := List.mem_map.1 hm
  exact marksConst_of_cacheArg (throughout_iff.1 ((throughout_iff.1 h).2 d hd)).1 heq

theorem markedWell_cacheArg (h : e.Throughout Unmarked) : e.cacheArg.MarkedWell := by
  induction e using inductChildren with
  | step e ih =>
    obtain ⟨-, heq⟩ | ⟨-, -, heq⟩ | ⟨-, hconst, heq⟩ := cacheArg_cases e
    · rw [heq]
      exact markedWell_of_unmarked h
    · rw [heq]
      refine markedWell_of_children (fun m hm => ?_) (List.forall_mem_singleton.2 (markedWell_of_unmarked h))
      exact absurd (List.mem_singleton.1 hm).symm ((throughout_iff.1 h).1 m)
    · refine markedWell_of_children (fun m hm => ?_) ?_
      · rw [heq] at hm
        exact ⟨marksConst_of_mem h hm, by rw [isConst_cacheArg, hconst]⟩
      · rw [heq, children_mapChildren]
        exact List.forall_mem_map.2 fun d hd => ih d hd ((throughout_iff.1 h).2 d hd)

/-- Of the expression as a whole there may be a mark among the arguments although it reads no tables. -/
theorem marks_withCaches (h : e.Throughout Unmarked) : e.withCaches.Unmarked ∧
    ∀ q : Expr, q.PartOf e.withCaches → ∀ m, cached m ∈ q.children →
      m.MarksConst ∧ (q = e.withCaches ∨ q.isConst = false) := by
  rw [withCaches_eq_mapChildren]
  refine ⟨unmarked_mapChildren.2 (throughout_iff.1 h).1, fun q hq m hm => ?_⟩
  cases hq with
  | refl => exact ⟨marksConst_of_mem h hm, .inl rfl⟩
  | arg hd hq =>
    rw [children_mapChildren] at hd
    obtain ⟨c, hc, rfl⟩ := List.mem_map.1 hd
    exact (markedWell_cacheArg ((throughout_iff.1 h).2 c hc) q hq m hm).imp_right .inr

/-! ### The default final form -/

theorem seesThrough_rejected : SeesThrough rejected where
  cast _ _ := rfl
  cached _ := rfl
  compare op _ _ _ _ hl hr := by cases op <;> simp only [rejected, hl, hr]
  rowEq hl hr := by simp only [rejected, rejected.list_eq_map, hl, hr]
  allEqual h := by simp only [rejected, rejected.list_eq_map, h]
  and h := by simp only [rejected, rejected.list_eq_map, h]
  or h := by simp only [rejected, rejected.list_eq_map, h]
  not _ := rfl
  isNull _ := rfl
  call _ _ _ _ _ := rfl

/-- Casts inside an expression do not change what kind of expression it is. -/
theorem kind_withCasts (h : e.withCasts = .ok e') :
    e'.isEquality = e.isEquality ∧ e'.rowWidth = e.rowWidth := by
  cases e with
  | column c | literal v =>
    cases h
    exact ⟨rfl, rfl⟩
  | compare op l r =>
    obtain ⟨l', -, h⟩ := Except.bind_eq_ok.1 h
    obtain ⟨r', -, h⟩ := Except.bind_eq_ok.1 h
    obtain ⟨pair, -, h⟩ := Except.bind_eq_ok.1 h
    cases h
    exact ⟨rfl, rfl⟩
  | rowEq ls rs =>
    obtain ⟨ls', hls, h⟩ := Except.bind_eq_ok.1 h
    obtain ⟨rs', -, h⟩ := Except.bind_eq_ok.1 h
    split at h
    next => cases h
    next hlength =>
      obtain ⟨rows, hrows, h⟩ := Except.bind_eq_ok.1 h
      cases h
      have hbrought := (castRows_eq_ok (not_not.1 hlength) hrows).1
      exact ⟨rfl, hbrought.length_eq.symm.trans (recast_list hls).length_eq.symm⟩
  | allEqual args | and args | or args | call name args t =>
    obtain ⟨es', -, rfl⟩ := Except.map_eq_ok.1 h
    exact ⟨rfl, rfl⟩
  | not e | isNull e | cast e t | cached e =>
    obtain ⟨d, -, rfl⟩ := Except.map_eq_ok.1 h
    exact ⟨rfl, rfl⟩

/-- The default final form of a final form is that form itself. -/
theorem finish_withCaches (h : e.withCasts = .ok e') :
    Finisher.default.finish e'.withCaches = .ok e'.withCaches := by
  have hmatched : e'.withCaches.Throughout (Operands SqlType.Matches) := (recast_withCasts h).matched.withCaches
  show e'.withCaches.withCasts.map withCaches = .ok e'.withCaches
  rw [withCasts_eq_self_iff.2 hmatched, Except.map_eq_ok]
  exact ⟨_, rfl, withCaches_withCaches e'⟩

/-- **Later passes cannot tell the default final form from the condition.** The two read the same tables,
reject NULL on the same tables, have the same type and are the same kind of equality with equally wide rows,
and a final form is its own final form. In the final form all constants below the root that are not inside a
mark are literals or marked; and if nothing in the condition was marked, then neither is the final form as a
whole, and every mark in it is on a constant that is no literal, as an argument of the root or of what reads
a table. -/
theorem finish_transparent (h : Finisher.default.finish e = .ok r) :
    r.tables = e.tables ∧ r.rejected = e.rejected ∧ r.type = e.type ∧ r.isEquality = e.isEquality ∧
      r.rowWidth = e.rowWidth ∧ Finisher.default.finish r = .ok r ∧
      (∀ p : Expr, p.Exposed r → p.isConst = true → p.Stops) ∧
      (e.Throughout Unmarked → r.Unmarked ∧ ∀ q : Expr, q.PartOf r → ∀ m, cached m ∈ q.children →
        m.MarksConst ∧ (q = r ∨ q.isConst = false)) := by
  obtain ⟨e', hcasts, rfl⟩ := Except.map_eq_ok.1 h
  obtain ⟨hequality, hwidth⟩ := kind_withCasts hcasts
  refine ⟨?_, ?_, ?_, ?_, ?_, finish_withCaches hcasts, condensed_withCaches e', fun he => ?_⟩
  · rw [seesThrough_tables.withCaches, seesThrough_tables.withCasts hcasts]
  · rw [seesThrough_rejected.withCaches, seesThrough_rejected.withCasts hcasts]
  · rw [type_withCaches, (recast_withCasts hcasts).type_eq]
  · rw [withCaches_eq_mapChildren, isEquality_mapChildren, hequality]
  · rw [withCaches_eq_mapChildren, rowWidth_mapChildren, hwidth]
  · exact marks_withCaches (unmarked_withCasts hcasts he)

/-- `x < plus(1, abs(1)) OR 1 = 1` for an integer `x` and a sum that is a double: `x` gets a cast, and the sum
and the second comparison are marked, each as a whole. -/
theorem finish_transparent_sum :
    let x : Expr := column ⟨0, "t", "x", .int⟩
    let one : Expr := literal (.int 1)
    let sum : Expr := call "plus" [one, call "abs" [one] .int] .double
    let e : Expr := or [compare .lt x sum, compare .eq one one]
    let r : Expr := or [compare .lt (cast x .double) (cached sum), cached (compare .eq one one)]
    Finisher.default.finish e = .ok r ∧ e.Throughout Unmarked ∧
      r.tables = e.tables ∧ r.rejected = e.rejected ∧ r.type = e.type ∧ r.isEquality = e.isEquality ∧
      r.rowWidth = e.rowWidth ∧ Finisher.default.finish r = .ok r ∧
      (∀ p : Expr, p.Exposed r → p.isConst = true → p.Stops) ∧ r.Unmarked ∧
      ∀ q : Expr, q.PartOf r → ∀ m, cached m ∈ q.children → m.MarksConst ∧ (q = r ∨ q.isConst = false) := by
  intro x one sum e r
  have h : Finisher.default.finish e = .ok r := rfl
  have hx : x.Throughout Unmarked := throughout_iff.2 ⟨nofun, nofun⟩
  have hone : one.Throughout Unmarked := throughout_iff.2 ⟨nofun, nofun⟩
  have habs : (call "abs" [one] .int).Throughout Unmarked :=
    throughout_iff.2 ⟨nofun, List.forall_mem_singleton.2 hone⟩
  have hpair {a b : Expr} (ha : a.Throughout Unmarked) (hb : b.Throughout Unmarked) :
      ∀ d ∈ [a, b], d.Throughout Unmarked := List.forall_mem_cons.2 ⟨ha, List.forall_mem_singleton.2 hb⟩
  have hsum : sum.Throughout Unmarked := throughout_iff.2 ⟨nofun, hpair hone habs⟩
  have hunmarked : e.Throughout Unmarked := throughout_iff.2 ⟨nofun,
    hpair (throughout_iff.2 ⟨nofun, hpair hx hsum⟩) (throughout_iff.2 ⟨nofun, hpair hone hone⟩)⟩
  obtain ⟨htables, hrejected, htype, hequality, hwidth, hagain, hcondensed, hmarks⟩ := finish_transparent h
  exact ⟨h, hunmarked, htables, hrejected, htype, hequality, hwidth, hagain, hcondensed, hmarks hunmarked⟩

end QueryGraph.Expr
