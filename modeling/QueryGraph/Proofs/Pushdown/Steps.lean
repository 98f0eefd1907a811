import QueryGraph.Proofs.Meaning.Trees
import QueryGraph.Tree.Pushdown

/-!
# The steps of a pushdown

What single steps and lists of them do to a tree, apart from the conditions that matter to its rows.

## What is proved

* `foldl_under_left`, `foldl_under_right` — steps below one side of a join act on that side.
* `SameForm` — moving conditions keeps the tables, what is visible and the scopes.
* `isLookup_route`, `unchanged_lookups` — the way of a condition with parameters puts down lookups
  only, and these change no rows.
-/

namespace QueryGraph

open BitSet

variable {R : Type} {m : Meaning R} {db : Contents R}

namespace Tree

/-- The tree after a list of steps, without the reports. -/
theorem value_perform (steps : List Step) (t : Tree) :
    (perform steps t).value = steps.foldl step t := by
  induction steps generalizing t with
  | nil => rfl
  | cons s steps ih => rw [perform, Reported.value_bind, ih, List.foldl_cons]

theorem value_pushDown (c : Expr) (own : Bool) (params : TableSet) (t : Tree) :
    (t.pushDown c own params).value =
      ((t.route c own params).steps.foldl step t, (t.route c own params).remains) := by
  rw [pushDown, Reported.value_bind, value_perform, Reported.value_pure]

theorem value_pushDownAll_cons (own : Bool) (c : Expr) (cs : List Expr) (t : Tree) :
    (pushDownAll own (c :: cs) t).value =
      let done := (pushDownAll own cs ((t.route c own ∅).steps.foldl step t)).value
      (done.1, if (t.route c own ∅).remains then c :: done.2 else done.2) := by
  have hfirst := value_pushDown c own ∅ t
  rw [pushDownAll]
  simp only [Reported.value_bind, hfirst]
  rfl

theorem foldl_under_left (steps : List Step) (i : Nat) (info : JoinInfo) (l r : Tree) :
    (steps.map (.under .left)).foldl step (join i info l r) =
      join i info (steps.foldl step l) r := by
  induction steps generalizing l with
  | nil => rfl
  | cons s steps ih => cases s <;> exact ih _

theorem foldl_under_right (steps : List Step) (i : Nat) (info : JoinInfo) (l r : Tree) :
    (steps.map (.under .right)).foldl step (join i info l r) =
      join i info l (steps.foldl step r) := by
  induction steps generalizing r with
  | nil => rfl
  | cons s steps ih => cases s <;> exact ih _

/-! ### What stays when conditions move -/

/-- The second tree is like the first in everything that says which conditions it may carry. -/
structure SameForm (t t' : Tree) : Prop where
  /-- They have the same tables. -/
  tables : t'.tables = t.tables
  /-- The same of them are visible. -/
  visible : t'.visible = t.visible
  /-- If no table is below both sides of a join, none is. -/
  separate : t.Separate → t'.Separate
  /-- If the join conditions read what is visible, they do. -/
  inScope : t.Scoped → t'.Scoped

namespace SameForm

theorem refl (t : Tree) : SameForm t t := ⟨rfl, rfl, fun h => h, fun h => h⟩

theorem trans {t t' t'' : Tree} (h : SameForm t t') (h' : SameForm t' t'') : SameForm t t'' where
  tables := h'.tables.trans h.tables
  visible := h'.visible.trans h.visible
  separate := h'.separate ∘ h.separate
  inScope := h'.inScope ∘ h.inScope

/-- A join takes its form from its sides, as long as it gets no conditions that read other tables
than those visible. -/
theorem join {i : Nat} {info info' : JoinInfo} {l l' r r' : Tree} (hl : SameForm l l')
    (hr : SameForm r r') (hkind : info'.kind = info.kind)
    (hconds : ∀ c ∈ info'.allConds, c ∈ info.allConds ∨ c.tables ⊆ l.visible ∪ r.visible) :
    SameForm (.join i info l r) (.join i info' l' r') where
  tables := by rw [Tree.tables, Tree.tables, hl.tables, hr.tables]
  visible := by rw [Tree.visible, Tree.visible, hl.visible, hr.visible, hkind]
  separate := fun ⟨hlr, hl', hr'⟩ =>
    ⟨by rw [hl.tables, hr.tables]; exact hlr, hl.separate hl', hr.separate hr'⟩
  inScope := fun ⟨hinfo, hl', hr'⟩ => by
    refine ⟨fun c hc => ?_, hl.inScope hl', hr.inScope hr'⟩
    rw [hl.visible, hr.visible]
    exact (hconds c hc).elim (hinfo c) fun h => h

/-- The sides of a join may change by themselves. -/
theorem sides {i : Nat} {info : JoinInfo} {l l' r r' : Tree} (hl : SameForm l l')
    (hr : SameForm r r') : SameForm (.join i info l r) (.join i info l' r') :=
  hl.join hr rfl fun _ => .inl

end SameForm

/-- The second tree has the same form as the first and returns the same rows. -/
structure Unchanged (m : Meaning R) (db : Contents R) (t t' : Tree) : Prop extends
    SameForm t t' where
  /-- They return the same rows. -/
  rows : t'.rows m db = t.rows m db

namespace Unchanged

theorem refl (t : Tree) : Unchanged m db t t := ⟨.refl t, rfl⟩

theorem trans {t t' t'' : Tree} (h : Unchanged m db t t') (h' : Unchanged m db t' t'') :
    Unchanged m db t t'' := ⟨h.toSameForm.trans h'.toSameForm, h'.rows.trans h.rows⟩

theorem sides {i : Nat} {info : JoinInfo} {l l' r r' : Tree} (hl : Unchanged m db l l')
    (hr : Unchanged m db r r') : Unchanged m db (.join i info l r) (.join i info l' r') where
  toSameForm := hl.toSameForm.sides hr.toSameForm
  rows := by rw [Tree.rows, Tree.rows, hl.rows, hr.rows]

end Unchanged

/-! ### The way through a join -/

/-- The steps that push into one side what a condition implies there. -/
def partSteps (c : Expr) (params : TableSet) (side : Side) (t : Tree) : List Step :=
  match c.restrict t.tables with
  | some p => .weaken c p :: ((route p false params t).under side).steps
  | none => []

/-- The steps that push a condition into one side as a lookup. -/
def lookupSteps (c : Expr) (params : TableSet) (side : Side) (t other : Tree) : List Step :=
  ((route c false (lookupParams c params other.tables) t).under side).steps

/-- The steps that leave copies of a condition below the join where it stops. -/
def copies (c : Expr) (own : Bool) (params : TableSet) (k : JoinKind) (l r : Tree) : List Step :=
  (if k.opensLeft own then partSteps c params .left l else []) ++
    (if k.opensRight own then partSteps c params .right r else []) ++
    (if k.opensLeft own then lookupSteps c params .left l r else []) ++
    (if k.opensRight own then lookupSteps c params .right r l else [])

/-- The way of a condition through a join. -/
theorem route_join (c : Expr) (own : Bool) (params : TableSet) (i : Nat) (info : JoinInfo)
    (l r : Tree) :
    (join i info l r).route c own params =
      if c.tables ⊆ l.tables ∪ params then
        if info.kind.opensLeft own then (l.route c false params).under .left else ⟨true, []⟩
      else if c.tables ⊆ r.tables ∪ params then
        if info.kind.opensRight own then (r.route c false params).under .right else ⟨true, []⟩
      else if params ≠ ∅ then ⟨false, copies c own params info.kind l r⟩
      else if own || info.kind.outerLike then ⟨true, copies c own params info.kind l r⟩
      else ⟨false, copies c own params info.kind l r ++ [.put [] .joinCond c]⟩ := rfl

end Tree

/-! ### Lookups -/

/-- The step puts down a lookup or nothing. -/
def Step.IsLookup : Step → Prop
  | weaken _ _ => True
  | put _ role _ => role = .lookup

namespace Tree

theorem isLookup_under {steps : List Step} (h : ∀ s ∈ steps, s.IsLookup) (side : Side) :
    ∀ s ∈ steps.map (Step.under side), s.IsLookup := by
  intro s hs
  obtain ⟨s', hs', rfl⟩ := List.mem_map.1 hs
  have hlookup := h s' hs'
  cases s' <;> exact hlookup

theorem lookupParams_ne_empty {params other : TableSet} (c : Expr)
    (h : params ≠ ∅ ∨ other ≠ ∅) : lookupParams c params other ≠ ∅ := by
  have hne : ∃ j, j ∈ params ∨ j ∈ BitSet.wantedOrAll c.tables other := by
    rcases h with h | h
    · exact (ne_empty_iff.1 h).imp fun _ => .inl
    · exact (ne_empty_iff.1 (wantedOrAll_ne_empty h)).imp fun _ => .inr
  exact ne_empty_iff.2 (hne.imp fun _ => mem_union.2)

/-- The way of a condition with parameters puts down lookups only. -/
theorem isLookup_route {c : Expr} {own : Bool} {params : TableSet} (hparams : params ≠ ∅) (t : Tree) :
    ∀ s ∈ (t.route c own params).steps, s.IsLookup := by
  induction t generalizing c own params with
  | leaf i l =>
    intro s hs
    obtain rfl := List.mem_singleton.1 hs
    exact if_neg hparams
  | join i info l r ihl ihr =>
    have hpart (side : Side) (t : Tree)
        (ih : ∀ p, ∀ s ∈ (t.route p false params).steps, s.IsLookup) :
        ∀ s ∈ partSteps c params side t, s.IsLookup := by
      intro s hs
      rw [partSteps] at hs
      split at hs
      next p _ =>
        rcases List.mem_cons.1 hs with rfl | hs
        · trivial
        · exact isLookup_under (ih p) side s hs
      next => cases hs
    have hcopies : ∀ s ∈ copies c own params info.kind l r, s.IsLookup := by
      have hlookup (other : Tree) : lookupParams c params other.tables ≠ ∅ :=
        lookupParams_ne_empty c (.inl hparams)
      intro s hs
      simp only [copies, List.mem_append, List.mem_ite_nil_right] at hs
      obtain ((⟨-, hs⟩ | ⟨-, hs⟩) | ⟨-, hs⟩) | ⟨-, hs⟩ := hs
      · exact hpart .left l (fun p => ihl hparams) s hs
      · exact hpart .right r (fun p => ihr hparams) s hs
      · exact isLookup_under (ihl (hlookup r)) .left s hs
      · exact isLookup_under (ihr (hlookup l)) .right s hs
    rw [route_join]
    split_ifs
    · exact isLookup_under (ihl hparams) .left
    · exact nofun
    · exact isLookup_under (ihr hparams) .right
    · exact nofun
    · exact hcopies

/-- A lookup put down anywhere changes no rows. -/
theorem unchanged_lookup (c : Expr) (path : List Side) (t : Tree) :
    Unchanged m db t (t.updateAt (put .lookup c) path) := by
  induction path generalizing t with
  | nil =>
    cases t with
    | leaf i l => exact ⟨⟨rfl, rfl, fun h => h, fun h => h⟩, rfl⟩
    | join i info l r => exact .refl _
  | cons side path ih =>
    cases t with
    | leaf i l => cases side <;> exact .refl _
    | join i info l r =>
      cases side with
      | left => exact (ih l).sides (.refl r)
      | right => exact (Unchanged.refl l).sides (ih r)

/-- Lookups change no rows. -/
theorem unchanged_lookups {steps : List Step} (h : ∀ s ∈ steps, s.IsLookup) (t : Tree) :
    Unchanged m db t (steps.foldl step t) := by
  induction steps generalizing t with
  | nil => exact .refl t
  | cons s steps ih =>
    have hstep : Unchanged m db t (t.step s) := by
      cases s with
      | weaken c p => exact .refl t
      | put path role c =>
        obtain rfl : role = .lookup := h _ List.mem_cons_self
        exact unchanged_lookup c path t
    exact hstep.trans (ih (fun s hs => h s (List.mem_cons_of_mem _ hs)) _)

end Tree

end QueryGraph
