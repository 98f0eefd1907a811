import QueryGraph.Proofs.Pushdown.Steps
import QueryGraph.Proofs.Reordering.Bare
import QueryGraph.Tree.Conditions

/-!
# What the passes leave alone

The passes over a tree move conditions and rewrite them. The `outline` of a tree is what they leave
alone: the form of the tree, the numbers of its nodes, its tables and the kinds of its joins.

The way of a condition through a tree depends on the outline alone. So it does not matter to the
condition what has been pushed down before, and the conditions that remain can be told beforehand
(`remaining_pushDownAll`).

## What is proved

* `route_outline` — the way of a condition can be read off the outline.
* `pushDownJoins_induct` — what pushing down the conditions of one join does carries over to all joins.
* `outline_pushDownAll`, `outline_pushDownJoins` and so on — every pass keeps the outline.
-/

namespace QueryGraph.Tree

/-- The tree with nothing but its tables and the kinds of its joins, numbered as it is. -/
def outline : Tree → Tree
  | leaf i l => leaf i { table := l.table }
  | join i info l r => join i { kind := info.kind, conds := [] } l.outline r.outline

/-- The kinds of the joins, in postorder. -/
def kinds (t : Tree) : List JoinKind := t.joins.map fun n => n.info.kind

theorem kinds_join (i : Nat) (info : JoinInfo) (l r : Tree) :
    (join i info l r).kinds = l.kinds ++ r.kinds ++ [info.kind] := by
  rw [kinds, joins, List.map_append, List.map_append]
  rfl

/-! ### What can be read off the outline -/

@[simp] theorem tables_outline (t : Tree) : t.outline.tables = t.tables := by
  induction t with
  | leaf i l => rfl
  | join i info l r ihl ihr => rw [outline, tables, tables, ihl, ihr]

@[simp] theorem numbers_outline (t : Tree) : t.outline.numbers = t.numbers := by
  induction t with
  | leaf i l => rfl
  | join i info l r ihl ihr => rw [outline, numbers_join, numbers_join, ihl, ihr]

@[simp] theorem kinds_outline (t : Tree) : t.outline.kinds = t.kinds := by
  induction t with
  | leaf i l => rfl
  | join i info l r ihl ihr => rw [outline, kinds_join, kinds_join, ihl, ihr]

@[simp] theorem postorder_outline (t : Tree) : t.outline.postorder = t.postorder := by
  induction t with
  | leaf i l => rfl
  | join i info l r ihl ihr =>
    simp only [postorder, outline, subtrees, List.map_append] at ihl ihr ⊢
    rw [ihl, ihr]
    rfl

theorem route_outline (c : Expr) (own : Bool) (params : TableSet) (t : Tree) :
    t.outline.route c own params = t.route c own params := by
  induction t generalizing c own params with
  | leaf i l => rfl
  | join i info l r ihl ihr => simp only [outline, route, tables_outline, ihl, ihr]

theorem descend?_outline (path : List Side) (t : Tree) :
    t.outline.descend? path = (t.descend? path).map outline := by
  induction path generalizing t with
  | nil => rfl
  | cons side path ih =>
    cases t with
    | leaf i l => cases side <;> rfl
    | join i info l r =>
      cases side
      · exact ih l
      · exact ih r

@[simp] theorem outline_bare (t : Tree) : t.bare.outline = t.outline := by
  induction t with
  | leaf i l => rfl
  | join i info l r ihl ihr =>
    rw [bare, outline, outline, ihl, ihr]
    rfl

section

variable {t t' : Tree} (h : t'.outline = t.outline)

include h

theorem tables_of_outline : t'.tables = t.tables := by rw [← tables_outline, h, tables_outline]

theorem numbers_of_outline : t'.numbers = t.numbers := by rw [← numbers_outline, h, numbers_outline]

theorem kinds_of_outline : t'.kinds = t.kinds := by rw [← kinds_outline, h, kinds_outline]

theorem postorder_of_outline : t'.postorder = t.postorder := by
  rw [← postorder_outline, h, postorder_outline]

theorem route_of_outline (c : Expr) (own : Bool) (params : TableSet) :
    t'.route c own params = t.route c own params := by
  rw [← route_outline, h, route_outline]

end

/-! ### Pushing down -/

theorem outline_put (role : Role) (c : Expr) (t : Tree) : (put role c t).outline = t.outline := by
  cases t <;> cases role <;> rfl

theorem outline_updateAt {f : Tree → Tree} (hf : ∀ t, (f t).outline = t.outline) (path : List Side)
    (t : Tree) : (t.updateAt f path).outline = t.outline := by
  induction path generalizing t with
  | nil => exact hf t
  | cons side path ih =>
    cases t with
    | leaf i l => cases side <;> rfl
    | join i info l r => cases side <;> simp only [updateAt, outline, ih]

theorem outline_step (t : Tree) (s : Step) : (t.step s).outline = t.outline := by
  cases s with
  | weaken c p => rfl
  | put path role c => exact outline_updateAt (outline_put role c) path t

theorem outline_foldl_step (steps : List Step) (t : Tree) :
    (steps.foldl step t).outline = t.outline := by
  induction steps generalizing t with
  | nil => rfl
  | cons s steps ih => exact (ih (t.step s)).trans (outline_step t s)

theorem outline_pushDownAll (own : Bool) (cs : List Expr) (t : Tree) :
    (pushDownAll own cs t).value.1.outline = t.outline := by
  induction cs generalizing t with
  | nil => rfl
  | cons c cs ih =>
    rw [value_pushDownAll_cons]
    exact (ih _).trans (outline_foldl_step _ t)

/-- A condition remains if its way says so, whatever has been pushed down before. -/
theorem remaining_pushDownAll (own : Bool) (cs : List Expr) (t : Tree) :
    (pushDownAll own cs t).value.2 = cs.filter fun c => (t.route c own ∅).remains := by
  induction cs generalizing t with
  | nil => rfl
  | cons c cs ih =>
    have hways (d : Expr) : ((t.route c own ∅).steps.foldl step t).route d own ∅ = t.route d own ∅ :=
      route_of_outline (outline_foldl_step _ t) d own ∅
    simp only [value_pushDownAll_cons, ih, hways, List.filter_cons]

theorem outline_foldl_put (cs : List Expr) (t : Tree) :
    (cs.foldl (fun t c => put .joinCond c t) t).outline = t.outline := by
  induction cs generalizing t with
  | nil => rfl
  | cons c cs ih => exact (ih _).trans (outline_put .joinCond c t)

theorem outline_pushOwn (t : Tree) : t.pushOwn.value.outline = t.outline := by
  cases t with
  | leaf i l => rfl
  | join i info l r =>
    rw [pushOwn, Reported.value_bind]
    exact (outline_foldl_put _ _).trans (outline_pushDownAll true _ _)

/-- What relates a tree to the same tree with the conditions of its root pushed down relates it to the
tree with the conditions of all joins pushed down, if it may be carried on below a join. -/
theorem pushDownJoins_induct {R : Tree → Tree → Prop} (own : ∀ t, R t t.pushOwn.value)
    (sides : ∀ {t l l' r r' : Tree} {i : Nat} {info : JoinInfo}, R t (join i info l r) → R l l' →
      R r r' → R t (join i info l' r')) (t : Tree) : R t t.pushDownJoins.value := by
  induction hsize : t.size using Nat.strongRecOn generalizing t with
  | _ n ih =>
    have hroot := own t
    have hroot_size := size_pushOwn t
    rw [pushDownJoins]
    split
    next i l hvalue => exact hroot
    next i info l r hvalue =>
      rw [hvalue] at hroot hroot_size
      rw [size] at hroot_size
      exact sides hroot (ih l.size (by omega) l rfl) (ih r.size (by omega) r rfl)

theorem outline_pushDownJoins (t : Tree) : t.pushDownJoins.value.outline = t.outline := by
  refine pushDownJoins_induct (R := fun t t' => t'.outline = t.outline) outline_pushOwn ?_ t
  intro t l l' r r' i info h hl hr
  rw [← h, outline, outline, hl, hr]

/-! ### The other passes -/

theorem value_simplifyConds_join (i : Nat) (info : JoinInfo) (l r : Tree) :
    (join i info l r).simplifyConds.value =
      join i { info with conds := Expr.simplifyAll info.conds } l.simplifyConds.value
        r.simplifyConds.value := by
  simp only [simplifyConds, Reported.value_bind]
  split <;> rfl

theorem outline_simplifyConds (t : Tree) : t.simplifyConds.value.outline = t.outline := by
  induction t with
  | leaf i l => rfl
  | join i info l r ihl ihr => rw [value_simplifyConds_join, outline, outline, ihl, ihr]

theorem outline_finishConds (fin : Finisher) (t : Tree) :
    (t.finishConds fin).tree.outline = t.outline := by
  induction t with
  | leaf i l =>
    rw [finishConds]
    split <;> rfl
  | join i info l r ihl ihr =>
    rw [finishConds]
    split
    next l' e hl =>
      rw [hl] at ihl
      rw [outline, outline, ihl]
    next l' hl =>
      rw [hl] at ihl
      split
      next r' e hr =>
        rw [hr] at ihr
        rw [outline, outline, ihl, ihr]
      next r' hr =>
        rw [hr] at ihr
        split <;> rw [outline, outline, ihl, ihr]

theorem outline_recordUsedTables (t : Tree) : t.recordUsedTables.outline = t.outline := by
  induction t with
  | leaf i l => rfl
  | join i info l r ihl ihr => rw [recordUsedTables, outline, outline, ihl, ihr]

theorem kind_divideConds (left right : TableSet) (info : JoinInfo) :
    (divideConds left right info).kind = info.kind := by
  rw [divideConds]
  split <;> rfl

theorem outline_divideKeys (t : Tree) : t.divideKeys.outline = t.outline := by
  induction t with
  | leaf i l => rfl
  | join i info l r ihl ihr => rw [divideKeys, outline, outline, ihl, ihr, kind_divideConds]

theorem outline_addTree (est : Estimator) (t : Tree) (a : Assembly) :
    (Assembly.addTree est t a).value.1.outline = t.outline := by
  rw [← outline_bare, bare_addTree, outline_bare]

end QueryGraph.Tree
