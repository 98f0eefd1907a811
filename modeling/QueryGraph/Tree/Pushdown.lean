import QueryGraph.Report
import QueryGraph.Tree.Basic

/-!
# Pushing conditions down

Conditions are moved down the tree, as far as the joins on the way allow.

## The model

Where a condition goes depends on the kinds of the joins and the tables below them, and not on what
the nodes carry. So the way is found first, as a list of steps, and then gone: `route` finds it, and
`perform` carries out its steps one after the other. A step puts one condition at one place, or
only tells of a weaker condition that is about to be pushed.

A condition that reads tables of both sides of a join stops there. On the way it leaves copies that
do not change the result:

* the weaker conditions that it implies on either side (`Expr.restrict`), for filtering early;
* the condition itself, on its way to a table where an index lookup could evaluate it, with the
  tables of the other side as parameters. Such a copy ends among the lookups of a table or nowhere.

At the join where it stops, a filter from above becomes a condition of an inner join or a semijoin.
Everywhere else it remains with the caller, as a join's own condition does.
-/

namespace QueryGraph

/-- A side of a join. -/
inductive Side where
  /-- The left side. -/
  | left
  /-- The right side. -/
  | right
  deriving DecidableEq

/-- The opposite side. -/
def Side.other : Side → Side
  | left => right
  | right => left

@[simp] theorem Side.other_other (s : Side) : s.other.other = s := by cases s <;> rfl

theorem Side.other_ne (s : Side) : s.other ≠ s := by cases s <;> simp [other]

theorem Side.eq_or_eq_other (u s : Side) : u = s ∨ u = s.other := by
  cases u <;> cases s <;> simp [other]

theorem Side.forall_side {p : Side → Prop} : (∀ s, p s) ↔ p left ∧ p right :=
  ⟨fun h => ⟨h left, h right⟩, fun h s => match s with | left => h.1 | right => h.2⟩

theorem Side.exists_side {p : Side → Prop} : (∃ s, p s) ↔ p left ∨ p right :=
  ⟨fun ⟨s, h⟩ => match s with | left => .inl h | right => .inr h,
    fun h => h.elim (⟨left, ·⟩) (⟨right, ·⟩)⟩

/-- What a condition is put down as. -/
inductive Role where
  /-- A filter of a table. -/
  | filter
  /-- A lookup of a table. -/
  | lookup
  /-- A condition of a join. -/
  | joinCond
  deriving DecidableEq

/-- A step on the way of a condition. -/
inductive Step where
  /-- A weaker condition is about to be pushed. -/
  | weaken (cond part : Expr)
  /-- A condition is put at the node that the path leads to. -/
  | put (path : List Side) (role : Role) (cond : Expr)

/-- The same step, seen from the join above. -/
def Step.under (s : Side) : Step → Step
  | weaken c p => weaken c p
  | put path role c => put (s :: path) role c

/-- The way of a condition: whether it remains with the caller in the end, and the steps. -/
structure Route where
  /-- Whether the condition remains with the caller. -/
  remains : Bool
  /-- The steps, first to last. -/
  steps : List Step

/-- The same way, seen from the join above. -/
def Route.under (s : Side) (r : Route) : Route := ⟨r.remains, r.steps.map (.under s)⟩

/-- The list with the condition at its end, unless it is there already. -/
def insertNew (c : Expr) (cs : List Expr) : List Expr :=
  if cs.any (·.same c) then cs else cs ++ [c]

namespace Tree

/-! ### The way -/

/-- The tables that the copy of a condition takes as parameters besides those it has. Where it reads
none of the other side, all of them are taken. -/
def lookupParams (c : Expr) (params other : TableSet) : TableSet :=
  params ∪ BitSet.wantedOrAll c.tables other

/-- The way of a condition through the tree. `own` says that it is a condition of the join at the
root, and `params` holds the tables that it takes as parameters. -/
def route (c : Expr) (own : Bool) (params : TableSet) : Tree → Route
  | leaf _ _ => ⟨false, [.put [] (if params = ∅ then .filter else .lookup) c]⟩
  | join _ info l r =>
    let openL := info.kind.opensLeft own
    let openR := info.kind.opensRight own
    if c.tables ⊆ l.tables ∪ params then
      if openL then (route c false params l).under .left else ⟨true, []⟩
    else if c.tables ⊆ r.tables ∪ params then
      if openR then (route c false params r).under .right else ⟨true, []⟩
    else
      let weaker := fun (s : Side) (t : Tree) (go : Expr → Route) =>
        match c.restrict t.tables with
        | some p => Step.weaken c p :: ((go p).under s).steps
        | none => []
      let partsL := if openL then weaker .left l (fun p => route p false params l) else []
      let partsR := if openR then weaker .right r (fun p => route p false params r) else []
      let lookupsL := if openL
        then ((route c false (lookupParams c params r.tables) l).under .left).steps else []
      let lookupsR := if openR
        then ((route c false (lookupParams c params l.tables) r).under .right).steps else []
      let copies := partsL ++ partsR ++ lookupsL ++ lookupsR
      if params ≠ ∅ then ⟨false, copies⟩
      else if own || info.kind.outerLike then ⟨true, copies⟩
      else ⟨false, copies ++ [.put [] .joinCond c]⟩

/-! ### The steps -/

/-- The node with a condition put down at it. A table takes a condition once; a table takes no join
conditions and a join nothing else. -/
def put (role : Role) (c : Expr) : Tree → Tree
  | leaf i l => match role with
    | .filter => leaf i { l with filters := insertNew c l.filters }
    | .lookup => leaf i { l with lookups := insertNew c l.lookups }
    | .joinCond => leaf i l
  | join i info l r => match role with
    | .joinCond => join i { info with conds := info.conds ++ [c] } l r
    | _ => join i info l r

/-- The tree with the node at the end of a path changed. Paths that leave the tree change nothing. -/
def updateAt (f : Tree → Tree) : List Side → Tree → Tree
  | [], t => f t
  | .left :: path, join i info l r => join i info (updateAt f path l) r
  | .right :: path, join i info l r => join i info l (updateAt f path r)
  | _ :: _, leaf i l => leaf i l

/-- The node at the end of a path. -/
def descend? : List Side → Tree → Option Tree
  | [], t => some t
  | .left :: path, join _ _ l _ => descend? path l
  | .right :: path, join _ _ _ r => descend? path r
  | _ :: _, leaf _ _ => none

/-- The tree after a step. -/
def step (t : Tree) : Step → Tree
  | .weaken _ _ => t
  | .put path role c => t.updateAt (put role c) path

/-- What the log says about a step. -/
def stepEvents (t : Tree) : Step → List Event
  | .weaken c p => [.partialPushdown c p]
  | .put path .joinCond c => (t.descend? path).toList.map fun s => .promotion c s.label
  | .put _ _ _ => []

/-- The tree after a list of steps. -/
def perform : List Step → Tree → Reported Tree
  | [], t => pure t
  | s :: steps, t => do
    (t.stepEvents s).forM Reported.event
    perform steps (t.step s)

/-! ### Whole conditions -/

/-- The tree with a condition pushed down, and whether the condition remains with the caller. -/
def pushDown (c : Expr) (own : Bool) (params : TableSet) (t : Tree) : Reported (Tree × Bool) := do
  let way := t.route c own params
  let t ← t.perform way.steps
  return (t, way.remains)

/-- The tree with every condition of a list pushed down, and those that remain with the caller. -/
def pushDownAll (own : Bool) : List Expr → Tree → Reported (Tree × List Expr)
  | [], t => pure (t, [])
  | c :: cs, t => do
    let (t, remains) ← t.pushDown c own ∅
    let (t, rest) ← t.pushDownAll own cs
    return (t, if remains then c :: rest else rest)

/-! ### The conditions of the joins -/

theorem size_updateAt (f : Tree → Tree) (hf : ∀ t, (f t).size = t.size) (path : List Side)
    (t : Tree) : (updateAt f path t).size = t.size := by
  induction path generalizing t with
  | nil => exact hf t
  | cons s path ih =>
    cases t with
    | leaf i l => cases s <;> rfl
    | join i info l r => cases s <;> simp [updateAt, size, ih]

theorem size_put (role : Role) (c : Expr) (t : Tree) : (put role c t).size = t.size := by
  cases t <;> cases role <;> rfl

theorem size_perform (steps : List Step) (t : Tree) :
    (perform steps t).value.size = t.size := by
  induction steps generalizing t with
  | nil => rfl
  | cons s steps ih =>
    rw [perform, Reported.value_bind, ih]
    cases s with
    | weaken c p => rfl
    | put path role c => exact size_updateAt _ (size_put role c) path t

theorem size_pushDownAll (own : Bool) (cs : List Expr) (t : Tree) :
    (pushDownAll own cs t).value.1.size = t.size := by
  induction cs generalizing t with
  | nil => rfl
  | cons c cs ih =>
    rw [pushDownAll, Reported.value_bind, Reported.value_bind]
    exact (ih _).trans (size_perform _ t)

/-- The tree with the conditions of the join at its root pushed down, and those that have to stay
put back. -/
def pushOwn : Tree → Reported Tree
  | leaf i l => pure (leaf i l)
  | join i info l r => do
    let (t, rest) ← pushDownAll true info.conds (join i { info with conds := [] } l r)
    return rest.foldl (fun t c => put .joinCond c t) t

theorem size_pushOwn (t : Tree) : t.pushOwn.value.size = t.size := by
  have hput (rest : List Expr) (t : Tree) :
      (rest.foldl (fun t c => put .joinCond c t) t).size = t.size := by
    induction rest generalizing t with
    | nil => rfl
    | cons c rest ih => rw [List.foldl_cons, ih, size_put]
  cases t with
  | leaf i l => rfl
  | join i info l r =>
    rw [pushOwn, Reported.value_bind]
    exact (hput _ _).trans (size_pushDownAll true _ _)

/-- The tree with the conditions of every join pushed down, the upper joins first, since what they
hand down may go further from the joins where it arrives. -/
def pushDownJoins (t : Tree) : Reported Tree :=
  let own := t.pushOwn
  match _h : own.value with
  | leaf _ _ => own
  | join i info l r => do
    let _ ← own
    let l ← pushDownJoins l
    let r ← pushDownJoins r
    return join i info l r
  termination_by t.size
  decreasing_by
    all_goals
      have hsize := size_pushOwn t
      rw [_h, size] at hsize
      omega

end Tree

end QueryGraph
