import QueryGraph.Proofs.Pushdown.Placement

/-!
# What arrives at a node

The lists of a tree after a list of steps, told from what the steps put there.

## The model

A node has a list for some of the roles of conditions and none for the others (`listed?`). What arrives at the
end of a path in a role is what the steps put down there, in their order (`arrivals`). Filters and lookups that
are there already are not added once more, join conditions are (`Role.add`).

## What is proved

* `listedAt?_foldl_step` — the lists after a run are the lists before it with the arrivals added.
* `isIn_foldl_add` — what is in a list afterwards was there or has arrived.
* `arrivals_along` — what arrives on a way that starts further down.
* `arrivals_of_side_cons`, `arrivals_of_both_cons` and so on — what arrives at a join and on its sides.
-/

namespace QueryGraph

open BitSet

/-- The list with one more condition in a role. -/
def Role.add : Role → List Expr → Expr → List Expr
  | filter, cs, c => insertNew c cs
  | lookup, cs, c => insertNew c cs
  | joinCond, cs, c => cs ++ [c]

/-- What the step puts at the end of a path in a role. -/
def Step.arrival? (role : Role) (path : List Side) : Step → Option Expr
  | weaken _ _ => none
  | put path' role' c => if path' = path ∧ role' = role then some c else none

/-- What the steps put at the end of a path in a role, first to last. -/
def arrivals (role : Role) (path : List Side) (steps : List Step) : List Expr :=
  steps.filterMap (Step.arrival? role path)

variable {role : Role} {path : List Side}

/-! ### Arrivals -/

theorem mem_arrivals {steps : List Step} {c : Expr} :
    c ∈ arrivals role path steps ↔ Step.put path role c ∈ steps := by
  rw [arrivals, List.mem_filterMap]
  constructor
  · rintro ⟨s, hs, harrival⟩
    cases s with
    | weaken d p => cases harrival
    | put path' role' d =>
      obtain ⟨⟨rfl, rfl⟩, hd⟩ := Option.ite_none_right_eq_some.1 harrival
      exact Option.some.inj hd ▸ hs
  · exact fun hs => ⟨_, hs, if_pos ⟨rfl, rfl⟩⟩

theorem arrivals_append (steps steps' : List Step) :
    arrivals role path (steps ++ steps') = arrivals role path steps ++ arrivals role path steps' :=
  List.filterMap_append

/-- Steps on one side of a join put nothing at the join. -/
theorem arrivals_under_nil (s : Side) (steps : List Step) : arrivals role [] (steps.map (.under s)) = [] := by
  rw [arrivals, List.filterMap_map, List.filterMap_eq_nil_iff]
  intro s' _
  cases s' with
  | weaken d p => rfl
  | put path' role' d => simp [Step.under, Step.arrival?]

theorem arrivals_under_cons (s s' : Side) (steps : List Step) :
    arrivals role (s' :: path) (steps.map (.under s)) = if s' = s then arrivals role path steps else [] := by
  rw [arrivals, List.filterMap_map]
  split
  next hs =>
    subst hs
    refine List.filterMap_congr fun s _ => ?_
    cases s with
    | weaken d p => rfl
    | put path' role' d => simp only [Function.comp, Step.under, Step.arrival?, List.cons.injEq, true_and]
  next hs =>
    rw [List.filterMap_eq_nil_iff]
    intro s _
    cases s with
    | weaken d p => rfl
    | put path' role' d => exact if_neg fun h => hs (List.cons.inj h.1).1.symm

/-- On a way that starts further down, everything arrives further down. -/
theorem arrivals_along (path' : List Side) (r : Route) :
    arrivals role (path' ++ path) (r.along path').steps = arrivals role path r.steps := by
  induction path' with
  | nil => rfl
  | cons s path' ih => exact (arrivals_under_cons s s _).trans ((if_pos rfl).trans ih)

theorem arrivals_along_eq_nil {path' : List Side} (h : ¬ path' <+: path) (r : Route) :
    arrivals role path (r.along path').steps = [] := by
  induction path' generalizing path with
  | nil => exact absurd List.nil_prefix h
  | cons s path' ih =>
    cases path with
    | nil => exact arrivals_under_nil s _
    | cons s' path =>
      refine (arrivals_under_cons s s' _).trans ?_
      split
      next hs =>
        refine ih fun hprefix => h ?_
        rw [hs]
        exact (List.prefix_cons_inj s).2 hprefix
      next => rfl

/-! ### Lists that conditions are added to -/

/-- The condition is in the list, as it is or written alike. -/
def Expr.IsIn (c : Expr) (cs : List Expr) : Prop := ∃ d ∈ cs, d.Alike c

theorem Expr.not_isIn_nil {c : Expr} : ¬ c.IsIn [] := by
  rintro ⟨d, hd, -⟩
  cases hd

theorem Expr.isIn_append {c : Expr} {cs ds : List Expr} : c.IsIn (cs ++ ds) ↔ c.IsIn cs ∨ c.IsIn ds := by
  simp only [IsIn, List.mem_append, or_and_right, exists_or]

theorem isIn_add {c d : Expr} {cs : List Expr} : c.IsIn (role.add cs d) ↔ c.IsIn cs ∨ d.Alike c := by
  have happend : c.IsIn (cs ++ [d]) ↔ c.IsIn cs ∨ d.Alike c := by
    rw [Expr.isIn_append]
    simp only [Expr.IsIn, List.mem_singleton, exists_eq_left]
  have hinsert : c.IsIn (insertNew d cs) ↔ c.IsIn cs ∨ d.Alike c := by
    unfold insertNew
    split
    next hany =>
      -- what is written like `d` is there already
      refine (or_iff_left_of_imp fun hd => ?_).symm
      obtain ⟨e, he, hsame⟩ := List.any_eq_true.1 hany
      refine ⟨e, he, .inr ?_⟩
      obtain rfl | hdc := hd
      · exact hsame
      · exact Expr.same_trans hsame hdc
    next => exact happend
  cases role with
  | filter | lookup => exact hinsert
  | joinCond => exact happend

/-- What is in a list after some have been added was there or is one of these. -/
theorem isIn_foldl_add {c : Expr} {cs ds : List Expr} :
    c.IsIn (ds.foldl role.add cs) ↔ c.IsIn cs ∨ c.IsIn ds := by
  induction ds generalizing cs with
  | nil => exact (or_iff_left Expr.not_isIn_nil).symm
  | cons d ds ih =>
    rw [List.foldl_cons, ih, isIn_add, or_assoc]
    simp only [Expr.IsIn, List.exists_mem_cons_iff]

theorem foldl_add_joinCond (cs ds : List Expr) : ds.foldl Role.joinCond.add cs = cs ++ ds := by
  induction ds generalizing cs with
  | nil => exact (List.append_nil cs).symm
  | cons d ds ih => exact (ih _).trans (List.append_assoc cs [d] ds)

namespace Tree

/-- Trees with the same outline have nodes at the same places. -/
theorem exists_descend?_of_outline {t t' u' : Tree} (h : t'.outline = t.outline)
    (hu' : t'.descend? path = some u') : ∃ u, t.descend? path = some u ∧ u.outline = u'.outline := by
  refine Option.map_eq_some_iff.1 ?_
  rw [← descend?_outline, ← h, descend?_outline, hu', Option.map_some]

/-! ### The lists of a tree -/

/-- The list that the node has for a role. -/
def listed? : Role → Tree → Option (List Expr)
  | .filter, leaf _ l => some l.filters
  | .lookup, leaf _ l => some l.lookups
  | .joinCond, join _ info _ _ => some info.conds
  | _, _ => none

/-- The list for a role at the end of a path. -/
def listedAt? (role : Role) (path : List Side) (t : Tree) : Option (List Expr) :=
  (t.descend? path).bind (listed? role)

theorem listedAt?_cons (n : JoinNode) (s : Side) :
    n.tree.listedAt? role (s :: path) = (n.side s).listedAt? role path :=
  congrArg (Option.bind · (listed? role)) (descend?_cons n s path)

theorem listedAt?_leaf_cons (i : Nat) (l : Leaf) (s : Side) : (leaf i l).listedAt? role (s :: path) = none := by
  cases s <;> rfl

theorem descend?_put (c : Expr) (t : Tree) (s : Side) :
    (put role c t).descend? (s :: path) = t.descend? (s :: path) := by
  cases t <;> cases role <;> cases s <;> rfl

theorem listed?_put (c : Expr) (t : Tree) :
    (put role c t).listed? role = (t.listed? role).map (role.add · c) := by
  cases t <;> cases role <;> rfl

theorem listed?_put_of_ne {role' : Role} (h : role' ≠ role) (c : Expr) (t : Tree) :
    (put role' c t).listed? role = t.listed? role := by
  cases t <;> cases role' <;> cases role <;> first | rfl | exact absurd rfl h

/-- What is put down gets into the list of its role. -/
theorem listedAt?_updateAt_put (c : Expr) (t : Tree) :
    (t.updateAt (put role c) path).listedAt? role path = (t.listedAt? role path).map (role.add · c) := by
  induction path generalizing t with
  | nil => exact listed?_put c t
  | cons s path ih =>
    cases t with
    | leaf i l => cases s <;> rfl
    | join i info l r =>
      cases s with
      | left => exact ih l
      | right => exact ih r

/-- It gets into no other list. -/
theorem listedAt?_updateAt_put_of_ne {path' : List Side} {role' : Role} (h : ¬ (path' = path ∧ role' = role))
    (c : Expr) (t : Tree) : (t.updateAt (put role' c) path').listedAt? role path = t.listedAt? role path := by
  induction path' generalizing t path with
  | nil =>
    cases path with
    | nil => exact listed?_put_of_ne (fun hrole => h ⟨rfl, hrole⟩) c t
    | cons s path => exact congrArg (Option.bind · (listed? role)) (descend?_put c t s)
  | cons s' path' ih =>
    cases t with
    | leaf i l => cases s' <;> rfl
    | join i info l r =>
      cases path with
      | nil => cases s' <;> cases role <;> rfl
      | cons s path =>
        have hside (hs : s' = s) : ¬ (path' = path ∧ role' = role) := fun heq => h ⟨by rw [hs, heq.1], heq.2⟩
        cases s' <;> cases s
        · exact ih (hside rfl) l
        · rfl
        · rfl
        · exact ih (hside rfl) r

/-- A step adds what it puts down to one list. -/
theorem listedAt?_step (s : Step) (t : Tree) : (t.step s).listedAt? role path =
    (t.listedAt? role path).map fun cs => (s.arrival? role path).elim cs (role.add cs) := by
  cases s with
  | weaken d p => exact (Option.map_id' (x := t.listedAt? role path)).symm
  | put path' role' d =>
    by_cases h : path' = path ∧ role' = role
    · obtain ⟨rfl, rfl⟩ := h
      simp only [step, listedAt?_updateAt_put, Step.arrival?, and_self, if_true, Option.elim_some]
    · simp only [step, listedAt?_updateAt_put_of_ne h, Step.arrival?, if_neg h, Option.elim_none,
        Option.map_id']

/-- **A run adds what arrives**: the lists after some steps are those before with the arrivals added. -/
theorem listedAt?_foldl_step (role : Role) (path : List Side) (steps : List Step) (t : Tree) :
    (steps.foldl step t).listedAt? role path =
      (t.listedAt? role path).map fun cs => (arrivals role path steps).foldl role.add cs := by
  induction steps generalizing t with
  | nil => simp only [List.foldl_nil, arrivals, List.filterMap_nil, Option.map_id']
  | cons s steps ih =>
    rw [List.foldl_cons, ih, listedAt?_step, Option.map_map]
    refine congrArg (Option.map · _) (funext fun cs => ?_)
    rw [Function.comp_apply, arrivals, arrivals, List.filterMap_cons]
    cases s.arrival? role path <;> rfl

/-! ### The way through a join -/

variable {c : Expr} {own : Bool} {params : TableSet} {n : JoinNode}

/-- The tables of a condition are on one side, or on both. One that may go to either side goes to the left. -/
theorem exists_side_or_both (n : JoinNode) (c : Expr) (params : TableSet) :
    (∃ s, c.tables ⊆ (n.side s).tables ∪ params ∧ (s = .right → ¬ c.tables ⊆ n.left.tables ∪ params)) ∨
      ∀ s, ¬ c.tables ⊆ (n.side s).tables ∪ params := by
  by_cases hleft : c.tables ⊆ n.left.tables ∪ params
  · exact .inl ⟨.left, hleft, nofun⟩
  by_cases hright : c.tables ⊆ n.right.tables ∪ params
  · exact .inl ⟨.right, hright, fun _ => hleft⟩
  · exact .inr (Side.forall_side.2 ⟨hleft, hright⟩)

/-- A condition on one side alone goes there, if the side is open. -/
theorem route_of_side {s : Side} (hside : c.tables ⊆ (n.side s).tables ∪ params)
    (hfirst : s = .right → ¬ c.tables ⊆ n.left.tables ∪ params) :
    n.tree.route c own params =
      if n.info.kind.opens own s then ((n.side s).route c false params).under s else ⟨true, []⟩ := by
  rw [JoinNode.tree, route_join]
  cases s with
  | left => exact if_pos hside
  | right => exact (if_neg (hfirst rfl)).trans (if_pos hside)

/-- A condition on both sides leaves copies. A filter without parameters gets to be a condition of the join,
if the join is an inner one or a semijoin. -/
theorem steps_route_of_both (hsides : ∀ s, ¬ c.tables ⊆ (n.side s).tables ∪ params) :
    (n.tree.route c own params).steps = copies c own params n.info.kind n.left n.right ++
      if params = ∅ ∧ (own || n.info.kind.outerLike) = false then [.put [] .joinCond c] else [] := by
  have hleft : ¬ c.tables ⊆ n.left.tables ∪ params := hsides .left
  have hright : ¬ c.tables ⊆ n.right.tables ∪ params := hsides .right
  rw [JoinNode.tree, route_join, if_neg hleft, if_neg hright]
  by_cases hparams : params = ∅
  · rw [if_neg (not_not_intro hparams)]
    cases own || n.info.kind.outerLike <;> simp [hparams]
  · simp [hparams]

theorem arrivals_copies_nil : arrivals role [] (copies c own params n.info.kind n.left n.right) = [] := by
  have hparts (s : Side) (t : Tree) : arrivals role [] (partSteps c params s t) = [] := by
    unfold partSteps
    split
    next p _ => exact arrivals_under_nil s (t.route p false params).steps
    next => rfl
  have hlookups (s : Side) (t other : Tree) : arrivals role [] (lookupSteps c params s t other) = [] :=
    arrivals_under_nil s _
  simp only [copies, arrivals_append, apply_ite (arrivals role []), hparts, hlookups]
  simp [arrivals]

/-- Copies arrive on the sides that are open: first those of a part of the condition, then those of the
condition itself on its way as a lookup. -/
theorem arrivals_copies_cons (s : Side) :
    arrivals role (s :: path) (copies c own params n.info.kind n.left n.right) =
      if n.info.kind.opens own s then
        (c.restrict (n.side s).tables).elim []
            (fun p => arrivals role path ((n.side s).route p false params).steps) ++
          arrivals role path ((n.side s).route c false (lookupParams c params (n.side s.other).tables)).steps
      else [] := by
  have hparts (s' : Side) : arrivals role (s :: path) (partSteps c params s' (n.side s')) =
      if s = s' then (c.restrict (n.side s').tables).elim []
        (fun p => arrivals role path ((n.side s').route p false params).steps) else [] := by
    unfold partSteps
    cases c.restrict (n.side s').tables with
    | none => exact (ite_self []).symm
    | some p => exact arrivals_under_cons s' s _
  have hlookups (s' : Side) (t other : Tree) : arrivals role (s :: path) (lookupSteps c params s' t other) =
      if s = s' then arrivals role path (t.route c false (lookupParams c params other.tables)).steps else [] :=
    arrivals_under_cons s' s _
  have hleft := hparts .left
  have hright := hparts .right
  simp only [JoinNode.side] at hleft hright
  simp only [copies, arrivals_append, apply_ite (arrivals role (s :: path)), hleft, hright, hlookups]
  cases s with
  | left =>
    cases hopen : n.info.kind.opensLeft own <;>
      simp [arrivals, JoinKind.opens, JoinNode.side, Side.other, hopen]
  | right =>
    cases hopen : n.info.kind.opensRight own <;>
      simp [arrivals, JoinKind.opens, JoinNode.side, Side.other, hopen]

section

variable {s : Side} (hside : c.tables ⊆ (n.side s).tables ∪ params)
  (hfirst : s = .right → ¬ c.tables ⊆ n.left.tables ∪ params)

include hside hfirst

/-- A condition on one side alone does not arrive at the join. -/
theorem arrivals_of_side_nil : arrivals role [] (n.tree.route c own params).steps = [] := by
  rw [route_of_side hside hfirst]
  split
  · exact arrivals_under_nil s _
  · rfl

/-- It arrives on that side, if this is open. -/
theorem arrivals_of_side_cons (s' : Side) : arrivals role (s' :: path) (n.tree.route c own params).steps =
    if s' = s ∧ n.info.kind.opens own s = true then arrivals role path ((n.side s).route c false params).steps
    else [] := by
  rw [route_of_side hside hfirst]
  cases n.info.kind.opens own s with
  | false => exact (if_neg fun h => nomatch h.2).symm
  | true => simp [Route.under, arrivals_under_cons]

end

section

variable (hboth : ∀ s, ¬ c.tables ⊆ (n.side s).tables ∪ params)

include hboth

/-- A condition on both sides arrives at the join if it stays there. -/
theorem arrivals_of_both_nil : arrivals role [] (n.tree.route c own params).steps =
    if params = ∅ ∧ (own || n.info.kind.outerLike) = false ∧ role = .joinCond then [c] else [] := by
  rw [steps_route_of_both hboth, arrivals_append, arrivals_copies_nil, List.nil_append]
  cases role <;> simp [arrivals, Step.arrival?, apply_ite (List.filterMap _)]

/-- Below the join its copies arrive. -/
theorem arrivals_of_both_cons (s : Side) : arrivals role (s :: path) (n.tree.route c own params).steps =
    arrivals role (s :: path) (copies c own params n.info.kind n.left n.right) := by
  have hput : arrivals role (s :: path) [.put [] .joinCond c] = [] := by simp [arrivals, Step.arrival?]
  rw [steps_route_of_both hboth, arrivals_append]
  split
  · rw [hput, List.append_nil]
  · exact List.append_nil _

end

end Tree

end QueryGraph
