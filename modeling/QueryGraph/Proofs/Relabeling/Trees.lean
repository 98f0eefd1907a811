import QueryGraph.Proofs.Passes.Outline
import QueryGraph.Proofs.Planning.Stages
import QueryGraph.Proofs.Pushdown.Steps
import QueryGraph.Proofs.Relabeling.Conditions

/-!
# Relabeled trees

Every condition of a relabeled query block gets the place that it has without the labels.

The passes over a tree look at its tables in two ways: whether one set of tables is part of another, and
whether two sets have a table in common. Neither depends on labels. So the way of a condition is the
same, and with it what becomes of the tree.

## What is proved

* `ofList_relabel` — the tree of a relabeled FROM list.
* `route_relabel` — the way of a relabeled condition.
* `pushDownAll_relabel`, `pushDownJoins_relabel`, `finishConds_relabel` and so on — every pass.
* `placed_relabel` — the relabeled block with all conditions in their places.
-/

namespace QueryGraph

variable {ρ : Relabeling}

/-! ### Labels in trees -/

/-- The table with its new number. Its name stays. -/
def Table.relabel (ρ : Relabeling) (t : Table) : Table := { t with number := ρ.number t.number }

mutual

/-- The FROM list with new labels. -/
def FromList.relabel (ρ : Relabeling) : FromList → FromList
  | .single item => .single (item.relabel ρ)
  | .join before item cond outer =>
    .join (before.relabel ρ) (item.relabel ρ) (cond.map (Expr.relabel ρ)) outer

/-- The item of a FROM list with new labels. -/
def FromItem.relabel (ρ : Relabeling) : FromItem → FromItem
  | .table t => .table (t.relabel ρ)
  | .nest kind list => .nest kind (list.relabel ρ)

end

mutual

/-- The tables of a relabeled FROM list. -/
theorem FromList.tables_relabel :
    (list : FromList) → (list.relabel ρ).tables = list.tables.map (Table.relabel ρ)
  | .single item => FromItem.tables_relabel item
  | .join before item cond outer => by
    rw [FromList.relabel, FromList.tables, FromList.tables, FromList.tables_relabel,
      FromItem.tables_relabel, List.map_append]

/-- The tables of a relabeled item. -/
theorem FromItem.tables_relabel : (item : FromItem) →
    FromList.itemTables (item.relabel ρ) = (FromList.itemTables item).map (Table.relabel ρ)
  | .table _ => rfl
  | .nest _ list => FromList.tables_relabel list

end

/-- The block with new labels. -/
def QueryBlock.relabel (ρ : Relabeling) (q : QueryBlock) : QueryBlock :=
  ⟨q.source.relabel ρ, q.filter.map (Expr.relabel ρ)⟩

/-- The leaf with new labels. -/
def Leaf.relabel (ρ : Relabeling) (l : Leaf) : Leaf :=
  { l with
    table := l.table.relabel ρ
    lookups := l.lookups.map (Expr.relabel ρ)
    filters := l.filters.map (Expr.relabel ρ) }

/-- What the join carries with new labels. Nodes have no labels. -/
def JoinInfo.relabel (ρ : Relabeling) (info : JoinInfo) : JoinInfo :=
  { info with
    conds := info.conds.map (Expr.relabel ρ)
    keys := info.keys.map (Expr.relabel ρ)
    usedTables := ρ.set info.usedTables }

/-- The step with new labels. -/
def Step.relabel (ρ : Relabeling) : Step → Step
  | weaken c p => weaken (c.relabel ρ) (p.relabel ρ)
  | put path role c => put path role (c.relabel ρ)

/-- The way with new labels. -/
def Route.relabel (ρ : Relabeling) (r : Route) : Route := ⟨r.remains, r.steps.map (Step.relabel ρ)⟩

@[simp] theorem JoinInfo.allConds_relabel (info : JoinInfo) :
    (info.relabel ρ).allConds = info.allConds.map (Expr.relabel ρ) := List.map_append.symm

theorem insertNew_relabel [ρ.Faithful] (c : Expr) (cs : List Expr) :
    insertNew (c.relabel ρ) (cs.map (Expr.relabel ρ)) = (insertNew c cs).map (Expr.relabel ρ) := by
  have hany : (cs.map (Expr.relabel ρ)).any (·.same (c.relabel ρ)) = cs.any (·.same c) := by
    simp [List.any_map, Function.comp_def]
  rw [insertNew, insertNew, hany]
  split
  · rfl
  · rw [List.map_append, List.map_singleton]

namespace Tree

/-- The tree with new labels. Nodes have none. -/
def relabel (ρ : Relabeling) : Tree → Tree
  | leaf i l => leaf i (l.relabel ρ)
  | join i info l r => join i (info.relabel ρ) (l.relabel ρ) (r.relabel ρ)

@[simp] theorem nodes_relabel (t : Tree) : (t.relabel ρ).nodes = t.nodes := by cases t <;> rfl

@[simp] theorem size_relabel (t : Tree) : (t.relabel ρ).size = t.size := by
  induction t with
  | leaf i l => rfl
  | join i info l r ihl ihr => rw [relabel, size, size, ihl, ihr]

@[simp] theorem leaves_relabel (t : Tree) :
    (t.relabel ρ).leaves = t.leaves.map fun x => (x.1, x.2.relabel ρ) := by
  induction t with
  | leaf i l => rfl
  | join i info l r ihl ihr => rw [relabel, leaves, leaves, ihl, ihr, List.map_append]

theorem under_relabel (side : Side) (r : Route) :
    (r.relabel ρ).under side = (r.under side).relabel ρ := by
  simp only [Route.under, Route.relabel, List.map_map, Route.mk.injEq, true_and]
  refine List.map_congr_left fun s _ => ?_
  cases s <;> rfl

theorem updateAt_relabel {f f' : Tree → Tree} (h : ∀ t, f' (t.relabel ρ) = (f t).relabel ρ)
    (path : List Side) (t : Tree) :
    updateAt f' path (t.relabel ρ) = (updateAt f path t).relabel ρ := by
  induction path generalizing t with
  | nil => exact h t
  | cons side path ih =>
    cases t with
    | leaf i l => cases side <;> rfl
    | join i info l r => cases side <;> simp only [relabel, updateAt, ih]

/-! ### The tree of a FROM list -/

theorem joinKind_relabel (outer : Bool) (item : FromItem) :
    joinKind outer (item.relabel ρ) = joinKind outer item := by
  rcases item with t | ⟨kind, list⟩
  · rfl
  · cases kind <;> rfl

mutual

theorem ofListFrom_relabel (start : Nat) : (list : FromList) →
    ofListFrom start (list.relabel ρ) = (ofListFrom start list).relabel ρ
  | .single item => ofItemFrom_relabel start item
  | .join before item cond outer => by
    simp only [FromList.relabel, ofListFrom, ofListFrom_relabel, ofItemFrom_relabel, size_relabel,
      joinKind_relabel, Expr.conjunctsOf_relabel]
    simp [relabel, JoinInfo.relabel]

theorem ofItemFrom_relabel (start : Nat) : (item : FromItem) →
    ofItemFrom start (item.relabel ρ) = (ofItemFrom start item).relabel ρ
  | .table _ => rfl
  | .nest _ list => ofListFrom_relabel start list

end

/-- The tree of a relabeled FROM list. -/
theorem ofList_relabel (list : FromList) : ofList (list.relabel ρ) = (ofList list).relabel ρ :=
  ofListFrom_relabel 0 list

variable [ρ.Faithful]

@[simp] theorem tables_relabel (t : Tree) : (t.relabel ρ).tables = ρ.set t.tables := by
  induction t with
  | leaf i l => exact (Relabeling.set_singleton _).symm
  | join i info l r ihl ihr => rw [relabel, tables, tables, ihl, ihr, Relabeling.set_union]

/-! ### The way of a condition -/

theorem lookupParams_relabel (c : Expr) (params other : TableSet) :
    lookupParams (c.relabel ρ) (ρ.set params) (ρ.set other) =
      ρ.set (lookupParams c params other) := by
  simp [lookupParams]

/-- A relabeled condition goes the same way through the relabeled tree. -/
theorem route_relabel (c : Expr) (own : Bool) (params : TableSet) (t : Tree) :
    (t.relabel ρ).route (c.relabel ρ) own (ρ.set params) = (t.route c own params).relabel ρ := by
  induction t generalizing c own params with
  | leaf i l => simp [relabel, route, Route.relabel, Step.relabel]
  | join i info l r ihl ihr =>
    have hpart (side : Side) {t : Tree}
        (ih : ∀ c own params,
          (t.relabel ρ).route (c.relabel ρ) own (ρ.set params) = (t.route c own params).relabel ρ) :
        partSteps (c.relabel ρ) (ρ.set params) side (t.relabel ρ) =
          (partSteps c params side t).map (Step.relabel ρ) := by
      rw [partSteps, partSteps, tables_relabel, Expr.restrict_relabel]
      cases c.restrict t.tables with
      | none => rfl
      | some p =>
        simp only [Option.map_some, List.map_cons, ih, under_relabel]
        rfl
    have hlookup (side : Side) {t : Tree} (other : Tree)
        (ih : ∀ c own params,
          (t.relabel ρ).route (c.relabel ρ) own (ρ.set params) = (t.route c own params).relabel ρ) :
        lookupSteps (c.relabel ρ) (ρ.set params) side (t.relabel ρ) (other.relabel ρ) =
          (lookupSteps c params side t other).map (Step.relabel ρ) := by
      rw [lookupSteps, lookupSteps, tables_relabel, lookupParams_relabel, ih, under_relabel]
      rfl
    have hcopies : copies (c.relabel ρ) own (ρ.set params) info.kind (l.relabel ρ) (r.relabel ρ) =
        (copies c own params info.kind l r).map (Step.relabel ρ) := by
      simp only [copies, hpart _ ihl, hpart _ ihr, hlookup _ _ ihl, hlookup _ _ ihr, List.map_append]
      split_ifs <;> rfl
    have hkind : (info.relabel ρ).kind = info.kind := rfl
    rw [relabel, route_join, route_join, hkind, hcopies, ihl, ihr, under_relabel, under_relabel]
    simp only [tables_relabel, Expr.tables_relabel, ← Relabeling.set_union, Relabeling.set_subset_iff,
      ne_eq, Relabeling.set_eq_empty_iff]
    split_ifs <;> simp [Route.relabel, Step.relabel]

/-! ### Pushing down -/

theorem put_relabel (role : Role) (c : Expr) (t : Tree) :
    put role (c.relabel ρ) (t.relabel ρ) = (put role c t).relabel ρ := by
  cases t <;> cases role <;>
    simp [put, relabel, Leaf.relabel, JoinInfo.relabel, insertNew_relabel]

theorem step_relabel (t : Tree) (s : Step) : (t.relabel ρ).step (s.relabel ρ) = (t.step s).relabel ρ := by
  cases s with
  | weaken c p => rfl
  | put path role c => exact updateAt_relabel (put_relabel role c) path t

theorem foldl_step_relabel (steps : List Step) (t : Tree) :
    (steps.map (Step.relabel ρ)).foldl step (t.relabel ρ) = (steps.foldl step t).relabel ρ := by
  induction steps generalizing t with
  | nil => rfl
  | cons s steps ih => rw [List.map_cons, List.foldl_cons, step_relabel, ih, List.foldl_cons]

/-- Relabeled conditions are pushed down alike, and the same of them remain. -/
theorem pushDownAll_relabel (own : Bool) (cs : List Expr) (t : Tree) :
    (pushDownAll own (cs.map (Expr.relabel ρ)) (t.relabel ρ)).value =
      ((pushDownAll own cs t).value.1.relabel ρ,
        (pushDownAll own cs t).value.2.map (Expr.relabel ρ)) := by
  induction cs generalizing t with
  | nil => rfl
  | cons c cs ih =>
    have hroute : (t.relabel ρ).route (c.relabel ρ) own ∅ = (t.route c own ∅).relabel ρ := by
      simpa using route_relabel c own ∅ t
    simp only [List.map_cons, value_pushDownAll_cons, hroute, Route.relabel, foldl_step_relabel, ih]
    split <;> rfl

theorem foldl_put_relabel (cs : List Expr) (t : Tree) :
    (cs.map (Expr.relabel ρ)).foldl (fun t c => put .joinCond c t) (t.relabel ρ) =
      (cs.foldl (fun t c => put .joinCond c t) t).relabel ρ := by
  induction cs generalizing t with
  | nil => rfl
  | cons c cs ih => rw [List.map_cons, List.foldl_cons, put_relabel, ih, List.foldl_cons]

theorem pushOwn_relabel (t : Tree) : (t.relabel ρ).pushOwn.value = t.pushOwn.value.relabel ρ := by
  cases t with
  | leaf i l => rfl
  | join i info l r =>
    have hpush : (pushDownAll true (info.conds.map (Expr.relabel ρ))
        ((join i { info with conds := [] } l r).relabel ρ)).value = _ :=
      pushDownAll_relabel true info.conds (join i { info with conds := [] } l r)
    simp only [relabel, pushOwn, Reported.value_bind, Reported.value_pure]
    rw [← foldl_put_relabel]
    exact congrArg (fun out : Tree × List Expr => out.2.foldl (fun t c => put .joinCond c t) out.1) hpush

/-- What becomes of the joins below the root when their conditions are pushed down. -/
theorem value_pushDownJoins (t : Tree) : t.pushDownJoins.value = match t.pushOwn.value with
    | leaf i l => leaf i l
    | join i info l r => join i info l.pushDownJoins.value r.pushDownJoins.value := by
  rw [pushDownJoins]
  split
  next i l h => rw [h]
  next i info l r h =>
    rw [h]
    rfl

theorem pushDownJoins_relabel (t : Tree) :
    (t.relabel ρ).pushDownJoins.value = t.pushDownJoins.value.relabel ρ := by
  induction hsize : t.size using Nat.strongRecOn generalizing t with
  | _ n ih =>
    have hroot_size := size_pushOwn t
    rw [value_pushDownJoins, value_pushDownJoins, pushOwn_relabel]
    cases hroot : t.pushOwn.value with
    | leaf i l => rfl
    | join i info l r =>
      rw [hroot, size] at hroot_size
      have hl := ih l.size (by omega) l rfl
      have hr := ih r.size (by omega) r rfl
      simp only [relabel, hl, hr]

/-! ### The other passes -/

theorem simplifyConds_relabel (t : Tree) :
    (t.relabel ρ).simplifyConds.value = t.simplifyConds.value.relabel ρ := by
  induction t with
  | leaf i l => rfl
  | join i info l r ihl ihr =>
    rw [relabel, value_simplifyConds_join, value_simplifyConds_join, ihl, ihr, relabel]
    simp [JoinInfo.relabel]

theorem recordUsedTables_relabel (t : Tree) :
    (t.relabel ρ).recordUsedTables = t.recordUsedTables.relabel ρ := by
  induction t with
  | leaf i l => rfl
  | join i info l r ihl ihr =>
    simp [relabel, recordUsedTables, ihl, ihr, JoinInfo.relabel]

theorem divideConds_relabel (left right : TableSet) (info : JoinInfo) :
    divideConds (ρ.set left) (ρ.set right) (info.relabel ρ) = (divideConds left right info).relabel ρ := by
  rw [divideConds, divideConds]
  simp only [JoinInfo.relabel, List.isEmpty_map]
  split
  · rfl
  · simp [List.filter_map, Function.comp_def]

theorem divideKeys_relabel (t : Tree) : (t.relabel ρ).divideKeys = t.divideKeys.relabel ρ := by
  induction t with
  | leaf i l => rfl
  | join i info l r ihl ihr =>
    rw [relabel, divideKeys, divideKeys, ihl, ihr, tables_relabel, tables_relabel, divideConds_relabel]
    rfl

end Tree

section

variable {fin : Finisher} (hfin : fin.Respects ρ)

include hfin

theorem Finisher.Respects.applyAll (cs : List Expr) : fin.applyAll (cs.map (Expr.relabel ρ)) =
    Except.bimap (FinishError.relabel ρ) (List.map (Expr.relabel ρ)) (fin.applyAll cs) := by
  induction cs with
  | nil => rfl
  | cons c cs ih =>
    rw [List.map_cons, Finisher.applyAll, Finisher.applyAll, hfin.apply, ih]
    refine Except.bimap_bind fun c => ?_
    exact Except.bimap_bind fun cs => rfl

/-- The final forms are found in the same order, and the same condition is the first without one. -/
theorem Tree.finishConds_relabel (t : Tree) : (t.relabel ρ).finishConds fin =
    ⟨(t.finishConds fin).tree.relabel ρ, (t.finishConds fin).error?.map (FinishError.relabel ρ)⟩ := by
  induction t with
  | leaf i l =>
    have hlookups : (l.relabel ρ).lookups = l.lookups.map (Expr.relabel ρ) := rfl
    rw [relabel, finishConds, finishConds, hlookups, hfin.applyAll]
    cases fin.applyAll l.lookups <;> rfl
  | join i info l r ihl ihr =>
    have hconds : (info.relabel ρ).conds = info.conds.map (Expr.relabel ρ) := rfl
    rw [relabel, finishConds, finishConds, ihl, ihr, hconds, hfin.applyAll]
    rcases l.finishConds fin with ⟨l', _ | e⟩
    · rcases r.finishConds fin with ⟨r', _ | e⟩
      · cases fin.applyAll info.conds <;> rfl
      · rfl
    · rfl

end

/-! ### The block -/

namespace QueryBlock

variable [ρ.Faithful] (q : QueryBlock)

theorem joined_relabel : (q.relabel ρ).joined = q.joined.relabel ρ := by
  have hsource : (q.relabel ρ).source = q.source.relabel ρ := rfl
  rw [joined, joined, hsource, Tree.ofList_relabel, Tree.simplifyConds_relabel, Tree.pushDownJoins_relabel]

theorem pushed_relabel :
    (q.relabel ρ).pushed = (q.pushed.1.relabel ρ, q.pushed.2.map (Expr.relabel ρ)) := by
  have hfilter : (q.relabel ρ).filter = q.filter.map (Expr.relabel ρ) := rfl
  rw [pushed, pushed, hfilter, Expr.conjunctsOf_relabel, Expr.simplifyAll_relabel, joined_relabel,
    Tree.pushDownAll_relabel]

/-- All conditions of the relabeled block have the same places. -/
theorem placed_relabel {fin : Finisher} (hfin : fin.Respects ρ) : (q.relabel ρ).placed fin =
    ⟨(q.placed fin).tree.relabel ρ, (q.placed fin).remaining.map (Expr.relabel ρ)⟩ := by
  simp only [placed, pushed_relabel, Tree.finishConds_relabel hfin, Tree.recordUsedTables_relabel,
    Tree.divideKeys_relabel]

end QueryBlock

end QueryGraph
