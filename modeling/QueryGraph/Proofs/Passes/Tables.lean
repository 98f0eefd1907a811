import QueryGraph.Expr.Equalities
import QueryGraph.Proofs.Meaning.Restriction
import QueryGraph.Proofs.Passes.FinalForm

/-!
# The tables of rewritten conditions

Which tables a condition reads when it has been simplified or brought into its final form.

A condition may lose tables when it is simplified, since an equality of several members is decided by
its constants where it can be. It gains none. Its final form reads the same tables.

## What is proved

* `tables_subset_of_conjunct` — the conjuncts of a condition read no more than the condition.
* `tables_simplifyAll_subset` — neither do simplified conditions.
* `keepsTables_default` — the default final form of a condition reads the same tables.
-/

namespace QueryGraph

open BitSet

/-! ### Conjuncts -/

namespace Expr

theorem tables_subset_tablesOf {c : Expr} {cs : List Expr} (h : c ∈ cs) : c.tables ⊆ tablesOf cs :=
  unions_subset.1 (Subset.refl _) c h

theorem tablesOf_append (cs ds : List Expr) : tablesOf (cs ++ ds) = tablesOf cs ∪ tablesOf ds := by
  refine BitSet.ext fun i => ?_
  simp only [tablesOf, mem_union, mem_unions, List.mem_map, List.mem_append, or_and_right, exists_or]

theorem tablesOf_perm {cs ds : List Expr} (h : cs.Perm ds) : tablesOf cs = tablesOf ds := by
  refine BitSet.ext fun i => ?_
  simp only [tablesOf, mem_unions, List.mem_map, exists_exists_and_eq_and, h.mem_iff]

theorem tables_and (args : List Expr) : (and args).tables = tablesOf args := by
  rw [tables, tables.list_eq_map, tablesOf]

theorem tablesOf_singleton (c : Expr) : tablesOf [c] = c.tables := union_empty c.tables

/-- The conjuncts of a condition read no more than the condition. -/
theorem tables_subset_of_conjunct {e c : Expr} (h : c ∈ e.conjuncts) : c.tables ⊆ e.tables := by
  induction e generalizing c with
  | and args ih =>
    rw [conjuncts, conjuncts.list_eq_flatMap] at h
    obtain ⟨e, he, hc⟩ := List.mem_flatMap.1 h
    rw [tables_and]
    exact Subset.trans (ih e he hc) (tables_subset_tablesOf he)
  | _ =>
    obtain rfl := List.mem_singleton.1 h
    exact Subset.refl _

/-! ### Simplified conditions -/

theorem tables_toExpr (v : Verdict) : v.toExpr.tables = tablesOf v.remaining := by
  cases v with
  | conditions cs => exact tables_conj cs
  | _ => rfl

theorem tablesOf_remaining_and_subset (v w : Verdict) :
    tablesOf (v.and w).remaining ⊆ tablesOf v.remaining ∪ tablesOf w.remaining := by
  cases v with
  | always => cases w <;> exact subset_union_right _ _
  | never => exact empty_subset _
  | conditions cs =>
    cases w with
    | always => exact subset_union_left _ _
    | never => exact empty_subset _
    | conditions ds => exact tablesOf_append cs ds ▸ Subset.refl _

/-- The plain equalities for an equality of several members read no more than its members. -/
theorem tablesOf_equalities_subset (ms : List Expr) :
    tablesOf (equalities ms).remaining ⊆ tablesOf ms := by
  have hfield {f : Expr} (hf : f ∈ ms.filter fun m => m.literal?.isNone) : f.tables ⊆ tablesOf ms :=
    tables_subset_tablesOf (List.mem_of_mem_filter hf)
  unfold equalities
  dsimp only
  generalize ms.filter (fun m => m.literal?.isNone) = fields at hfield ⊢
  split
  next v vs _ =>
    split_ifs
    · exact empty_subset _
    · exact empty_subset _
    · refine unions_subset.2 (List.forall_mem_map.2 fun f hf => ?_)
      exact union_subset (hfield hf) (empty_subset _)
  next => exact empty_subset _
  next f _ =>
    have hf : f.tables ⊆ tablesOf ms := hfield List.mem_cons_self
    exact unions_subset.2 (List.forall_mem_singleton.2 hf)
  next f fs _ _ =>
    refine unions_subset.2 (List.forall_mem_map.2 fun g hg => ?_)
    exact union_subset (hfield List.mem_cons_self) (hfield (List.mem_cons_of_mem f hg))

theorem tables_expand_subset (e : Expr) : e.expand.tables ⊆ e.tables := by
  have hlist {es : List Expr} (ih : ∀ e ∈ es, e.expand.tables ⊆ e.tables) :
      .unions (tables.list (expand.list es)) ⊆ BitSet.unions (tables.list es) := by
    rw [tables.list_eq_map, tables.list_eq_map, expand.list_eq_map]
    refine unions_subset.2 (List.forall_mem_map.2 fun e he => ?_)
    exact Subset.trans (ih e he) (tables_subset_tablesOf he)
  induction e with
  | column c => exact Subset.refl _
  | literal v => exact Subset.refl _
  | compare op l r ihl ihr => exact union_mono ihl ihr
  | rowEq l r ihl ihr => exact union_mono (hlist ihl) (hlist ihr)
  | allEqual ms ih =>
    rw [expand, tables_toExpr, tables, tables.list_eq_map]
    exact tablesOf_equalities_subset ms
  | and args ih => exact hlist ih
  | or args ih => exact hlist ih
  | not e ih => exact ih
  | isNull e ih => exact ih
  | call f args t ih => exact hlist ih
  | cast e t ih => exact ih
  | cached e ih => exact ih

/-- What a condition is simplified to reads no more than the condition. -/
theorem tablesOf_simplify_subset (e : Expr) : tablesOf e.simplify.remaining ⊆ e.tables := by
  have htruth (t : Option Bool) (s : TableSet) : tablesOf (Verdict.ofTruth t).remaining ⊆ s := by
    unfold Verdict.ofTruth
    split <;> exact empty_subset _
  have hexpand (e : Expr) : tablesOf (Verdict.conditions [e.expand]).remaining ⊆ e.tables := by
    rw [Verdict.remaining, tablesOf_singleton]
    exact tables_expand_subset e
  induction e with
  | allEqual ms ih =>
    rw [tables, tables.list_eq_map]
    exact tablesOf_equalities_subset ms
  | and args ih =>
    rw [simplify, tables_and]
    induction args with
    | nil => exact Subset.refl _
    | cons e es ih' =>
      refine Subset.trans (tablesOf_remaining_and_subset _ _) (union_mono ?_ (ih' ?_))
      · exact ih e List.mem_cons_self
      · exact fun d hd => ih d (List.mem_cons_of_mem e hd)
  | literal v => exact htruth _ _
  | compare op l r ihl ihr =>
    have hkept : tablesOf (Verdict.conditions [compare op l r]).remaining ⊆ (compare op l r).tables :=
      tablesOf_singleton (compare op l r) ▸ Subset.refl _
    cases l with
    | literal v =>
      cases r with
      | literal w => exact htruth _ _
      | _ => exact hkept
    | _ => exact hkept
  | _ => exact hexpand _

/-- Simplified conditions read no more than those that they come from. -/
theorem tables_simplifyAll_subset {conds : List Expr} {c : Expr} (h : c ∈ simplifyAll conds) :
    c.tables ⊆ tablesOf conds := by
  rw [simplifyAll] at h
  split_ifs at h
  · obtain rfl := List.mem_singleton.1 h
    exact empty_subset _
  · obtain ⟨d, hd, hc⟩ := List.mem_flatMap.1 h
    exact Subset.trans (tables_subset_tablesOf hc)
      (Subset.trans (tablesOf_simplify_subset d) (tables_subset_tablesOf hd))

/-! ### The final form -/

theorem seesThrough_tables : SeesThrough tables where
  cast _ _ := rfl
  cached _ := rfl
  compare _ _ _ _ _ hl hr := by rw [tables, tables, hl, hr]
  rowEq hl hr := by simp only [tables, tables.list_eq_map, hl, hr]
  allEqual h := by simp only [tables, tables.list_eq_map, h]
  and h := by simp only [tables, tables.list_eq_map, h]
  or h := by simp only [tables, tables.list_eq_map, h]
  not h := h
  isNull h := h
  call _ _ _ _ h := by simp only [tables, tables.list_eq_map, h]

end Expr

namespace Finisher

/-- The final form of a condition reads the tables that the condition reads. -/
def KeepsTables (fin : Finisher) : Prop := ∀ ⦃c d⦄, fin.apply c = .ok d → d.tables = c.tables

theorem keepsTables_default : Finisher.default.KeepsTables :=
  fun _ _ => Expr.seesThrough_tables.apply_default

end Finisher

end QueryGraph
