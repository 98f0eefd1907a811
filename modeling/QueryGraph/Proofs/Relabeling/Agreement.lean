import QueryGraph.Proofs.Relabeling.Graphs

/-!
# Relabelings that agree

Two relabelings make the same of a query block, or of a graph, if they agree on the labels in it.

The labels in a block can be read off it. Those in its graph have come there through many passes, but none
of these has to be looked at for them: if a relabeling `φ` leaves the graph as it is, then it leaves all
labels in the graph. So relabelings that agree on what `φ` leaves (`Agree`) make the same of the graph.

Sets of tables are the exception, since `φ` may leave a set without leaving the numbers in it. A join
carries the set of the tables that its conditions read (`Recorded`), so what is known of the conditions is
known of the set.

## What is proved

* `QueryBlock.relabel_congr` — relabelings that agree on the labels in a block.
* `QueryBlock.recorded_unfiltered` — the sets that the joins of a graph carry.
* `JoinGraph.relabel_agree`, `PlanError.relabel_agree` — relabelings that agree on what another one leaves.
-/

namespace QueryGraph

open BitSet

variable {φ ρ ρ' : Relabeling} {P : Nat → Prop} {Q : Value → Prop}

/-! ### Labels of a block -/

mutual

/-- Every table number in the FROM list is as `P` says, and every constant as `Q` says. -/
def FromList.AllLabels (P : Nat → Prop) (Q : Value → Prop) : FromList → Prop
  | .single item => item.AllLabels P Q
  | .join before item cond _ =>
    before.AllLabels P Q ∧ item.AllLabels P Q ∧ ∀ c ∈ cond, c.AllLabels P Q

/-- The same for the item of a FROM list. -/
def FromItem.AllLabels (P : Nat → Prop) (Q : Value → Prop) : FromItem → Prop
  | .table t => P t.number
  | .nest _ list => list.AllLabels P Q

end

/-- The same for the whole block. -/
def QueryBlock.AllLabels (P : Nat → Prop) (Q : Value → Prop) (q : QueryBlock) : Prop :=
  q.source.AllLabels P Q ∧ ∀ c ∈ q.filter, c.AllLabels P Q

mutual

theorem FromList.AllLabels.mono {P' : Nat → Prop} {Q' : Value → Prop} (hP : ∀ i, P i → P' i)
    (hQ : ∀ v, Q v → Q' v) : (list : FromList) → list.AllLabels P Q → list.AllLabels P' Q'
  | .single item, h => FromItem.AllLabels.mono hP hQ item h
  | .join before item _ _, ⟨hbefore, hitem, hcond⟩ => ⟨FromList.AllLabels.mono hP hQ before hbefore,
    FromItem.AllLabels.mono hP hQ item hitem, fun c hc => (hcond c hc).mono hP hQ⟩

theorem FromItem.AllLabels.mono {P' : Nat → Prop} {Q' : Value → Prop} (hP : ∀ i, P i → P' i)
    (hQ : ∀ v, Q v → Q' v) : (item : FromItem) → item.AllLabels P Q → item.AllLabels P' Q'
  | .table _, h => hP _ h
  | .nest _ list, h => FromList.AllLabels.mono hP hQ list h

end

/-- What is so of the labels of a block is so of what follows from it. -/
theorem QueryBlock.AllLabels.mono {P' : Nat → Prop} {Q' : Value → Prop} {q : QueryBlock}
    (h : q.AllLabels P Q) (hP : ∀ i, P i → P' i) (hQ : ∀ v, Q v → Q' v) : q.AllLabels P' Q' :=
  ⟨FromList.AllLabels.mono hP hQ q.source h.1, fun c hc => (h.2 c hc).mono hP hQ⟩

section

variable (hP : ∀ i, P i → ρ.number i = ρ'.number i) (hQ : ∀ v, Q v → ρ.value v = ρ'.value v)

include hP hQ

theorem Expr.relabel_congr {e : Expr} (he : e.AllLabels P Q) : e.relabel ρ = e.relabel ρ' :=
  relabel_congr_iff.2 (he.mono hP hQ)

theorem Expr.relabel_congr_option {c? : Option Expr} (h : ∀ c ∈ c?, c.AllLabels P Q) :
    c?.map (relabel ρ) = c?.map (relabel ρ') := by
  cases c? with
  | none => rfl
  | some c => exact congrArg some (relabel_congr hP hQ (h c rfl))

end

mutual

theorem FromList.relabel_congr (hP : ∀ i, P i → ρ.number i = ρ'.number i)
    (hQ : ∀ v, Q v → ρ.value v = ρ'.value v) :
    (list : FromList) → list.AllLabels P Q → list.relabel ρ = list.relabel ρ'
  | .single item, h => congrArg FromList.single (FromItem.relabel_congr hP hQ item h)
  | .join before item cond outer, ⟨hbefore, hitem, hcond⟩ => by
    rw [FromList.relabel, FromList.relabel, FromList.relabel_congr hP hQ before hbefore,
      FromItem.relabel_congr hP hQ item hitem, Expr.relabel_congr_option hP hQ hcond]

theorem FromItem.relabel_congr (hP : ∀ i, P i → ρ.number i = ρ'.number i)
    (hQ : ∀ v, Q v → ρ.value v = ρ'.value v) :
    (item : FromItem) → item.AllLabels P Q → item.relabel ρ = item.relabel ρ'
  | .table t, h => by rw [FromItem.relabel, FromItem.relabel, Table.relabel, Table.relabel, hP _ h]
  | .nest kind list, h => congrArg (FromItem.nest kind) (FromList.relabel_congr hP hQ list h)

end

/-- Relabelings that agree on the labels in a block make the same block of it. -/
theorem QueryBlock.relabel_congr {q : QueryBlock} (hP : ∀ i, P i → ρ.number i = ρ'.number i)
    (hQ : ∀ v, Q v → ρ.value v = ρ'.value v) (h : q.AllLabels P Q) : q.relabel ρ = q.relabel ρ' := by
  rw [relabel, relabel, FromList.relabel_congr hP hQ q.source h.1, Expr.relabel_congr_option hP hQ h.2]

mutual

theorem FromList.relabel_id : (list : FromList) → list.relabel ⟨id, id⟩ = list
  | .single item => congrArg FromList.single (FromItem.relabel_id item)
  | .join before item cond outer => by
    have hcond : cond.map (Expr.relabel ⟨id, id⟩) = cond := by
      rw [funext Expr.relabel_id, Option.map_id']
    rw [FromList.relabel, FromList.relabel_id before, FromItem.relabel_id item, hcond]

theorem FromItem.relabel_id : (item : FromItem) → item.relabel ⟨id, id⟩ = item
  | .table _ => rfl
  | .nest kind list => congrArg (FromItem.nest kind) (FromList.relabel_id list)

end

theorem QueryBlock.relabel_id (q : QueryBlock) : q.relabel ⟨id, id⟩ = q := by
  rw [relabel, FromList.relabel_id, funext Expr.relabel_id, Option.map_id']

mutual

theorem FromList.allLabels_relabel : (list : FromList) → (list.relabel ρ).AllLabels P Q ↔
    list.AllLabels (fun i => P (ρ.number i)) (fun v => Q (ρ.value v))
  | .single item => FromItem.allLabels_relabel item
  | .join before item cond outer => by
    simp [FromList.relabel, FromList.AllLabels, FromList.allLabels_relabel before,
      FromItem.allLabels_relabel item, Expr.allLabels_relabel]

theorem FromItem.allLabels_relabel : (item : FromItem) → (item.relabel ρ).AllLabels P Q ↔
    item.AllLabels (fun i => P (ρ.number i)) (fun v => Q (ρ.value v))
  | .table _ => Iff.rfl
  | .nest _ list => FromList.allLabels_relabel list

end

/-- What is so of the new labels of a block. -/
theorem QueryBlock.allLabels_relabel {q : QueryBlock} : (q.relabel ρ).AllLabels P Q ↔
    q.AllLabels (fun i => P (ρ.number i)) (fun v => Q (ρ.value v)) := by
  simp [AllLabels, relabel, FromList.allLabels_relabel, Expr.allLabels_relabel]

/-! ### Sets of tables -/

/-- No join carries tables that its conditions do not read. -/
def Tree.Recorded (t : Tree) : Prop := ∀ n ∈ t.joins, n.info.usedTables ⊆ Expr.tablesOf n.info.allConds

namespace Tree

theorem recorded_join {i : Nat} {info : JoinInfo} {l r : Tree} : (join i info l r).Recorded ↔
    info.usedTables ⊆ Expr.tablesOf info.allConds ∧ l.Recorded ∧ r.Recorded := by
  simp only [Recorded, joins, List.forall_mem_append, List.forall_mem_singleton]
  tauto

theorem recorded_bare {t : Tree} : t.bare.Recorded ↔ t.Recorded := by
  rw [Recorded, joins_bare]
  exact List.forall_mem_map

/-- Telling hash keys apart does not lose conditions. -/
theorem subset_divideConds (left right : TableSet) (info : JoinInfo) :
    Expr.tablesOf info.conds ⊆ Expr.tablesOf (divideConds left right info).allConds := by
  rw [Expr.tablesOf, Expr.unions_subset]
  exact fun c hc => Expr.tables_subset_tablesOf (mem_divideConds hc)

theorem recorded_divideKeys (t : Tree) : t.recordUsedTables.divideKeys.Recorded := by
  induction t with
  | leaf i l => exact nofun
  | join i info l r ihl ihr =>
    refine recorded_join.2 ⟨?_, ihl, ihr⟩
    have hsubset := subset_divideConds l.recordUsedTables.tables r.recordUsedTables.tables
      { info with usedTables := Expr.tablesOf info.conds }
    rw [divideConds] at hsubset ⊢
    split_ifs at hsubset ⊢ <;> exact hsubset

end Tree

/-- The joins of a graph carry no other tables. -/
theorem QueryBlock.recorded_unfiltered (s : Settings) (q : QueryBlock) : (q.unfiltered s).tree.Recorded := by
  have hbare := JoinGraph.bare_ofTree s.estimator (q.placed s.finisher).tree
  rw [← Tree.recorded_bare, unfiltered, hbare, Tree.recorded_bare]
  exact Tree.recorded_divideKeys _

/-! ### Labels of a graph -/

/-- The relabelings `ρ` and `ρ'` agree on all labels that `φ` leaves as they are, and the table numbers
among these fit into a set. -/
structure Relabeling.Agree (φ ρ ρ' : Relabeling) : Prop where
  /-- They agree on the table numbers that `φ` leaves. -/
  number_eq : ∀ i, φ.number i = i → ρ.number i = ρ'.number i
  /-- They agree on the constants that `φ` leaves. -/
  value_eq : ∀ v, φ.value v = v → ρ.value v = ρ'.value v
  /-- These numbers are small. -/
  lt : ∀ i, φ.number i = i → i < 64

section

variable (h : Relabeling.Agree φ ρ ρ')

include h

theorem Table.relabel_agree {t : Table} (ht : t.relabel φ = t) : t.relabel ρ = t.relabel ρ' := by
  rw [relabel, relabel, h.number_eq _ (congrArg Table.number ht)]

theorem Column.relabel_agree {c : Column} (hc : c.relabel φ = c) : c.relabel ρ = c.relabel ρ' := by
  rw [relabel, relabel, h.number_eq _ (congrArg Column.table hc)]

theorem Expr.relabel_agree {e : Expr} (he : e.relabel φ = e) : e.relabel ρ = e.relabel ρ' :=
  relabel_congr h.number_eq h.value_eq (relabel_eq_self_iff.1 he)

end

/-- Functions that agree on what another one leaves agree on lists that it leaves. -/
theorem map_agree {α : Type} {f g g' : α → α} {xs : List α} (h : ∀ x ∈ xs, f x = x → g x = g' x)
    (hxs : xs.map f = xs) : xs.map g = xs.map g' :=
  List.map_congr_left fun x hx => h x hx (map_eq_self_iff.1 hxs x hx)

section

variable (h : Relabeling.Agree φ ρ ρ')

include h

theorem Expr.relabel_agree_list {es : List Expr} (hes : es.map (relabel φ) = es) :
    es.map (relabel ρ) = es.map (relabel ρ') := map_agree (fun _ _ => relabel_agree h) hes

theorem Leaf.relabel_agree {l : Leaf} (hl : l.relabel φ = l) : l.relabel ρ = l.relabel ρ' := by
  rw [relabel, relabel, Table.relabel_agree h (congrArg Leaf.table hl),
    Expr.relabel_agree_list h (congrArg Leaf.lookups hl),
    Expr.relabel_agree_list h (congrArg Leaf.filters hl)]

theorem JoinInfo.relabel_agree {info : JoinInfo} (hinfo : info.relabel φ = info)
    (hrecorded : info.usedTables ⊆ Expr.tablesOf info.allConds) : info.relabel ρ = info.relabel ρ' := by
  have hconds := congrArg JoinInfo.conds hinfo
  have hkeys := congrArg JoinInfo.keys hinfo
  have hall : info.allConds.map (Expr.relabel φ) = info.allConds := by rw [← allConds_relabel, hinfo]
  have hused : ρ.set info.usedTables = ρ'.set info.usedTables := by
    refine Relabeling.set_congr fun i hi => h.number_eq i ?_
    obtain ⟨ts, hts, hi⟩ := mem_unions.1 (subset_iff.1 hrecorded i hi)
    obtain ⟨c, hc, rfl⟩ := List.mem_map.1 hts
    exact (Expr.relabel_eq_self_iff.1 (map_eq_self_iff.1 hall c hc)).of_mem_tables h.lt hi
  rw [relabel, relabel, Expr.relabel_agree_list h hconds, Expr.relabel_agree_list h hkeys, hused]

theorem Tree.relabel_agree {t : Tree} (ht : t.relabel φ = t) (hrecorded : t.Recorded) :
    t.relabel ρ = t.relabel ρ' := by
  induction t with
  | leaf i l =>
    rw [relabel, Tree.leaf.injEq] at ht
    rw [relabel, relabel, Leaf.relabel_agree h ht.2]
  | join i info l r ihl ihr =>
    rw [relabel, Tree.join.injEq] at ht
    obtain ⟨-, hinfo, hl, hr⟩ := ht
    obtain ⟨hused, hrl, hrr⟩ := recorded_join.1 hrecorded
    rw [relabel, relabel, JoinInfo.relabel_agree h hinfo hused, ihl hl hrl, ihr hr hrr]

theorem Lookup.relabel_agree {l : Lookup} (hl : l.relabel φ = l) : l.relabel ρ = l.relabel ρ' := by
  rw [relabel, relabel, Column.relabel_agree h (congrArg Lookup.field hl),
    Expr.relabel_agree h (congrArg Lookup.other hl)]

theorem TableNode.relabel_agree {n : TableNode} (hn : n.relabel φ = n) : n.relabel ρ = n.relabel ρ' := by
  rw [relabel, relabel, Table.relabel_agree h (congrArg TableNode.table hn),
    Expr.relabel_agree_list h (congrArg TableNode.candidates hn),
    map_agree (fun _ _ => Lookup.relabel_agree h) (congrArg TableNode.lookups hn)]

theorem Predicate.relabel_agree {p : Predicate} (hp : p.relabel φ = p) : p.relabel ρ = p.relabel ρ' := by
  rw [relabel, relabel, Expr.relabel_agree h (congrArg Predicate.cond hp)]

/-- Relabelings that agree on what another one leaves make the same of a graph that it leaves. -/
theorem JoinGraph.relabel_agree {g : JoinGraph} (hg : g.relabel φ = g) (hrecorded : g.tree.Recorded) :
    g.relabel ρ = g.relabel ρ' := by
  have hnodes := congrArg JoinGraph.nodes hg
  have htree := congrArg JoinGraph.tree hg
  have hpredicates := congrArg JoinGraph.predicates hg
  have hlookups := congrArg JoinGraph.lookupPredicates hg
  have hpair (p : Expr × Nat) (hp : (p.1.relabel φ, p.2) = p) :
      (p.1.relabel ρ, p.2) = (p.1.relabel ρ', p.2) := by
    rw [Expr.relabel_agree h (congrArg Prod.fst hp)]
  rw [relabel, relabel, map_agree (fun _ _ => TableNode.relabel_agree h) hnodes,
    Tree.relabel_agree h htree hrecorded, map_agree (fun _ _ => Predicate.relabel_agree h) hpredicates,
    map_agree (fun p _ => hpair p) hlookups]

/-- The same for the reason why there is no graph. -/
theorem PlanError.relabel_agree {e : PlanError} (he : e.relabel φ = e) : e.relabel ρ = e.relabel ρ' := by
  cases e with
  | tooManyTables found limit => rfl
  | tooManyPredicates found limit => rfl
  | unfinished e =>
    obtain ⟨c, fault⟩ := e
    simp only [relabel, FinishError.relabel, unfinished.injEq, FinishError.mk.injEq] at he ⊢
    obtain ⟨hc, hfault⟩ := he
    refine ⟨Expr.relabel_agree h hc, ?_⟩
    cases fault with
    | incomparable l r =>
      simp only [FinishFault.relabel, FinishFault.incomparable.injEq] at hfault ⊢
      exact hfault.imp (Expr.relabel_agree h) (Expr.relabel_agree h)
    | rowWidths l r => rfl
    | other reason => rfl

end

end QueryGraph
