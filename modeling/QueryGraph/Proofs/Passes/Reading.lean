import QueryGraph.Proofs.Passes.Outline
import QueryGraph.Proofs.Passes.Tables

/-!
# What the conditions of a tree read

A condition of a join should read tables below the join, and a filter of a table that table.

## The model

Conditions may also read tables that are nowhere in the tree; these do not count, so the tables that do
are given (`known`). A tree is `Within` them in a role if the conditions that it carries in this role
read, of the known tables, only those below. Lookups may read anything.

## What is proved

* `within_route` — every step on the way of a condition puts it, or what is made of it, where the tables
  are that it reads.
* `within_step`, `within_foldl_step` — such steps keep the tree within the known tables, one and many.
* `within_pushDownAll`, `within_pushDownJoins` and so on — hence every pass does.
-/

namespace QueryGraph

open BitSet

variable {known : TableSet} {role : Role}

/-- Of the known tables, the condition reads only those of a set. -/
def Expr.ReadsWithin (known ts : TableSet) (c : Expr) : Prop := ∀ i ∈ c.tables, i ∈ known → i ∈ ts

namespace Expr

theorem ReadsWithin.of_subset {ts : TableSet} {c : Expr} (h : c.tables ⊆ ts) :
    c.ReadsWithin known ts := fun i hi _ => subset_iff.1 h i hi

theorem mem_tablesOf {cs : List Expr} {i : Nat} : i ∈ tablesOf cs ↔ ∃ c ∈ cs, i ∈ c.tables := by
  rw [tablesOf, mem_unions]
  simp only [List.mem_map, exists_exists_and_eq_and]

/-- Simplified conditions read what the others read. -/
theorem ReadsWithin.simplifyAll {ts : TableSet} {conds : List Expr}
    (h : ∀ c ∈ conds, c.ReadsWithin known ts) : ∀ c ∈ simplifyAll conds, c.ReadsWithin known ts := by
  intro c hc i hi
  obtain ⟨d, hd, hid⟩ := mem_tablesOf.1 (subset_iff.1 (tables_simplifyAll_subset hc) i hi)
  exact h d hd i hid

end Expr

namespace Tree

/-- What a node takes conditions as, apart from lookups. -/
def takes : Tree → Role
  | leaf _ _ => .filter
  | join _ _ _ _ => .joinCond

theorem takes_outline (t : Tree) : t.outline.takes = t.takes := by cases t <;> rfl

theorem takes_of_outline {t t' : Tree} (h : t'.outline = t.outline) : t'.takes = t.takes := by
  rw [← takes_outline, h, takes_outline]

/-- The conditions that the tree carries in a role read, of the known tables, only those below. -/
def Within (known : TableSet) (role : Role) : Tree → Prop
  | leaf _ l => role = .filter → ∀ c ∈ l.filters, c.ReadsWithin known {l.table.number}
  | join _ info l r =>
    (role = .joinCond → ∀ c ∈ info.allConds, c.ReadsWithin known (l.tables ∪ r.tables)) ∧
      l.Within known role ∧ r.Within known role

theorem within_filter_iff {t : Tree} : t.Within known .filter ↔
    ∀ x ∈ t.leaves, ∀ c ∈ x.2.filters, c.ReadsWithin known {x.2.table.number} := by
  induction t with
  | leaf i l =>
    rw [Within, leaves, List.forall_mem_singleton]
    exact ⟨fun h => h rfl, fun h _ => h⟩
  | join i info l r ihl ihr =>
    rw [Within, ihl, ihr, leaves, List.forall_mem_append]
    exact ⟨And.right, fun h => ⟨fun hrole => Role.noConfusion hrole, h⟩⟩

theorem within_joinCond_iff {t : Tree} : t.Within known .joinCond ↔
    ∀ n ∈ t.joins, ∀ c ∈ n.info.allConds, c.ReadsWithin known n.tree.tables := by
  induction t with
  | leaf i l => exact ⟨fun _ => nofun, fun _ => nofun⟩
  | join i info l r ihl ihr =>
    rw [Within, ihl, ihr, joins, List.forall_mem_append, List.forall_mem_append,
      List.forall_mem_singleton, and_comm]
    exact and_congr_right fun _ => ⟨fun h => h rfl, fun h _ => h⟩

end Tree

/-! ### The way of a condition -/

/-- The step puts a condition where the known tables are that it reads, if it puts it down in the role. -/
def Step.Within (known : TableSet) (role : Role) (t : Tree) : Step → Prop
  | .weaken _ _ => True
  | .put path role' c =>
    role' = role → ∀ s, t.descend? path = some s → c.ReadsWithin known s.tables

namespace Tree

theorem within_of_outline {t t' : Tree} (h : t'.outline = t.outline) {s : Step}
    (hs : s.Within known role t) : s.Within known role t' := by
  cases s with
  | weaken c p => trivial
  | put path role' c =>
    intro hrole u' hu'
    have hpath : (t.descend? path).map outline = some u'.outline := by
      rw [← descend?_outline, ← h, descend?_outline, hu', Option.map_some]
    obtain ⟨u, hu, hout⟩ := Option.map_eq_some_iff.1 hpath
    rw [tables_of_outline hout.symm]
    exact hs hrole u hu

theorem within_of_isLookup (hrole : role ≠ .lookup) {t : Tree} {s : Step} (h : s.IsLookup) :
    s.Within known role t := by
  cases s with
  | weaken c p => trivial
  | put path role' c => exact fun hrole' => absurd (hrole'.symm.trans h) hrole

theorem within_under {n : JoinNode} {side : Side} {steps : List Step}
    (h : ∀ s ∈ steps, s.Within known role (n.side side)) :
    ∀ s ∈ steps.map (Step.under side), s.Within known role n.tree := by
  intro s hs
  obtain ⟨s', hs', rfl⟩ := List.mem_map.1 hs
  have hwithin := h s' hs'
  cases s' <;> cases side <;> exact hwithin

/-- The way of a condition puts it where the known tables are that it reads. At the root this has to be
known of the condition itself. -/
theorem within_route (hrole : role ≠ .lookup) {c : Expr} {own : Bool} {t : Tree}
    (hroot : t.takes = role → c.ReadsWithin known t.tables) :
    ∀ s ∈ (t.route c own ∅).steps, s.Within known role t := by
  induction t using inductSides generalizing c own with
  | leaf i l =>
    intro s hs
    obtain rfl := List.mem_singleton.1 hs
    intro hrole s hs
    cases hs
    exact hroot hrole
  | join n ih =>
    have hside (side : Side) (h : c.tables ⊆ (n.side side).tables ∪ ∅) :
        ∀ s ∈ (((n.side side).route c false ∅).under side).steps, s.Within known role n.tree :=
      within_under (ih side fun _ => .of_subset (by rwa [union_empty] at h))
    have hpart (side : Side) : ∀ s ∈ partSteps c ∅ side (n.side side), s.Within known role n.tree := by
      intro s hs
      rw [partSteps] at hs
      split at hs
      next p hp =>
        rcases List.mem_cons.1 hs with rfl | hs
        · trivial
        · exact within_under (ih side fun _ => .of_subset (Expr.tables_subset_of_restrict hp)) s hs
      next => cases hs
    have hlookup (side : Side) :
        ∀ s ∈ lookupSteps c ∅ side (n.side side) (n.side side.other), s.Within known role n.tree := by
      intro s hs
      have hparams : lookupParams c ∅ (n.side side.other).tables ≠ ∅ :=
        lookupParams_ne_empty c (.inr (n.side side.other).tables_ne_empty)
      exact within_of_isLookup hrole (isLookup_under (isLookup_route hparams _) side s hs)
    have hcopies : ∀ s ∈ copies c own ∅ n.info.kind n.left n.right, s.Within known role n.tree := by
      intro s hs
      simp only [copies, List.mem_append, List.mem_ite_nil_right] at hs
      obtain ((⟨-, hs⟩ | ⟨-, hs⟩) | ⟨-, hs⟩) | ⟨-, hs⟩ := hs
      · exact hpart .left s hs
      · exact hpart .right s hs
      · exact hlookup .left s hs
      · exact hlookup .right s hs
    rw [JoinNode.tree, route_join]
    split_ifs with hl hopen hr hopen hempty hstays
    · exact hside .left hl
    · exact List.forall_mem_nil _
    · exact hside .right hr
    · exact List.forall_mem_nil _
    · exact absurd rfl hempty
    · exact hcopies
    · intro s hs
      rcases List.mem_append.1 hs with hs | hs
      · exact hcopies s hs
      · obtain rfl := List.mem_singleton.1 hs
        intro hrole s hs
        cases hs
        exact hroot hrole

/-! ### The steps -/

theorem mem_insertNew {c d : Expr} {cs : List Expr} (h : d ∈ insertNew c cs) : d ∈ cs ∨ d = c := by
  rw [insertNew] at h
  split_ifs at h
  · exact .inl h
  · exact (List.mem_append.1 h).imp_right List.mem_singleton.1

theorem within_put {role' : Role} {c : Expr} {t : Tree} (h : t.Within known role)
    (hc : role' = role → c.ReadsWithin known t.tables) : (put role' c t).Within known role := by
  cases t with
  | leaf i l =>
    cases role' with
    | filter =>
      intro hrole d hd
      rcases mem_insertNew hd with hd | rfl
      · exact h hrole d hd
      · exact hc hrole.symm
    | lookup => exact h
    | joinCond => exact h
  | join i info l r =>
    cases role' with
    | joinCond =>
      refine ⟨fun hrole d hd => ?_, h.2⟩
      rw [JoinInfo.allConds, ← List.append_assoc] at hd
      rcases List.mem_append.1 hd with hd | hd
      · exact h.1 hrole d hd
      · exact List.mem_singleton.1 hd ▸ hc hrole.symm
    | filter => exact h
    | lookup => exact h

theorem within_updateAt {role' : Role} {c : Expr} {path : List Side} {t : Tree}
    (h : t.Within known role)
    (hc : role' = role → ∀ s, t.descend? path = some s → c.ReadsWithin known s.tables) :
    (t.updateAt (put role' c) path).Within known role := by
  induction path generalizing t with
  | nil => exact within_put h fun hrole => hc hrole t rfl
  | cons side path ih =>
    cases t with
    | leaf i l => cases side <;> exact h
    | join i info l r =>
      have htables (t : Tree) : (t.updateAt (put role' c) path).tables = t.tables :=
        tables_of_outline (outline_updateAt (outline_put role' c) path t)
      obtain ⟨hinfo, hl, hr⟩ := h
      cases side with
      | left => exact ⟨by rw [htables]; exact hinfo, ih hl hc, hr⟩
      | right => exact ⟨by rw [htables]; exact hinfo, hl, ih hr hc⟩

theorem within_step {t : Tree} {s : Step} (h : t.Within known role) (hs : s.Within known role t) :
    (t.step s).Within known role := by
  cases s with
  | weaken c p => exact h
  | put path role' c => exact within_updateAt h hs

theorem within_foldl_step {steps : List Step} {t : Tree} (h : t.Within known role)
    (hsteps : ∀ s ∈ steps, s.Within known role t) : (steps.foldl step t).Within known role := by
  induction steps generalizing t with
  | nil => exact h
  | cons s steps ih =>
    refine ih (within_step h (hsteps s List.mem_cons_self)) fun s' hs' => ?_
    exact within_of_outline (outline_step t s) (hsteps s' (List.mem_cons_of_mem s hs'))

/-! ### The passes -/

theorem within_pushDownAll (hrole : role ≠ .lookup) (own : Bool) {cs : List Expr} {t : Tree}
    (h : t.Within known role) (hroot : t.takes = role → ∀ c ∈ cs, c.ReadsWithin known t.tables) :
    (pushDownAll own cs t).value.1.Within known role := by
  induction cs generalizing t with
  | nil => exact h
  | cons c cs ih =>
    have hsteps : ∀ s ∈ (t.route c own ∅).steps, s.Within known role t :=
      within_route hrole fun ht => hroot ht c List.mem_cons_self
    have houtline := outline_foldl_step (t.route c own ∅).steps t
    rw [value_pushDownAll_cons]
    refine ih (within_foldl_step h hsteps) fun ht d hd => ?_
    rw [tables_of_outline houtline]
    exact hroot (takes_of_outline houtline ▸ ht) d (List.mem_cons_of_mem c hd)

theorem within_foldl_put {cs : List Expr} {t : Tree} (h : t.Within known role)
    (hcs : role = .joinCond → ∀ c ∈ cs, c.ReadsWithin known t.tables) :
    (cs.foldl (fun t c => put .joinCond c t) t).Within known role := by
  induction cs generalizing t with
  | nil => exact h
  | cons c cs ih =>
    refine ih (within_put h fun hrole => hcs hrole.symm c List.mem_cons_self) fun hrole d hd => ?_
    rw [tables_of_outline (outline_put .joinCond c t)]
    exact hcs hrole d (List.mem_cons_of_mem c hd)

theorem within_pushOwn (hrole : role ≠ .lookup) {t : Tree} (h : t.Within known role) :
    t.pushOwn.value.Within known role := by
  cases t with
  | leaf i l => exact h
  | join i info l r =>
    obtain ⟨hinfo, hl, hr⟩ := h
    have hconds (hjoin : role = .joinCond) :
        ∀ c ∈ info.conds, c.ReadsWithin known (l.tables ∪ r.tables) := fun c hc =>
      hinfo hjoin c (List.mem_append_right info.keys hc)
    have hbare : (join i { info with conds := [] } l r).Within known role := by
      refine ⟨fun hjoin c hc => hinfo hjoin c (List.mem_append_left info.conds ?_), hl, hr⟩
      rwa [JoinInfo.allConds, List.append_nil] at hc
    rw [pushOwn, Reported.value_bind]
    refine within_foldl_put (within_pushDownAll hrole true hbare fun hjoin => hconds hjoin.symm) ?_
    intro hjoin c hc
    rw [tables_of_outline (outline_pushDownAll true _ _)]
    rw [remaining_pushDownAll] at hc
    exact hconds hjoin c (List.mem_of_mem_filter hc)

/-- The conditions of all joins, as far as they are pushed down. -/
theorem within_pushDownJoins (hrole : role ≠ .lookup) {t : Tree} (h : t.Within known role) :
    t.pushDownJoins.value.Within known role := by
  let Rel (t t' : Tree) : Prop := t'.outline = t.outline ∧ (t.Within known role → t'.Within known role)
  have hrel : Rel t t.pushDownJoins.value := by
    refine pushDownJoins_induct (fun t => ⟨outline_pushOwn t, within_pushOwn hrole⟩) ?_ t
    rintro t l l' r r' i info ⟨hout, hwithin⟩ ⟨houtl, hl⟩ ⟨houtr, hr⟩
    refine ⟨by rw [← hout, outline, outline, houtl, houtr], fun ht => ?_⟩
    obtain ⟨hinfo, hwl, hwr⟩ := hwithin ht
    refine ⟨?_, hl hwl, hr hwr⟩
    rw [tables_of_outline houtl, tables_of_outline houtr]
    exact hinfo
  exact hrel.2 h

theorem within_simplifyConds {t : Tree} (h : t.Within known role) :
    t.simplifyConds.value.Within known role := by
  induction t with
  | leaf i l => exact h
  | join i info l r ihl ihr =>
    obtain ⟨hinfo, hl, hr⟩ := h
    rw [value_simplifyConds_join]
    refine ⟨fun hrole c hc => ?_, ihl hl, ihr hr⟩
    rw [tables_of_outline (outline_simplifyConds l), tables_of_outline (outline_simplifyConds r)]
    rcases List.mem_append.1 hc with hc | hc
    · exact hinfo hrole c (List.mem_append_left _ hc)
    · have hconds : ∀ c ∈ info.conds, c.ReadsWithin known (l.tables ∪ r.tables) :=
        fun c hc => hinfo hrole c (List.mem_append_right _ hc)
      exact Expr.ReadsWithin.simplifyAll hconds c hc

/-- Every final form is that of one of the conditions. -/
theorem apply_of_mem_applyAll {fin : Finisher} {cs ds : List Expr} (h : fin.applyAll cs = .ok ds) :
    ∀ d ∈ ds, ∃ c ∈ cs, fin.apply c = .ok d := by
  induction cs generalizing ds with
  | nil =>
    cases h
    exact nofun
  | cons c cs ih =>
    obtain ⟨d, hd, h⟩ := Except.bind_eq_ok.1 h
    obtain ⟨ds, hds, h⟩ := Except.bind_eq_ok.1 h
    cases h
    intro e he
    rcases List.mem_cons.1 he with rfl | he
    · exact ⟨c, List.mem_cons_self, hd⟩
    · exact (ih hds e he).imp fun _ => And.imp_left (List.mem_cons_of_mem c)

/-- Final forms that read the same tables keep the tree within the known tables. -/
theorem within_finishConds {fin : Finisher} (hfin : fin.KeepsTables) {t : Tree}
    (h : t.Within known role) : (t.finishConds fin).tree.Within known role := by
  induction t with
  | leaf i l =>
    rw [finishConds]
    split <;> exact h
  | join i info l r ihl ihr =>
    obtain ⟨hinfo, hl, hr⟩ := h
    have houtl := outline_finishConds fin l
    have houtr := outline_finishConds fin r
    have hl' := ihl hl
    have hr' := ihr hr
    rw [finishConds]
    split
    next l' e heql =>
      rw [heql] at houtl hl'
      exact ⟨tables_of_outline houtl ▸ hinfo, hl', hr⟩
    next l' heql =>
      rw [heql] at houtl hl'
      split
      next r' e heqr =>
        rw [heqr] at houtr hr'
        exact ⟨tables_of_outline houtl ▸ tables_of_outline houtr ▸ hinfo, hl', hr'⟩
      next r' heqr =>
        rw [heqr] at houtr hr'
        rw [← tables_of_outline houtl, ← tables_of_outline houtr] at hinfo
        split
        next cs hcs =>
          refine ⟨fun hrole d hd => ?_, hl', hr'⟩
          rcases List.mem_append.1 hd with hd | hd
          · exact hinfo hrole d (List.mem_append_left _ hd)
          · obtain ⟨c, hc, hcd⟩ := apply_of_mem_applyAll hcs d hd
            intro i hi
            exact hinfo hrole c (List.mem_append_right _ hc) i (hfin hcd ▸ hi)
        next e _ =>
          refine ⟨fun hrole d hd => hinfo hrole d (List.mem_append_left _ ?_), hl', hr'⟩
          rwa [JoinInfo.allConds, List.append_nil] at hd

theorem within_recordUsedTables {t : Tree} (h : t.Within known role) :
    t.recordUsedTables.Within known role := by
  induction t with
  | leaf i l => exact h
  | join i info l r ihl ihr =>
    refine ⟨?_, ihl h.2.1, ihr h.2.2⟩
    rw [tables_of_outline (outline_recordUsedTables l), tables_of_outline (outline_recordUsedTables r)]
    exact h.1

theorem mem_of_mem_divideConds {left right : TableSet} {info : JoinInfo} {c : Expr}
    (h : c ∈ (divideConds left right info).allConds) : c ∈ info.allConds := by
  rw [divideConds] at h
  split_ifs at h
  · exact h
  · refine List.mem_append_right _ ?_
    rcases List.mem_append.1 h with h | h <;> exact List.mem_of_mem_filter h

theorem mem_divideConds {left right : TableSet} {info : JoinInfo} {c : Expr} (h : c ∈ info.conds) :
    c ∈ (divideConds left right info).allConds := by
  rw [divideConds]
  split
  · exact List.mem_append_right _ h
  · cases hkey : c.isHashKey left right
    · exact List.mem_append_right _ (List.mem_filter.2 ⟨h, by simp [hkey]⟩)
    · exact List.mem_append_left _ (List.mem_filter.2 ⟨h, hkey⟩)

theorem within_divideKeys {t : Tree} (h : t.Within known role) : t.divideKeys.Within known role := by
  induction t with
  | leaf i l => exact h
  | join i info l r ihl ihr =>
    refine ⟨fun hrole c hc => ?_, ihl h.2.1, ihr h.2.2⟩
    rw [tables_of_outline (outline_divideKeys l), tables_of_outline (outline_divideKeys r)]
    exact h.1 hrole c (mem_of_mem_divideConds hc)

theorem within_bare {t : Tree} : t.bare.Within known role ↔ t.Within known role := by
  induction t with
  | leaf i l => exact Iff.rfl
  | join i info l r ihl ihr =>
    rw [bare, Within, Within, ihl, ihr, tables_bare, tables_bare]
    exact Iff.rfl

theorem within_addTree (est : Estimator) {t : Tree} {a : Assembly} (h : t.Within known role) :
    (Assembly.addTree est t a).value.1.Within known role := by
  rw [← within_bare, bare_addTree, within_bare]
  exact h

end Tree

end QueryGraph
