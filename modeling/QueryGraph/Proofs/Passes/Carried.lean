import QueryGraph.Proofs.Passes.Reading
import QueryGraph.Proofs.Passes.Shuffled
import QueryGraph.Proofs.Pushdown.Joins

/-!
# Which conditions a tree carries

What the passes make of the conditions of a tree, wherever these stand: they add none but those that come
from others, and they lose none.

## The model

Two properties of a tree belong to a property of conditions. The tree `Carries` it if all its conditions have
it, whatever they are there for. The tree `Evaluates` it if one of its conditions has it, and not among the
lookups, which only tell what could be done.

On the way down a condition is put where it is evaluated or remains with the caller. What else is put down are
parts of it, and the condition itself as a lookup. So the first property passes through if parts of conditions
and final forms have it as well, and the second one if a condition that is written alike has it, too: it may
stand where the condition would have been put.

## What is proved

* `carries_foldl_step`, `carries_pushDownAll`, `carries_finishConds` and so on — all conditions of a tree
  have a property.
* `evaluates_route` — a condition that does not remain is evaluated.
* `evaluates_pushDownAll`, `evaluates_finishConds` and so on — some condition has a property.
-/

namespace QueryGraph

open BitSet

variable {P : Expr → Prop}

/-! ### All conditions -/

/-- Parts of a condition have the property that the condition has. -/
def Expr.KeptByParts (P : Expr → Prop) : Prop := ∀ {ts c p}, P c → Expr.restrict ts c = some p → P p

/-- The final form of a condition has the property that the condition has. -/
def Finisher.Keeps (fin : Finisher) (P : Expr → Prop) : Prop := ∀ {c d}, P c → fin.apply c = .ok d → P d

/-- What the step puts down has the property. -/
def Step.Puts (P : Expr → Prop) : Step → Prop
  | .weaken _ _ => True
  | .put _ _ c => P c

namespace Tree

/-- All conditions that the tree carries have the property. -/
def Carries (P : Expr → Prop) : Tree → Prop
  | leaf _ l => (∀ c ∈ l.filters, P c) ∧ ∀ c ∈ l.lookups, P c
  | join _ info l r => (∀ c ∈ info.allConds, P c) ∧ l.Carries P ∧ r.Carries P

theorem Carries.of_mem_joins {t : Tree} (h : t.Carries P) :
    ∀ n ∈ t.joins, ∀ c ∈ n.info.allConds, P c := by
  induction t with
  | leaf i l => exact nofun
  | join i info l r ihl ihr =>
    obtain ⟨hinfo, hl, hr⟩ := h
    rw [joins]
    exact List.forall_mem_append.2
      ⟨List.forall_mem_append.2 ⟨ihl hl, ihr hr⟩, List.forall_mem_singleton.2 hinfo⟩

theorem Carries.of_mem_leaves {t : Tree} (h : t.Carries P) :
    ∀ x ∈ t.leaves, (∀ c ∈ x.2.filters, P c) ∧ ∀ c ∈ x.2.lookups, P c := by
  induction t with
  | leaf i l => exact List.forall_mem_singleton.2 h
  | join i info l r ihl ihr => exact List.forall_mem_append.2 ⟨ihl h.2.1, ihr h.2.2⟩

/-! #### The steps -/

theorem puts_under {steps : List Step} (h : ∀ s ∈ steps, s.Puts P) (side : Side) :
    ∀ s ∈ steps.map (Step.under side), s.Puts P := by
  intro s hs
  obtain ⟨s', hs', rfl⟩ := List.mem_map.1 hs
  have hputs := h s' hs'
  cases s' <;> exact hputs

/-- On its way a condition is put down as it is, or parts of it are. -/
theorem puts_route (hP : Expr.KeptByParts P) {c : Expr} (hc : P c) (own : Bool) (params : TableSet)
    (t : Tree) : ∀ s ∈ (t.route c own params).steps, s.Puts P := by
  induction t generalizing c own params with
  | leaf i l => exact List.forall_mem_singleton.2 hc
  | join i info l r ihl ihr =>
    have hpart (side : Side) (t : Tree)
        (ih : ∀ {p}, P p → ∀ s ∈ (t.route p false params).steps, s.Puts P) :
        ∀ s ∈ partSteps c params side t, s.Puts P := by
      rw [partSteps]
      split
      next p hp => exact List.forall_mem_cons.2 ⟨trivial, puts_under (ih (hP hc hp)) side⟩
      next => exact List.forall_mem_nil _
    have hcopies : ∀ s ∈ copies c own params info.kind l r, s.Puts P := by
      intro s hs
      simp only [copies, List.mem_append, List.mem_ite_nil_right] at hs
      obtain ((⟨-, hs⟩ | ⟨-, hs⟩) | ⟨-, hs⟩) | ⟨-, hs⟩ := hs
      · exact hpart .left l (fun hp => ihl hp false params) s hs
      · exact hpart .right r (fun hp => ihr hp false params) s hs
      · exact puts_under (ihl hc false _) .left s hs
      · exact puts_under (ihr hc false _) .right s hs
    rw [route_join]
    split_ifs
    · exact puts_under (ihl hc false params) .left
    · exact List.forall_mem_nil _
    · exact puts_under (ihr hc false params) .right
    · exact List.forall_mem_nil _
    · exact hcopies
    · exact hcopies
    · exact List.forall_mem_append.2 ⟨hcopies, List.forall_mem_singleton.2 hc⟩

theorem carries_put {c : Expr} (hc : P c) (role : Role) {t : Tree} (h : t.Carries P) :
    (put role c t).Carries P := by
  have hinsert {cs : List Expr} (hcs : ∀ d ∈ cs, P d) : ∀ d ∈ insertNew c cs, P d := fun d hd =>
    (mem_insertNew hd).elim (hcs d) fun heq => heq ▸ hc
  cases t with
  | leaf i l =>
    cases role with
    | filter => exact ⟨hinsert h.1, h.2⟩
    | lookup => exact ⟨h.1, hinsert h.2⟩
    | joinCond => exact h
  | join i info l r =>
    cases role with
    | joinCond =>
      refine ⟨?_, h.2⟩
      rw [JoinInfo.allConds, ← List.append_assoc]
      exact List.forall_mem_append.2 ⟨h.1, List.forall_mem_singleton.2 hc⟩
    | filter => exact h
    | lookup => exact h

theorem carries_updateAt {f : Tree → Tree} (hf : ∀ {t : Tree}, t.Carries P → (f t).Carries P)
    (path : List Side) {t : Tree} (h : t.Carries P) : (t.updateAt f path).Carries P := by
  induction path generalizing t with
  | nil => exact hf h
  | cons side path ih =>
    cases t with
    | leaf i l => cases side <;> exact h
    | join i info l r =>
      cases side with
      | left => exact ⟨h.1, ih h.2.1, h.2.2⟩
      | right => exact ⟨h.1, h.2.1, ih h.2.2⟩

theorem carries_foldl_step {steps : List Step} (hsteps : ∀ s ∈ steps, s.Puts P) {t : Tree}
    (h : t.Carries P) : (steps.foldl step t).Carries P := by
  induction steps generalizing t with
  | nil => exact h
  | cons s steps ih =>
    refine ih (fun s' hs' => hsteps s' (List.mem_cons_of_mem s hs')) ?_
    have hs := hsteps s List.mem_cons_self
    cases s with
    | weaken c p => exact h
    | put path role c => exact carries_updateAt (carries_put hs role) path h

/-! #### The passes -/

theorem carries_pushDownAll (hP : Expr.KeptByParts P) (own : Bool) {cs : List Expr}
    (hcs : ∀ c ∈ cs, P c) {t : Tree} (h : t.Carries P) : (pushDownAll own cs t).value.1.Carries P := by
  induction cs generalizing t with
  | nil => exact h
  | cons c cs ih =>
    rw [value_pushDownAll_cons]
    refine ih (fun d hd => hcs d (List.mem_cons_of_mem c hd)) (carries_foldl_step ?_ h)
    exact puts_route hP (hcs c List.mem_cons_self) own ∅ t

theorem carries_foldl_put {cs : List Expr} (hcs : ∀ c ∈ cs, P c) {t : Tree} (h : t.Carries P) :
    (cs.foldl (fun t c => put .joinCond c t) t).Carries P := by
  induction cs generalizing t with
  | nil => exact h
  | cons c cs ih =>
    exact ih (fun d hd => hcs d (List.mem_cons_of_mem c hd)) (carries_put (hcs c List.mem_cons_self) _ h)

theorem carries_pushOwn (hP : Expr.KeptByParts P) {t : Tree} (h : t.Carries P) :
    t.pushOwn.value.Carries P := by
  cases t with
  | leaf i l => exact h
  | join i info l r =>
    obtain ⟨hinfo, hl, hr⟩ := h
    obtain ⟨hkeys, hconds⟩ := List.forall_mem_append.1 hinfo
    have hbare : (join i { info with conds := [] } l r).Carries P :=
      ⟨List.forall_mem_append.2 ⟨hkeys, nofun⟩, hl, hr⟩
    rw [pushOwn, Reported.value_bind]
    refine carries_foldl_put (fun c hc => ?_) (carries_pushDownAll hP true hconds hbare)
    rw [remaining_pushDownAll] at hc
    exact hconds c (List.mem_of_mem_filter hc)

theorem carries_pushDownJoins (hP : Expr.KeptByParts P) {t : Tree} (h : t.Carries P) :
    t.pushDownJoins.value.Carries P := by
  refine pushDownJoins_induct (R := fun t t' => t.Carries P → t'.Carries P)
    (fun t => carries_pushOwn hP) ?_ t h
  intro t l l' r r' i info hroot hl hr ht
  obtain ⟨hinfo, hwl, hwr⟩ := hroot ht
  exact ⟨hinfo, hl hwl, hr hwr⟩

theorem carries_simplifyConds {t : Tree}
    (hleaves : ∀ x ∈ t.leaves, (∀ c ∈ x.2.filters, P c) ∧ ∀ c ∈ x.2.lookups, P c)
    (hjoins : ∀ n ∈ t.joins,
      (∀ c ∈ n.info.keys, P c) ∧ ∀ c ∈ Expr.simplifyAll n.info.conds, P c) :
    t.simplifyConds.value.Carries P := by
  induction t with
  | leaf i l => exact hleaves _ List.mem_cons_self
  | join i info l r ihl ihr =>
    obtain ⟨hleavesl, hleavesr⟩ := List.forall_mem_append.1 hleaves
    rw [joins, List.forall_mem_append, List.forall_mem_append, List.forall_mem_singleton] at hjoins
    obtain ⟨⟨hjoinsl, hjoinsr⟩, hinfo⟩ := hjoins
    rw [value_simplifyConds_join]
    exact ⟨List.forall_mem_append.2 hinfo, ihl hleavesl hjoinsl, ihr hleavesr hjoinsr⟩

theorem carries_finishConds {fin : Finisher} (hfin : fin.Keeps P) {t u : Tree} (h : t.Carries P)
    (hok : t.finishConds fin = ⟨u, none⟩) : u.Carries P := by
  have hfinal {cs ds : List Expr} (hcs : ∀ c ∈ cs, P c) (hds : fin.applyAll cs = .ok ds) :
      ∀ d ∈ ds, P d := fun d hd => by
    obtain ⟨c, hc, hcd⟩ := apply_of_mem_applyAll hds d hd
    exact hfin (hcs c hc) hcd
  induction t generalizing u with
  | leaf i l =>
    obtain ⟨cs, hcs, rfl⟩ := finishConds_leaf_iff.1 hok
    exact ⟨h.1, hfinal h.2 hcs⟩
  | join i info l r ihl ihr =>
    obtain ⟨l', r', cs, hl, hr, hcs, rfl⟩ := finishConds_join_iff.1 hok
    obtain ⟨hkeys, hconds⟩ := List.forall_mem_append.1 h.1
    exact ⟨List.forall_mem_append.2 ⟨hkeys, hfinal hconds hcs⟩, ihl h.2.1 hl, ihr h.2.2 hr⟩

theorem carries_recordUsedTables {t : Tree} (h : t.Carries P) : t.recordUsedTables.Carries P := by
  induction t with
  | leaf i l => exact h
  | join i info l r ihl ihr => exact ⟨h.1, ihl h.2.1, ihr h.2.2⟩

theorem carries_divideKeys {t : Tree} (h : t.Carries P) : t.divideKeys.Carries P := by
  induction t with
  | leaf i l => exact h
  | join i info l r ihl ihr =>
    exact ⟨fun c hc => h.1 c (mem_of_mem_divideConds hc), ihl h.2.1, ihr h.2.2⟩

theorem carries_bare {t : Tree} : t.bare.Carries P ↔ t.Carries P := by
  induction t with
  | leaf i l => exact Iff.rfl
  | join i info l r ihl ihr => exact and_congr Iff.rfl (and_congr ihl ihr)

theorem carries_addTree (est : Estimator) {t : Tree} (a : Assembly) (h : t.Carries P) :
    (Assembly.addTree est t a).value.1.Carries P := by
  rw [← carries_bare, bare_addTree, carries_bare]
  exact h

end Tree

/-! ### Some condition -/

/-- A condition that is written like one with the property has it. -/
def Expr.KeptByCopies (P : Expr → Prop) : Prop := ∀ {c d : Expr}, P c → d.same c = true → P d

namespace Tree

/-- Some condition that the tree evaluates has the property. -/
def Evaluates (P : Expr → Prop) : Tree → Prop
  | leaf _ l => ∃ c ∈ l.filters, P c
  | join _ info l r => (∃ c ∈ info.conds, P c) ∨ l.Evaluates P ∨ r.Evaluates P

/-! #### The steps -/

/-- What is put down takes the place of nothing. -/
theorem Evaluates.put {t : Tree} (h : t.Evaluates P) (role : Role) (c : Expr) :
    (put role c t).Evaluates P := by
  cases t with
  | leaf i l =>
    cases role with
    | filter =>
      obtain ⟨d, hd, hP⟩ := h
      refine ⟨d, ?_, hP⟩
      unfold insertNew
      split
      · exact hd
      · exact List.mem_append_left _ hd
    | lookup => exact h
    | joinCond => exact h
  | join i info l r =>
    cases role with
    | joinCond =>
      exact h.imp_left fun ⟨d, hd, hP⟩ => ⟨d, List.mem_append_left _ hd, hP⟩
    | filter => exact h
    | lookup => exact h

theorem Evaluates.updateAt {t : Tree} (h : t.Evaluates P) {f : Tree → Tree}
    (hf : ∀ {t : Tree}, t.Evaluates P → (f t).Evaluates P) (path : List Side) :
    (t.updateAt f path).Evaluates P := by
  induction path generalizing t with
  | nil => exact hf h
  | cons side path ih =>
    cases t with
    | leaf i l => cases side <;> exact h
    | join i info l r =>
      cases side with
      | left => exact h.imp_right (Or.imp_left ih)
      | right => exact h.imp_right (Or.imp_right ih)

theorem Evaluates.foldl_step {t : Tree} (h : t.Evaluates P) (steps : List Step) :
    (steps.foldl step t).Evaluates P := by
  induction steps generalizing t with
  | nil => exact h
  | cons s steps ih =>
    cases s with
    | weaken c p => exact ih h
    | put path role c => exact ih (h.updateAt (fun h => h.put role c) path)

/-- **A condition is not lost on its way**: it is evaluated where its way ends, unless it remains with the
caller. -/
theorem evaluates_route (hP : Expr.KeptByCopies P) {c : Expr} (hc : P c) (own : Bool) {t : Tree}
    (h : (t.route c own ∅).remains = false) : ((t.route c own ∅).steps.foldl step t).Evaluates P := by
  induction t generalizing own with
  | leaf i l =>
    change ∃ d ∈ insertNew c l.filters, P d
    unfold insertNew
    split
    next hany =>
      obtain ⟨d, hd, hsame⟩ := List.any_eq_true.1 hany
      exact ⟨d, hd, hP hc hsame⟩
    next => exact ⟨c, List.mem_append_right _ List.mem_cons_self, hc⟩
  | join i info l r ihl ihr =>
    rw [route_join] at h ⊢
    split_ifs at h ⊢ with hl hopen hr hopen hempty hstays
    · rw [Route.under, foldl_under_left]
      exact .inr (.inl (ihl false h))
    · rw [Route.under, foldl_under_right]
      exact .inr (.inr (ihr false h))
    · exact absurd rfl hempty
    · rw [List.foldl_append, foldl_copies]
      exact .inl ⟨c, List.mem_append_right _ List.mem_cons_self, hc⟩

/-! #### The passes -/

/-- A condition that is pushed down remains or is evaluated. -/
theorem evaluates_pushDownAll (hP : Expr.KeptByCopies P) (own : Bool) {cs : List Expr} {t : Tree}
    (h : (∃ c ∈ cs, P c) ∨ t.Evaluates P) :
    (∃ c ∈ (pushDownAll own cs t).value.2, P c) ∨ (pushDownAll own cs t).value.1.Evaluates P := by
  induction cs generalizing t with
  | nil => exact .inr (h.resolve_left nofun)
  | cons c cs ih =>
    rw [value_pushDownAll_cons]
    have hmem {d : Expr} {ds : List Expr} (remains : Bool) (hd : d ∈ ds) :
        d ∈ if remains then c :: ds else ds := by
      cases remains with
      | true => exact List.mem_cons_of_mem c hd
      | false => exact hd
    have hlater (h : (∃ d ∈ cs, P d) ∨ ((t.route c own ∅).steps.foldl step t).Evaluates P) :=
      (ih h).imp_left fun ⟨d, hd, hPd⟩ =>
        (⟨d, hmem (t.route c own ∅).remains hd, hPd⟩ : ∃ d ∈ ite _ _ _, P d)
    obtain ⟨d, hd, hPd⟩ | h := h
    · rcases List.mem_cons.1 hd with rfl | hd
      · cases hremains : (t.route d own ∅).remains with
        | true => exact .inl ⟨d, List.mem_cons_self, hPd⟩
        | false => exact hremains ▸ hlater (.inr (evaluates_route hP hPd own hremains))
      · exact hlater (.inl ⟨d, hd, hPd⟩)
    · exact hlater (.inr (h.foldl_step _))

/-- Conditions that are put back at a join are evaluated there. -/
theorem evaluates_foldl_put {cs : List Expr} {t : Tree} (htakes : t.takes = .joinCond)
    (h : (∃ c ∈ cs, P c) ∨ t.Evaluates P) :
    (cs.foldl (fun t c => put .joinCond c t) t).Evaluates P := by
  induction cs generalizing t with
  | nil => exact h.resolve_left nofun
  | cons c cs ih =>
    refine ih ((takes_of_outline (outline_put .joinCond c t)).trans htakes) ?_
    obtain ⟨d, hd, hPd⟩ | h := h
    · rcases List.mem_cons.1 hd with rfl | hd
      · cases t with
        | leaf i l => cases htakes
        | join i info l r => exact .inr (.inl ⟨d, List.mem_append_right _ List.mem_cons_self, hPd⟩)
      · exact .inl ⟨d, hd, hPd⟩
    · exact .inr (h.put .joinCond c)

theorem Evaluates.pushOwn (hP : Expr.KeptByCopies P) {t : Tree} (h : t.Evaluates P) :
    t.pushOwn.value.Evaluates P := by
  cases t with
  | leaf i l => exact h
  | join i info l r =>
    rw [Tree.pushOwn, Reported.value_bind]
    refine evaluates_foldl_put ?_ (evaluates_pushDownAll hP true (h.imp_right .inr))
    exact takes_of_outline (outline_pushDownAll true _ _)

theorem Evaluates.pushDownJoins (hP : Expr.KeptByCopies P) {t : Tree} (h : t.Evaluates P) :
    t.pushDownJoins.value.Evaluates P := by
  refine pushDownJoins_induct (R := fun t t' => t.Evaluates P → t'.Evaluates P)
    (fun t h => h.pushOwn hP) ?_ t h
  intro t l l' r r' i info hroot hl hr ht
  exact (hroot ht).imp_right (Or.imp hl hr)

theorem evaluates_simplifyConds {t : Tree}
    (h : ∃ n ∈ t.joins, ∃ c ∈ Expr.simplifyAll n.info.conds, P c) :
    t.simplifyConds.value.Evaluates P := by
  induction t with
  | leaf i l =>
    obtain ⟨n, hn, -⟩ := h
    cases hn
  | join i info l r ihl ihr =>
    rw [value_simplifyConds_join]
    obtain ⟨n, hn, hconds⟩ := h
    rw [joins, List.mem_append, List.mem_append, List.mem_singleton] at hn
    obtain (hn | hn) | rfl := hn
    · exact .inr (.inl (ihl ⟨n, hn, hconds⟩))
    · exact .inr (.inr (ihr ⟨n, hn, hconds⟩))
    · exact .inl hconds

/-- Every condition has its final form among those of the list. -/
theorem exists_final_of_mem {fin : Finisher} {cs ds : List Expr} (h : fin.applyAll cs = .ok ds) {c : Expr}
    (hc : c ∈ cs) : ∃ d ∈ ds, fin.apply c = .ok d := by
  induction cs generalizing ds with
  | nil => cases hc
  | cons b cs ih =>
    obtain ⟨d, hd, h⟩ := Except.bind_eq_ok.1 h
    obtain ⟨ds, hds, h⟩ := Except.bind_eq_ok.1 h
    cases h
    rcases List.mem_cons.1 hc with rfl | hc
    · exact ⟨d, List.mem_cons_self, hd⟩
    · exact (ih hds hc).imp fun _ => And.imp_left (List.mem_cons_of_mem d)

theorem Evaluates.finishConds {fin : Finisher} (hfin : fin.Keeps P) {t u : Tree} (h : t.Evaluates P)
    (hok : t.finishConds fin = ⟨u, none⟩) : u.Evaluates P := by
  induction t generalizing u with
  | leaf i l =>
    obtain ⟨cs, hcs, rfl⟩ := finishConds_leaf_iff.1 hok
    exact h
  | join i info l r ihl ihr =>
    obtain ⟨l', r', cs, hl, hr, hcs, rfl⟩ := finishConds_join_iff.1 hok
    refine h.imp (fun ⟨c, hc, hPc⟩ => ?_) (Or.imp (ihl · hl) (ihr · hr))
    obtain ⟨d, hd, hcd⟩ := exists_final_of_mem hcs hc
    exact ⟨d, hd, hfin hPc hcd⟩

theorem Evaluates.recordUsedTables {t : Tree} (h : t.Evaluates P) : t.recordUsedTables.Evaluates P := by
  induction t with
  | leaf i l => exact h
  | join i info l r ihl ihr => exact h.imp_right (Or.imp ihl ihr)

/-- When the conditions have been divided, none of those evaluated has the property only if none had it. -/
theorem not_evaluates_of_divideKeys {t : Tree}
    (hleaves : ∀ x ∈ t.divideKeys.leaves, ∀ c ∈ x.2.filters, ¬ P c)
    (hjoins : ∀ n ∈ t.divideKeys.joins, ∀ c ∈ n.info.allConds, ¬ P c) : ¬ t.Evaluates P := by
  induction t with
  | leaf i l =>
    rintro ⟨c, hc, hPc⟩
    exact hleaves _ List.mem_cons_self c hc hPc
  | join i info l r ihl ihr =>
    rw [divideKeys, leaves, List.forall_mem_append] at hleaves
    rw [divideKeys, joins, List.forall_mem_append, List.forall_mem_append,
      List.forall_mem_singleton] at hjoins
    obtain ⟨⟨hjoinsl, hjoinsr⟩, hinfo⟩ := hjoins
    rintro (⟨c, hc, hPc⟩ | h | h)
    · exact hinfo c (mem_divideConds hc) hPc
    · exact ihl hleaves.1 hjoinsl h
    · exact ihr hleaves.2 hjoinsr h

/-! ### The bare tree -/

theorem leaves_bare (t : Tree) : t.bare.leaves = t.leaves.map fun x => (x.1, x.2.bare) := by
  induction t with
  | leaf i l => rfl
  | join i info l r ihl ihr => rw [bare, leaves, leaves, ihl, ihr, List.map_append]

/-- The nodes and rules of a tree do not matter to the conditions of its joins. -/
theorem forall_allConds_bare {t : Tree} : (∀ n ∈ t.bare.joins, ∀ c ∈ n.info.allConds, P c) ↔
    ∀ n ∈ t.joins, ∀ c ∈ n.info.allConds, P c := by
  rw [joins_bare, List.forall_mem_map]
  rfl

/-- Neither do they matter to the filters of its tables. -/
theorem forall_filters_bare {t : Tree} : (∀ x ∈ t.bare.leaves, ∀ c ∈ x.2.filters, P c) ↔
    ∀ x ∈ t.leaves, ∀ c ∈ x.2.filters, P c := by
  rw [leaves_bare, List.forall_mem_map]
  rfl

end Tree

end QueryGraph
