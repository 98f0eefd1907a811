import QueryGraph.Planning
import QueryGraph.Proofs.Forest.Classification
import QueryGraph.Proofs.Forest.FromLists
import QueryGraph.Proofs.Forest.Walking
import QueryGraph.Proofs.Passes.FinalForm
import QueryGraph.Proofs.Passes.Shuffled

/-!
# What is left of a forest when a condition is refused

The conditions below a node get their final form, node after node, until one of them has none.

## The model

Every node has a list of conditions that get their final form: those of a join, and the lookups of a table
(`Entry.conds`). The pass goes over the tree below a node by recursion. What it leaves is told here in the
order of the walk instead (`FinishedAlong`): nodes that are finished, then perhaps one with a condition that
is refused, and from there on nodes that are as they were. The list of the node in between is lost, since it
has been taken out of the node before its conditions are looked at.

## What is proved

* `refusesFirst_of_applyAll` — the error of a list is that of the first condition that is refused.
* `finishedAlong_of_tree?` — the recursion over the tree works along the walk.
* `finishedBelow_pass` — what the pass leaves of a forest, and which error it ends with.
-/

namespace QueryGraph

/-! ### One list -/

namespace Finisher

/-- The condition has a final form. -/
def Accepts (fin : Finisher) (c : Expr) : Prop := ∃ d, fin.finish c = .ok d

/-- The error is that of the first condition of the list without a final form. It holds the condition as it
stands in the list. -/
def RefusesFirst (fin : Finisher) (cs : List Expr) (err : FinishError) : Prop :=
  ∃ before after, cs = before ++ err.condition :: after ∧ (∀ c ∈ before, fin.Accepts c) ∧
    fin.finish err.condition = .error err.fault

variable {fin : Finisher} {c : Expr} {cs : List Expr} {err : FinishError}

theorem apply_eq_error (h : fin.apply c = .error err) :
    err.condition = c ∧ fin.finish c = .error err.fault := by
  unfold apply at h
  cases hc : fin.finish c with
  | ok d =>
    rw [hc] at h
    cases h
  | error fault =>
    rw [hc] at h
    cases h
    exact ⟨rfl, rfl⟩

/-- The final forms of a list are those of its conditions. -/
theorem applyAll_eq_ok {ds : List Expr} :
    fin.applyAll cs = .ok ds ↔ List.Forall₂ (fun c d => fin.finish c = .ok d) cs ds := by
  rw [applyAll_eq_mapM, mapM_eq_ok_iff]
  simp only [apply_eq_ok]

theorem refusesFirst_of_applyAll (h : fin.applyAll cs = .error err) : fin.RefusesFirst cs err := by
  induction cs with
  | nil => cases h
  | cons c cs ih =>
    rw [applyAll] at h
    cases hc : fin.apply c with
    | error e =>
      rw [hc] at h
      cases h
      obtain ⟨rfl, hfault⟩ := apply_eq_error hc
      exact ⟨[], cs, rfl, List.forall_mem_nil _, hfault⟩
    | ok d =>
      rw [hc] at h
      cases hcs : fin.applyAll cs with
      | ok ds =>
        rw [hcs] at h
        cases h
      | error e =>
        rw [hcs] at h
        cases h
        obtain ⟨before, after, rfl, hbefore, hfault⟩ := ih hcs
        exact ⟨c :: before, after, rfl, List.forall_mem_cons.2 ⟨⟨d, apply_eq_ok.1 hc⟩, hbefore⟩, hfault⟩

theorem RefusesFirst.exists_not_accepts (h : fin.RefusesFirst cs err) : ∃ c ∈ cs, ¬ fin.Accepts c := by
  obtain ⟨before, after, rfl, -, hfault⟩ := h
  refine ⟨err.condition, List.mem_append_right _ List.mem_cons_self, ?_⟩
  rintro ⟨d, hd⟩
  cases hfault.symm.trans hd

end Finisher

/-! ### One node -/

namespace Entry

/-- The conditions of the node that get a final form. -/
def conds : Entry → List Expr
  | leaf l => l.lookups
  | join info _ _ => info.conds

/-- The node with other conditions in the place of these, and with all else that it carries. -/
def withConds (cs : List Expr) : Entry → Entry
  | leaf l => leaf { l with lookups := cs }
  | join info l r => join { info with conds := cs } l r

end Entry

namespace Forest

section

variable (fin : Finisher) (f f' : Forest)

/-- The conditions of all these nodes have a final form. -/
def Accepted (ks : List Nat) : Prop :=
  ∀ k ∈ ks, ∀ e, f.entries[k]? = some e → ∀ c ∈ e.conds, fin.Accepts c

/-- In the second forest the node has the final forms of its conditions. -/
def FinishedAt (k : Nat) : Prop :=
  ∃ e cs, f.entries[k]? = some e ∧ List.Forall₂ (fun c d => fin.finish c = .ok d) e.conds cs ∧
    f'.entries[k]? = some (e.withConds cs)

/-- A condition of the node is refused with the error. In the second forest the node has no conditions. -/
def RefusedAt (k : Nat) (err : FinishError) : Prop :=
  ∃ e, f.entries[k]? = some e ∧ fin.RefusesFirst e.conds err ∧ f'.entries[k]? = some (e.withConds [])

/-- In the second forest these nodes are as they were. -/
def KeptAt (ks : List Nat) : Prop := ∀ k ∈ ks, f'.entries[k]? = f.entries[k]?

/-- The nodes are finished one after the other, until a condition is refused if one is. -/
inductive FinishedAlong : List Nat → Option FinishError → Prop where
  /-- No node is left. -/
  | nil : FinishedAlong [] none
  /-- The first node is finished, and the pass goes on. -/
  | finished {k : Nat} {ks : List Nat} {error? : Option FinishError} :
    f.FinishedAt fin f' k → FinishedAlong ks error? → FinishedAlong (k :: ks) error?
  /-- A condition of the first node is refused, and the pass ends. -/
  | refused {k : Nat} {ks : List Nat} {err : FinishError} :
    f.RefusedAt fin f' k err → f.KeptAt f' ks → FinishedAlong (k :: ks) (some err)

end

variable {fin : Finisher} {f f' : Forest} {i : Nat} {t : Tree} {ks ls : List Nat} {error? : Option FinishError}

/-- A pass that has come to the end of some nodes goes on with others. -/
theorem FinishedAlong.append (hks : f.FinishedAlong fin f' ks none) (hls : f.FinishedAlong fin f' ls error?) :
    f.FinishedAlong fin f' (ks ++ ls) error? := by
  generalize hnone : none = o at hks
  induction hks with
  | nil => exact hls
  | finished hk _ ih => exact .finished hk (ih hnone)
  | refused _ _ => cases hnone

/-- A pass that has ended leaves other nodes alone. -/
theorem FinishedAlong.append_kept {err : FinishError} (hks : f.FinishedAlong fin f' ks (some err))
    (hls : f.KeptAt f' ls) : f.FinishedAlong fin f' (ks ++ ls) (some err) := by
  generalize hsome : some err = o at hks
  induction hks with
  | nil => cases hsome
  | finished hk _ ih => exact .finished hk (ih hsome)
  | refused hk hkept =>
    cases hsome
    exact .refused hk (List.forall_mem_append.2 ⟨hkept, hls⟩)

/-- Where the same tree is found, the nodes are the same. -/
theorem keptAt_of_tree? (h : f.tree? i = some t) (h' : f'.tree? i = some t) : f.KeptAt f' t.postorder := by
  intro k hk
  obtain ⟨u, hu, rfl⟩ := List.mem_map.1 hk
  rw [entry_of_tree? (tree?_of_mem_subtrees h u hu), entry_of_tree? (tree?_of_mem_subtrees h' u hu)]

section

variable {info : JoinInfo} {l r : Tree} {j k : Nat} (h : f.tree? i = some (.join i info l r)) (hl : l.id = j)
  (hr : r.id = k)

include h hl hr

/-- The sides of a join are the nodes of the sides of its tree. -/
theorem entry_of_join : f.entries[i]? = some (.join info j k) := by
  rw [entry_of_tree? h, entryOf, hl, hr]

/-- Below them there are these trees. -/
theorem tree?_sides : f.tree? j = some l ∧ f.tree? k = some r := by
  have hsub := tree?_of_mem_subtrees h
  rw [Tree.subtrees] at hsub
  obtain ⟨hsubl, hsubr⟩ := List.forall_mem_append.1 (List.forall_mem_append.1 hsub).1
  exact ⟨hl ▸ hsubl l l.mem_subtrees_self, hr ▸ hsubr r r.mem_subtrees_self⟩

end

/-- The recursion over the tree works along the postorder. -/
theorem finishedAlong_of_tree? (h : f.tree? i = some t) (h' : f'.tree? i = some (t.finishConds fin).tree) :
    f.FinishedAlong fin f' t.postorder (t.finishConds fin).error? := by
  induction h using tree?_induction with
  | leaf i l h =>
    rw [Tree.finishConds] at h' ⊢
    cases hconds : fin.applyAll l.lookups with
    | ok cs =>
      rw [hconds] at h'
      exact .finished ⟨_, cs, h, Finisher.applyAll_eq_ok.1 hconds, entry_of_tree? h'⟩ .nil
    | error err =>
      rw [hconds] at h'
      exact .refused ⟨_, h, Finisher.refusesFirst_of_applyAll hconds, entry_of_tree? h'⟩ (List.forall_mem_nil _)
  | join i info j k l r h hj hk hl hr ihl ihr =>
    have hidl : (l.finishConds fin).tree.id = j :=
      (Tree.id_of_outline (Tree.outline_finishConds fin l)).trans (id_of_tree? hl)
    have hidr : (r.finishConds fin).tree.id = k :=
      (Tree.id_of_outline (Tree.outline_finishConds fin r)).trans (id_of_tree? hr)
    rw [Tree.postorder_join]
    rw [Tree.finishConds] at h' ⊢
    generalize l.finishConds fin = left at *
    generalize r.finishConds fin = right at *
    obtain ⟨l', errl⟩ := left
    obtain ⟨r', errr⟩ := right
    -- below a side that has not been reached, and at the join if it has not, everything is as it was
    cases errl with
    | some err =>
      have hroot := entry_of_join h' hidl (id_of_tree? hr)
      obtain ⟨hl', hr'⟩ := tree?_sides h' hidl (id_of_tree? hr)
      exact ((ihl hl').append_kept (keptAt_of_tree? hr hr')).append_kept
        (List.forall_mem_singleton.2 (hroot.trans h.symm))
    | none =>
      cases errr with
      | some err =>
        have hroot := entry_of_join h' hidl hidr
        obtain ⟨hl', hr'⟩ := tree?_sides h' hidl hidr
        exact ((ihl hl').append (ihr hr')).append_kept (List.forall_mem_singleton.2 (hroot.trans h.symm))
      | none =>
        cases hconds : fin.applyAll info.conds with
        | ok cs =>
          rw [hconds] at h'
          have hroot := entry_of_join h' hidl hidr
          obtain ⟨hl', hr'⟩ := tree?_sides h' hidl hidr
          exact ((ihl hl').append (ihr hr')).append
            (.finished ⟨_, cs, h, Finisher.applyAll_eq_ok.1 hconds, hroot⟩ .nil)
        | error err =>
          rw [hconds] at h'
          have hroot := entry_of_join h' hidl hidr
          obtain ⟨hl', hr'⟩ := tree?_sides h' hidl hidr
          exact ((ihl hl').append (ihr hr')).append
            (.refused ⟨_, h, Finisher.refusesFirst_of_applyAll hconds, hroot⟩ (List.forall_mem_nil _))

/-! ### All nodes -/

/-- If everything is accepted, the pass comes to its end. -/
theorem FinishedAlong.of_accepted (h : f.FinishedAlong fin f' ks error?) (hks : f.Accepted fin ks) :
    error? = none ∧ ∀ k ∈ ks, f.FinishedAt fin f' k := by
  induction h with
  | nil => exact ⟨rfl, List.forall_mem_nil _⟩
  | finished hk _ ih =>
    obtain ⟨hnone, hrest⟩ := ih fun k hk => hks k (List.mem_cons_of_mem _ hk)
    exact ⟨hnone, List.forall_mem_cons.2 ⟨hk, hrest⟩⟩
  | refused hk _ =>
    obtain ⟨e, hentry, hrefused, -⟩ := hk
    obtain ⟨c, hc, hnot⟩ := hrefused.exists_not_accepts
    exact absurd (hks _ List.mem_cons_self e hentry c hc) hnot

theorem FinishedAt.accepted {k : Nat} (h : f.FinishedAt fin f' k) {e : Entry}
    (hentry : f.entries[k]? = some e) : ∀ c ∈ e.conds, fin.Accepts c := by
  obtain ⟨e', cs, hentry', hcs, -⟩ := h
  cases hentry.symm.trans hentry'
  intro c hc
  obtain ⟨d, -, hd⟩ := exists_of_mem_forall₂ hcs.flip hc
  exact ⟨d, hd⟩

/-- If not everything is accepted, the pass ends at the first node where something is not. -/
theorem FinishedAlong.of_not_accepted (h : f.FinishedAlong fin f' ks error?) (hks : ¬ f.Accepted fin ks) :
    ∃ before j after err, ks = before ++ j :: after ∧ error? = some err ∧
      (∀ k ∈ before, f.FinishedAt fin f' k) ∧ f.RefusedAt fin f' j err ∧ f.KeptAt f' after := by
  induction h with
  | nil => exact absurd (List.forall_mem_nil _) hks
  | @finished k ks _ hk _ ih =>
    have hrest : ¬ f.Accepted fin ks := fun hrest =>
      hks (List.forall_mem_cons.2 ⟨fun _ hentry => hk.accepted hentry, hrest⟩)
    obtain ⟨before, j, after, err, rfl, herr, hbefore, hj, hafter⟩ := ih hrest
    exact ⟨k :: before, j, after, err, rfl, herr, List.forall_mem_cons.2 ⟨hk, hbefore⟩, hj, hafter⟩
  | @refused k ks err hk hkept => exact ⟨[], k, ks, err, rfl, rfl, List.forall_mem_nil _, hk, hkept⟩

/-- The forest after the conditions below a node have got their final form, and the error that ended the
pass, if one did. -/
def finish? (fin : Finisher) (f : Forest) (i : Nat) : Option (Reported (Forest × Option FinishError)) :=
  f.pass? i fun t => do
    let finished ← t.finish fin
    return (finished.tree, finished.error?)

/-- The pass goes over the tree below the node, which is written back. -/
theorem exists_finish? (ht : f.tree? i = some t) (fin : Finisher) : ∃ r, f.finish? fin i = some r ∧
    r.value = (f.record (t.finishConds fin).tree, (t.finishConds fin).error?) := by
  rw [finish?, pass?, ht]
  refine ⟨_, rfl, ?_⟩
  rw [← Tree.value_finish]
  rfl

/-- What the pass leaves of the nodes `ks` below a node, given in the order of the walk. -/
structure FinishedBelow (fin : Finisher) (f : Forest) (ks : List Nat) (f' : Forest)
    (error? : Option FinishError) : Prop where
  /-- If all conditions have a final form, there is no error, and every node has the final forms of its own. -/
  accepted : f.Accepted fin ks → error? = none ∧ ∀ k ∈ ks, f.FinishedAt fin f' k
  /-- Otherwise the error is that of the first condition that has none, and tells it as it was. The nodes before
  its node are finished, the node itself has no conditions any more, and the nodes after it are as they were. -/
  refused : ¬ f.Accepted fin ks → ∃ before j after err, ks = before ++ j :: after ∧ error? = some err ∧
    (PlanError.unfinished err).message = "failed to rewrite condition " ++ err.condition.text ∧
    (∀ k ∈ before, f.FinishedAt fin f' k) ∧ f.RefusedAt fin f' j err ∧ f.KeptAt f' after
  /-- Other nodes are as they were. -/
  others : ∀ k, k ∉ ks → f'.entries[k]? = f.entries[k]?
  /-- There are no more nodes and no less. -/
  size : f'.size = f.size
  /-- The root is the same node. -/
  root : f'.root = f.root

/-- **A pass that fails changes a part of the forest that is known exactly.** -/
theorem finishedBelow_pass (ho : f.Ordered) (hi : i < f.size) (hu : f.Unshared i) (fin : Finisher) :
    ∃ r, f.finish? fin i = some r ∧ f.FinishedBelow fin (f.walk i) r.value.1 r.value.2 := by
  obtain ⟨t, ht⟩ := exists_tree? ho hi
  have hnodup : t.postorder.Nodup := (nodup_postorder_iff ho ht).2 hu
  have hchanged := changedBelow_record_of_nodup ht hnodup (Tree.outline_finishConds fin t)
  have halong := finishedAlong_of_tree? ht hchanged.tree
  obtain ⟨r, hr, hvalue⟩ := exists_finish? ht fin
  refine ⟨r, hr, ?_⟩
  rw [hvalue, walk_eq_postorder ht]
  constructor
  case accepted => exact halong.of_accepted
  case refused =>
    intro hnot
    obtain ⟨before, j, after, err, hks, herr, hbefore, hj, hafter⟩ := halong.of_not_accepted hnot
    exact ⟨before, j, after, err, hks, herr, rfl, hbefore, hj, hafter⟩
  case others => exact hchanged.others
  case size => exact hchanged.size
  case root => exact hchanged.root

/-- Refuses comparisons by `<`. -/
def unorderedFinisher : Finisher :=
  ⟨fun c => match c with
    | .compare .lt _ _ => .error (.other "no order")
    | c => .ok c⟩

theorem finishedBelow_pass_mixed :
    let f := ofTree mixedJoin.tree
    f.Ordered ∧ 2 < f.size ∧ f.Unshared 2 ∧ ∃ r, f.finish? unorderedFinisher 2 = some r ∧
      f.FinishedBelow unorderedFinisher (f.walk 2) r.value.1 r.value.2 := by
  intro f
  have ho : f.Ordered := ordered_ofTree (by decide)
  have hu : f.Unshared 2 := (nodup_postorder_iff ho (tree?_ofTree (by decide))).1 (by decide)
  exact ⟨ho, by decide, hu, finishedBelow_pass ho (by decide) hu unorderedFinisher⟩

/-- The comparison by `<` comes first in the list, so the join loses the equality as well. -/
example : ((ofTree mixedJoin.tree).finish? unorderedFinisher 2).map
    (fun r => (r.value.1.entries.map fun e => e.conds.length, r.value.2.isSome)) = some ([0, 0, 0], true) := by
  decide +kernel

end Forest

end QueryGraph
