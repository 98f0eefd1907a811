import QueryGraph.Proofs.Relabeling.Canonical

/-!
# Conditions in another order

What becomes of a tree when conditions are pushed down in another order.

## The model

A tree is `Shuffled` if its lists of conditions are permuted. Putting a condition down at a node respects
this, and two conditions may be put down one after the other or the other way round: they end at the same
nodes, since their ways do not depend on what has been put down before. A table takes a condition only
once, so for the exchange it matters that conditions written alike are equal. So conditions are canonical
here.

The later passes look at lists of conditions as a whole. They find the same tables in them, and the same
of them are hash keys or have a final form.

## What is proved

* `foldl_perm` — a run in another order, where two rounds may be exchanged.
* `step_respects`, `step_swap` — one step on the way of a condition, and two of them.
* `shuffled_pushDownAll` — conditions pushed down in another order.
* `shuffled_finishConds`, `shuffled_divideKeys` and so on — the passes that follow.
-/

namespace QueryGraph

/-! ### Runs in another order -/

section

variable {α β : Type} {R : β → β → Prop} {f : β → α → β} {P : α → Prop}

theorem foldl_respects (hround : ∀ {b b'} x, R b b' → R (f b x) (f b' x)) (xs : List α) {b b' : β}
    (h : R b b') : R (xs.foldl f b) (xs.foldl f b') := by
  induction xs generalizing b b' with
  | nil => exact h
  | cons x xs ih => exact ih (hround x h)

/-- A run may take its rounds in another order, up to what rounds respect, if any two of them may be
exchanged. -/
theorem foldl_perm (hrefl : ∀ b, R b b) (htrans : ∀ {a b c}, R a b → R b c → R a c)
    (hround : ∀ {b b'} x, R b b' → R (f b x) (f b' x))
    (hswap : ∀ {x y}, P x → P y → ∀ b, R (f (f b x) y) (f (f b y) x)) {xs ys : List α}
    (hperm : xs.Perm ys) (hxs : ∀ x ∈ xs, P x) (b : β) : R (xs.foldl f b) (ys.foldl f b) := by
  induction hperm generalizing b with
  | nil => exact hrefl b
  | cons x _ ih => exact ih (fun y hy => hxs y (List.mem_cons_of_mem x hy)) (f b x)
  | swap x y xs =>
    have hx := hxs x (List.mem_cons_of_mem y List.mem_cons_self)
    exact foldl_respects hround xs (hswap (hxs y List.mem_cons_self) hx b)
  | trans hfirst _ ihfirst ihsecond =>
    exact htrans (ihfirst hxs b) (ihsecond (fun x hx => hxs x (hfirst.mem_iff.2 hx)) b)

end

/-- A loop over a list in another order returns the same in another order. -/
theorem mapM_perm {ε α β : Type} {f : α → Except ε β} {xs xs' : List α} {ys : List β}
    (hperm : xs.Perm xs') (h : xs.mapM f = .ok ys) : ∃ ys', xs'.mapM f = .ok ys' ∧ ys.Perm ys' := by
  obtain ⟨ys', hys', hperm'⟩ := List.perm_comp_forall₂ hperm.symm (mapM_eq_ok_iff.1 h)
  exact ⟨ys', mapM_eq_ok_iff.2 hys', hperm'.symm⟩

/-! ### Lists of conditions -/

theorem insertNew_perm (c : Expr) {cs cs' : List Expr} (h : cs.Perm cs') :
    (insertNew c cs).Perm (insertNew c cs') := by
  rw [insertNew, insertNew, h.any_eq]
  split
  · exact h
  · exact h.append_right [c]

/-- Two conditions may be inserted in either order. -/
theorem insertNew_swap {c d : Expr} (hc : c.Canonical) (hd : d.Canonical) (cs : List Expr) :
    (insertNew d (insertNew c cs)).Perm (insertNew c (insertNew d cs)) := by
  have hcd := Expr.same_iff_of_canonical hc hd
  have hdc := Expr.same_iff_of_canonical hd hc
  by_cases heq : c = d
  · rw [heq]
  have hcd' : c.same d = false := by
    rw [← Bool.not_eq_true, hcd]
    exact heq
  have hdc' : d.same c = false := by
    rw [← Bool.not_eq_true, hdc]
    exact Ne.symm heq
  have hany (c d : Expr) (h : c.same d = false) (cs : List Expr) :
      (insertNew c cs).any (·.same d) = cs.any (·.same d) := by
    rw [insertNew]
    split
    · rfl
    · simp [h]
  rw [insertNew, hany c d hcd' cs, insertNew.eq_def c (insertNew d cs), hany d c hdc' cs]
  rw [insertNew, insertNew]
  by_cases hinc : cs.any (·.same c) = true
  · rw [if_pos hinc, if_pos hinc]
  · rw [if_neg hinc, if_neg hinc]
    by_cases hind : cs.any (·.same d) = true
    · rw [if_pos hind, if_pos hind]
    · rw [if_neg hind, if_neg hind, List.append_assoc, List.append_assoc]
      exact (List.Perm.swap d c []).append_left cs

/-- Conditions in another order are simplified to the same conditions in another order. -/
theorem Expr.simplifyAll_perm {cs cs' : List Expr} (h : cs.Perm cs') :
    (simplifyAll cs).Perm (simplifyAll cs') := by
  rw [simplifyAll, simplifyAll, contradictory, contradictory, h.any_eq]
  split
  · exact List.Perm.refl _
  · exact h.flatMap_right _

theorem Finisher.applyAll_eq_mapM (fin : Finisher) (cs : List Expr) :
    fin.applyAll cs = cs.mapM fin.apply := by
  induction cs with
  | nil => rfl
  | cons c cs ih =>
    rw [Finisher.applyAll, ih, List.mapM_cons]
    rfl

/-- If all conditions have a final form, they have it in any order. -/
theorem Finisher.applyAll_perm {fin : Finisher} {cs cs' ds : List Expr} (hperm : cs.Perm cs')
    (h : fin.applyAll cs = .ok ds) : ∃ ds', fin.applyAll cs' = .ok ds' ∧ ds.Perm ds' := by
  rw [applyAll_eq_mapM] at h ⊢
  exact mapM_perm hperm h

/-! ### Trees -/

/-- The leaf has the same conditions in another order. -/
structure Leaf.Shuffled (l m : Leaf) : Prop where
  /-- The table is the same. -/
  table_eq : l.table = m.table
  /-- Its node is the same. -/
  nodes_eq : l.nodes = m.nodes
  /-- The lookups are permuted. -/
  lookups : l.lookups.Perm m.lookups
  /-- The filters are permuted. -/
  filters : l.filters.Perm m.filters

/-- The join has the same conditions in another order. -/
structure JoinInfo.Shuffled (info info' : JoinInfo) : Prop where
  /-- The kind is the same. -/
  kind_eq : info.kind = info'.kind
  /-- The conditions are permuted. -/
  conds : info.conds.Perm info'.conds
  /-- The hash keys are permuted. -/
  keys : info.keys.Perm info'.keys
  /-- The tables that it records are the same. -/
  usedTables_eq : info.usedTables = info'.usedTables
  /-- The nodes that it records are the same. -/
  usedNodes_eq : info.usedNodes = info'.usedNodes
  /-- The nodes below are the same. -/
  nodes_eq : info.nodes = info'.nodes
  /-- The rules are the same. -/
  rules_eq : info.rules = info'.rules

theorem JoinInfo.Shuffled.refl (info : JoinInfo) : info.Shuffled info :=
  ⟨rfl, .refl _, .refl _, rfl, rfl, rfl, rfl⟩

theorem JoinInfo.Shuffled.allConds {info info' : JoinInfo} (h : info.Shuffled info') :
    info.allConds.Perm info'.allConds := h.keys.append h.conds

namespace Tree

/-- The tree has the same conditions at each node in another order. -/
inductive Shuffled : Tree → Tree → Prop
  /-- At a table. -/
  | leaf {i : Nat} {l m : Leaf} (h : l.Shuffled m) : Shuffled (leaf i l) (leaf i m)
  /-- At a join and on both sides of it. -/
  | join {i : Nat} {info info' : JoinInfo} {l l' r r' : Tree} (h : info.Shuffled info')
      (hl : Shuffled l l') (hr : Shuffled r r') : Shuffled (join i info l r) (join i info' l' r')

variable {t t' t'' : Tree}

theorem Shuffled.refl (t : Tree) : t.Shuffled t := by
  induction t with
  | leaf i l => exact .leaf ⟨rfl, rfl, .refl _, .refl _⟩
  | join i info l r ihl ihr => exact .join (.refl info) ihl ihr

theorem Shuffled.trans (h : t.Shuffled t') (h' : t'.Shuffled t'') : t.Shuffled t'' := by
  induction h generalizing t'' with
  | leaf h =>
    cases h' with
    | leaf h' =>
      exact .leaf ⟨h.table_eq.trans h'.table_eq, h.nodes_eq.trans h'.nodes_eq,
        h.lookups.trans h'.lookups, h.filters.trans h'.filters⟩
  | join h _ _ ihl ihr =>
    cases h' with
    | join h' hl' hr' =>
      exact .join ⟨h.kind_eq.trans h'.kind_eq, h.conds.trans h'.conds, h.keys.trans h'.keys,
        h.usedTables_eq.trans h'.usedTables_eq, h.usedNodes_eq.trans h'.usedNodes_eq,
        h.nodes_eq.trans h'.nodes_eq, h.rules_eq.trans h'.rules_eq⟩ (ihl hl') (ihr hr')

theorem Shuffled.tables_eq (h : t.Shuffled t') : t.tables = t'.tables := by
  induction h with
  | leaf h => rw [tables, tables, h.table_eq]
  | join _ _ _ ihl ihr => rw [tables, tables, ihl, ihr]

/-! ### One step -/

theorem put_respects (role : Role) (c : Expr) (h : t.Shuffled t') :
    (put role c t).Shuffled (put role c t') := by
  cases h with
  | leaf h =>
    cases role with
    | filter => exact .leaf { h with filters := insertNew_perm c h.filters }
    | lookup => exact .leaf { h with lookups := insertNew_perm c h.lookups }
    | joinCond => exact .leaf h
  | join h hl hr =>
    cases role with
    | joinCond => exact .join { h with conds := h.conds.append_right [c] } hl hr
    | _ => exact .join h hl hr

theorem updateAt_respects {f : Tree → Tree} (hf : ∀ {t t'}, t.Shuffled t' → (f t).Shuffled (f t'))
    (path : List Side) (h : t.Shuffled t') : (updateAt f path t).Shuffled (updateAt f path t') := by
  induction path generalizing t t' with
  | nil => exact hf h
  | cons side path ih =>
    cases h with
    | leaf h => cases side <;> exact .leaf h
    | join h hl hr =>
      cases side
      · exact .join h (ih hl) hr
      · exact .join h hl (ih hr)

theorem step_respects (s : Step) (h : t.Shuffled t') : (t.step s).Shuffled (t'.step s) := by
  cases s with
  | weaken c p => exact h
  | put path role c => exact updateAt_respects (put_respects role c) path h

/-- Two conditions may be put down at a node in either order. -/
theorem put_swap {c d : Expr} (hc : c.Canonical) (hd : d.Canonical) (role role' : Role) (t : Tree) :
    (put role' d (put role c t)).Shuffled (put role c (put role' d t)) := by
  have hsame := Shuffled.refl (put role' d (put role c t))
  cases t with
  | leaf i l =>
    cases role <;> cases role' <;> first
      | exact hsame
      | exact .leaf ⟨rfl, rfl, .refl _, insertNew_swap hc hd l.filters⟩
      | exact .leaf ⟨rfl, rfl, insertNew_swap hc hd l.lookups, .refl _⟩
  | join i info l r =>
    have hswap : (info.conds ++ [c] ++ [d]).Perm (info.conds ++ [d] ++ [c]) := by
      rw [List.append_assoc, List.append_assoc]
      exact (List.Perm.swap d c []).append_left info.conds
    cases role <;> cases role' <;> first
      | exact hsame
      | exact .join ⟨rfl, hswap, .refl _, rfl, rfl, rfl, rfl⟩ (.refl l) (.refl r)

/-- What is put down at the root does not matter below. -/
theorem updateAt_cons_put (f : Tree → Tree) (side : Side) (path : List Side) (role : Role) (c : Expr)
    (t : Tree) : updateAt f (side :: path) (put role c t) = put role c (updateAt f (side :: path) t) := by
  cases t <;> cases role <;> cases side <;> rfl

/-- Two conditions may be put down in either order, at one node or at two. -/
theorem updateAt_swap {c d : Expr} (hc : c.Canonical) (hd : d.Canonical) (role role' : Role)
    (path path' : List Side) (t : Tree) :
    (updateAt (put role' d) path' (updateAt (put role c) path t)).Shuffled
      (updateAt (put role c) path (updateAt (put role' d) path' t)) := by
  induction path generalizing path' t with
  | nil =>
    cases path' with
    | nil => exact put_swap hc hd role role' t
    | cons side' path' => exact updateAt_cons_put _ side' path' role c t ▸ .refl _
  | cons side path ih =>
    cases path' with
    | nil => exact updateAt_cons_put _ side path role' d t ▸ .refl _
    | cons side' path' =>
      cases t with
      | leaf i l => cases side <;> cases side' <;> exact .refl _
      | join i info l r =>
        cases side <;> cases side'
        · exact .join (.refl info) (ih path' l) (.refl r)
        · exact .refl _
        · exact .refl _
        · exact .join (.refl info) (.refl l) (ih path' r)

theorem step_swap {s s' : Step} (hs : s.relabel .canonical = s) (hs' : s'.relabel .canonical = s')
    (t : Tree) : ((t.step s).step s').Shuffled ((t.step s').step s) := by
  cases s with
  | weaken c p => exact .refl _
  | put path role c =>
    cases s' with
    | weaken c' p' => exact .refl _
    | put path' role' c' =>
      have hc : c.Canonical := (Step.put.inj hs).2.2
      have hc' : c'.Canonical := (Step.put.inj hs').2.2
      exact updateAt_swap hc hc' role role' path path' t

/-! ### Pushing down -/

/-- What pushing down a list of conditions does, all ways being known beforehand. -/
theorem value_pushDownAll (own : Bool) (cs : List Expr) (t : Tree) : (pushDownAll own cs t).value =
    ((cs.flatMap fun c => (t.route c own ∅).steps).foldl step t,
      cs.filter fun c => (t.route c own ∅).remains) := by
  refine Prod.ext ?_ (remaining_pushDownAll own cs t)
  induction cs generalizing t with
  | nil => rfl
  | cons c cs ih =>
    have hways (d : Expr) : ((t.route c own ∅).steps.foldl step t).route d own ∅ = t.route d own ∅ :=
      route_of_outline (outline_foldl_step _ t) d own ∅
    simp only [value_pushDownAll_cons, ih, hways, List.flatMap_cons, List.foldl_append]

theorem outline_relabel_canonical (t : Tree) : t.outline.relabel .canonical = t.outline := by
  induction t with
  | leaf i l => rfl
  | join i info l r ihl ihr => simp [outline, relabel, JoinInfo.relabel, ihl, ihr]

/-- The way of a canonical condition has canonical steps. -/
theorem steps_canonical {c : Expr} (hc : c.Canonical) (own : Bool) (t : Tree) :
    ∀ s ∈ (t.route c own ∅).steps, s.relabel .canonical = s := by
  have hroute : (t.outline.relabel .canonical).route (c.relabel .canonical) own
      (Relabeling.canonical.set ∅) = (t.outline.route c own ∅).relabel .canonical :=
    route_relabel c own ∅ t.outline
  rw [outline_relabel_canonical, hc, Relabeling.set_empty, route_outline] at hroute
  exact map_eq_self_iff.1 (congrArg Route.steps hroute).symm

/-- Canonical conditions may be pushed down in any order. -/
theorem shuffled_pushDownAll (own : Bool) {cs cs' : List Expr} (hperm : cs.Perm cs')
    (hcs : ∀ c ∈ cs, c.Canonical) (t : Tree) :
    (pushDownAll own cs t).value.1.Shuffled (pushDownAll own cs' t).value.1 ∧
      (pushDownAll own cs t).value.2.Perm (pushDownAll own cs' t).value.2 := by
  rw [value_pushDownAll, value_pushDownAll]
  refine ⟨?_, hperm.filter _⟩
  refine foldl_perm (P := fun s => s.relabel .canonical = s) Shuffled.refl Shuffled.trans
    (fun s => step_respects s) step_swap (hperm.flatMap_right _) (fun s hs => ?_) t
  obtain ⟨c, hc, hs⟩ := List.mem_flatMap.1 hs
  exact steps_canonical (hcs c hc) own t s hs

/-! ### The passes that follow -/

/-- At a table all conditions have a final form if the lookups have. -/
theorem finishConds_leaf_iff {fin : Finisher} {i : Nat} {l : Leaf} {t : Tree} :
    (leaf i l).finishConds fin = ⟨t, none⟩ ↔
      ∃ cs, fin.applyAll l.lookups = .ok cs ∧ t = leaf i { l with lookups := cs } := by
  rw [finishConds]
  cases fin.applyAll l.lookups <;> simp [eq_comm]

/-- At a join they have one if they have it on both sides and at the join. -/
theorem finishConds_join_iff {fin : Finisher} {i : Nat} {info : JoinInfo} {l r t : Tree} :
    (join i info l r).finishConds fin = ⟨t, none⟩ ↔ ∃ l' r' cs, l.finishConds fin = ⟨l', none⟩ ∧
      r.finishConds fin = ⟨r', none⟩ ∧ fin.applyAll info.conds = .ok cs ∧
      t = join i { info with conds := cs } l' r' := by
  rw [finishConds]
  rcases l.finishConds fin with ⟨l', _ | e⟩
  · rcases r.finishConds fin with ⟨r', _ | e⟩
    · cases fin.applyAll info.conds <;> simp [eq_comm]
    · simp
  · simp

/-- If all conditions of a tree have a final form, those of the shuffled tree have. -/
theorem shuffled_finishConds {fin : Finisher} {t t' u : Tree} (h : t.Shuffled t')
    (hok : t.finishConds fin = ⟨u, none⟩) : ∃ u', t'.finishConds fin = ⟨u', none⟩ ∧ u.Shuffled u' := by
  induction h generalizing u with
  | leaf h =>
    obtain ⟨cs, hcs, rfl⟩ := finishConds_leaf_iff.1 hok
    obtain ⟨ds, hds, hperm⟩ := Finisher.applyAll_perm h.lookups hcs
    exact ⟨_, finishConds_leaf_iff.2 ⟨ds, hds, rfl⟩, .leaf { h with lookups := hperm }⟩
  | join h _ _ ihl ihr =>
    obtain ⟨l₁, r₁, cs, hl, hr, hcs, rfl⟩ := finishConds_join_iff.1 hok
    obtain ⟨l₂, hl', hleft⟩ := ihl hl
    obtain ⟨r₂, hr', hright⟩ := ihr hr
    obtain ⟨ds, hds, hperm⟩ := Finisher.applyAll_perm h.conds hcs
    exact ⟨_, finishConds_join_iff.2 ⟨l₂, r₂, ds, hl', hr', hds, rfl⟩,
      .join { h with conds := hperm } hleft hright⟩

theorem shuffled_recordUsedTables {t t' : Tree} (h : t.Shuffled t') :
    t.recordUsedTables.Shuffled t'.recordUsedTables := by
  induction h with
  | leaf h => exact .leaf h
  | join h _ _ ihl ihr => exact .join { h with usedTables_eq := Expr.tablesOf_perm h.conds } ihl ihr

theorem shuffled_divideConds {left right : TableSet} {info info' : JoinInfo} (h : info.Shuffled info') :
    (divideConds left right info).Shuffled (divideConds left right info') := by
  rw [divideConds, divideConds, h.conds.isEmpty_eq]
  split
  · exact h
  · exact { h with keys := h.conds.filter _, conds := h.conds.filter _ }

theorem shuffled_divideKeys {t t' : Tree} (h : t.Shuffled t') : t.divideKeys.Shuffled t'.divideKeys := by
  induction h with
  | leaf h => exact .leaf h
  | join h hl hr ihl ihr =>
    rw [divideKeys, divideKeys, hl.tables_eq, hr.tables_eq]
    exact .join (shuffled_divideConds h) ihl ihr

end Tree

end QueryGraph
