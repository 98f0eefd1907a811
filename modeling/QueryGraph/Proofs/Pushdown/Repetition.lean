import QueryGraph.Proofs.Pushdown.Promotions

/-!
# Conditions that are put down twice

Pushing down the conditions of all joins should not put the same condition into a list twice. The selectivity
of a join is a product over its conditions, so one that stands there twice counts twice.

## The model

Filters and lookups are put down only if they are not there yet, so their lists stay `Distinct`. Conditions of
joins are put down in any case. The joins are gone through from the root downwards, and what has been promoted
to a join is one of its own conditions when its turn comes. From there it is promoted again to what it had been
promoted to in the first place. So a condition that is promoted to two joins one below the other gets to the
lower one twice. It also gets there twice if it is there already, or if two conditions have it as a part.
`HandsDownOnce` says of the tree as it was that none of this is so.

## What is proved

* `distinct_of_ne_joinCond` — no filter and no lookup gets into a list twice.
* `Adds.handedDown_eq` — what joins hand down does not change if all that they get is promoted no further.
* `handsDownOnce_tree_iff` — whether conditions are handed down once can be told one join at a time.
* `distinct_joinConds_iff` — no join has the same condition twice just if all are handed down once.
* `pushDownJoins_distinct` — what is so of all lists.
-/

namespace QueryGraph

open BitSet

/-! ### Conditions without a not-a-number -/

namespace Expr

variable {P : Nat → Prop} {Q : Value → Prop}

theorem allLabels_conj {es : List Expr} : (conj es).AllLabels P Q ↔ ∀ e ∈ es, e.AllLabels P Q := by
  unfold conj
  split
  next e => rw [List.forall_mem_singleton]
  next => rw [AllLabels, AllLabels.list_iff]

theorem allLabels_disj {es : List Expr} : (disj es).AllLabels P Q ↔ ∀ e ∈ es, e.AllLabels P Q := by
  unfold disj
  split
  next e => rw [List.forall_mem_singleton]
  next => rw [AllLabels, AllLabels.list_iff]

/-- What a condition implies on other tables has no other labels. -/
theorem keptByParts_allLabels : KeptByParts fun c => c.AllLabels P Q := by
  intro ts c p hc h
  induction c generalizing p with
  | and args ih =>
    obtain ⟨_, parts, ⟨⟩, rfl, hparts⟩ | ⟨_, _, ⟨⟩, _⟩ | ⟨_, rfl⟩ := restrict_cases h
    · refine allLabels_conj.2 fun q hq => ?_
      obtain ⟨e, he, heq⟩ := hparts q hq
      exact ih e he (AllLabels.list_iff.1 hc e he) heq
    · exact hc
  | or args ih =>
    obtain ⟨_, _, ⟨⟩, _⟩ | ⟨_, parts, ⟨⟩, rfl, hparts⟩ | ⟨_, rfl⟩ := restrict_cases h
    · refine allLabels_disj.2 fun q hq => ?_
      obtain ⟨e, he, heq⟩ := (mem_restrict_all hparts).1 q hq
      exact ih e he (AllLabels.list_iff.1 hc e he) heq
    · exact hc
  | _ =>
    obtain ⟨_, _, ⟨⟩, _⟩ | ⟨_, _, ⟨⟩, _⟩ | ⟨_, rfl⟩ := restrict_cases h
    exact hc

/-- No not-a-number is in the condition. -/
def NanFree (c : Expr) : Prop := c.AllLabels (fun _ => True) fun v => v.isNaN = false

theorem keptByParts_nanFree : KeptByParts NanFree := keptByParts_allLabels

end Expr

/-! ### Lists of different conditions -/

/-- No two of the conditions are the same. -/
def Expr.AllDiffer (cs : List Expr) : Prop := cs.Pairwise fun c d => ¬ c.Alike d

namespace Expr.AllDiffer

theorem add {role : Role} (hrole : role ≠ .joinCond) {c : Expr} (hc : c.same c = true) {cs : List Expr}
    (h : AllDiffer cs) : AllDiffer (role.add cs c) := by
  have hinsert : AllDiffer (insertNew c cs) := by
    unfold insertNew
    split
    · exact h
    next hany =>
      refine List.pairwise_append.2 ⟨h, List.pairwise_singleton _ c, fun d hd e he halike => hany ?_⟩
      obtain rfl := List.mem_singleton.1 he
      rw [List.any_eq_true]
      obtain rfl | hsame := halike
      · exact ⟨d, hd, hc⟩
      · exact ⟨d, hd, hsame⟩
  cases role with
  | filter | lookup => exact hinsert
  | joinCond => exact absurd rfl hrole

theorem foldl_add {role : Role} (hrole : role ≠ .joinCond) {cs ds : List Expr} (h : AllDiffer cs)
    (hds : ∀ d ∈ ds, d.same d = true) : AllDiffer (ds.foldl role.add cs) := by
  induction ds generalizing cs with
  | nil => exact h
  | cons d ds ih =>
    obtain ⟨hd, hds⟩ := List.forall_mem_cons.1 hds
    exact ih (h.add hrole hd) hds

/-- A condition is not in two lists if no two conditions in them are the same. -/
theorem not_mem_both {c : Expr} {cs ds : List Expr} (h : AllDiffer (cs ++ ds)) (hc : c ∈ cs) : c ∉ ds :=
  fun hd => (List.pairwise_append.1 h).2.2 c hc c hd (.inl rfl)

end Expr.AllDiffer

namespace Tree

variable {c d : Expr} {own : Bool} {role : Role} {t t' : Tree} {path : List Side} {n : JoinNode}

/-- No list that the tree has for the role has the same condition twice. -/
def Distinct (role : Role) (t : Tree) : Prop :=
  ∀ path cs, t.listedAt? role path = some cs → Expr.AllDiffer cs

theorem distinct_tree : n.tree.Distinct role ↔
    (∀ cs, n.tree.listed? role = some cs → Expr.AllDiffer cs) ∧ ∀ s, (n.side s).Distinct role := by
  constructor
  · exact fun h => ⟨h [], fun s path cs hcs => h (s :: path) cs ((listedAt?_cons n s).trans hcs)⟩
  · rintro ⟨hroot, hsides⟩ (_ | ⟨s, path⟩) cs hcs
    · exact hroot cs hcs
    · exact hsides s path cs ((listedAt?_cons n s).symm.trans hcs)

/-- Filters and lookups are those of the tables. -/
theorem distinct_tree_of_ne_joinCond (hrole : role ≠ .joinCond) :
    n.tree.Distinct role ↔ ∀ s, (n.side s).Distinct role := by
  rw [distinct_tree]
  refine and_iff_right fun cs hcs => ?_
  cases role with
  | filter | lookup => cases hcs
  | joinCond => exact absurd rfl hrole

theorem distinct_leaf_iff {i : Nat} {l : Leaf} :
    (leaf i l).Distinct role ↔ ∀ cs, (leaf i l).listed? role = some cs → Expr.AllDiffer cs := by
  refine ⟨fun h => h [], fun h path cs hcs => ?_⟩
  cases path with
  | nil => exact h cs hcs
  | cons s path =>
    rw [listedAt?_leaf_cons] at hcs
    cases hcs

theorem distinct_joinCond_leaf (i : Nat) (l : Leaf) : (leaf i l).Distinct .joinCond :=
  distinct_leaf_iff.2 fun _ hcs => by cases hcs

theorem distinct_joinCond_tree : n.tree.Distinct .joinCond ↔
    Expr.AllDiffer n.info.conds ∧ ∀ s, (n.side s).Distinct .joinCond := by
  rw [distinct_tree]
  refine and_congr_left fun _ => ⟨fun h => h _ rfl, ?_⟩
  rintro h _ ⟨⟩
  exact h

/-! ### The conditions of one join -/

theorem arrivals_flatMap (f : Expr → List Step) (cs : List Expr) :
    arrivals role path (cs.flatMap f) = cs.flatMap fun c => arrivals role path (f c) :=
  List.filterMap_flatMap

/-- A tree with the outline of a join is a join. -/
theorem exists_join_of_outline (h : t.outline = n.tree.outline) : ∃ n' : JoinNode, t = n'.tree := by
  cases t using inductSides with
  | leaf i l => cases h
  | join n' => exact ⟨n', rfl⟩

theorem outline_side {n' : JoinNode} (h : n'.tree.outline = n.tree.outline) (s : Side) :
    (n'.side s).outline = (n.side s).outline := by
  simp only [JoinNode.tree, outline] at h
  injection h with _ _ hleft hright
  cases s
  · exact hleft
  · exact hright

/-- Putting conditions back at the root takes as many steps. -/
theorem foldl_put_eq_foldl_step (cs : List Expr) (t : Tree) :
    cs.foldl (fun t c => put .joinCond c t) t = (cs.map (Step.put [] .joinCond)).foldl step t := by
  rw [List.foldl_map]
  rfl

theorem arrivals_map_put (cs : List Expr) : arrivals .joinCond [] (cs.map (Step.put [] .joinCond)) = cs := by
  rw [arrivals, List.filterMap_map]
  exact List.filterMap_some

theorem arrivals_map_put_cons (s : Side) (cs : List Expr) :
    arrivals role (s :: path) (cs.map (Step.put [] .joinCond)) = [] := by
  rw [arrivals, List.filterMap_map, List.filterMap_eq_nil_iff]
  intro c _
  simp [Step.arrival?]

/-- What pushing down the conditions of a join makes of it: those that have to stay are its conditions, and
the lists on its sides get what arrives there. -/
theorem exists_pushOwn (n : JoinNode) : ∃ n' : JoinNode, n.tree.pushOwn.value = n'.tree ∧
    n'.tree.outline = n.tree.outline ∧
    n'.info.conds = (n.info.conds.filter fun c => (n.tree.route c true ∅).remains) ∧
    ∀ role s path, (n'.side s).listedAt? role path = ((n.side s).listedAt? role path).map fun cs =>
      (n.info.conds.flatMap fun c =>
        arrivals role (s :: path) (n.tree.route c true ∅).steps).foldl role.add cs := by
  let base : JoinNode := ⟨n.id, { n.info with conds := [] }, n.left, n.right⟩
  have hways (c : Expr) : base.tree.route c true ∅ = n.tree.route c true ∅ := rfl
  let rest := n.info.conds.filter fun c => (n.tree.route c true ∅).remains
  let steps := (n.info.conds.flatMap fun c => (n.tree.route c true ∅).steps) ++ rest.map (Step.put [] .joinCond)
  have hvalue : n.tree.pushOwn.value = steps.foldl step base.tree := by
    have hall := value_pushDownAll true n.info.conds base.tree
    simp only [hways] at hall
    rw [List.foldl_append, ← foldl_put_eq_foldl_step, JoinNode.tree, pushOwn, Reported.value_bind]
    exact congrArg (fun out : Tree × List Expr => out.2.foldl (fun t c => put .joinCond c t) out.1) hall
  have houtline : (steps.foldl step base.tree).outline = n.tree.outline := outline_foldl_step steps base.tree
  obtain ⟨n', hn'⟩ := exists_join_of_outline houtline
  have hlists (role : Role) (path : List Side) : n'.tree.listedAt? role path =
      (base.tree.listedAt? role path).map fun cs => (arrivals role path steps).foldl role.add cs :=
    hn' ▸ listedAt?_foldl_step role path steps base.tree
  refine ⟨n', hvalue.trans hn', hn' ▸ houtline, ?_, fun role s path => ?_⟩
  · have hnone : (n.info.conds.flatMap fun c => arrivals .joinCond [] (n.tree.route c true ∅).steps) = [] :=
      List.flatMap_eq_nil_iff.2 fun c _ => promotions_own_nil c n.tree
    have hroot := Option.some.inj (hlists .joinCond [])
    rw [arrivals_append, arrivals_flatMap, hnone, List.nil_append, arrivals_map_put] at hroot
    exact hroot.trans (foldl_add_joinCond [] rest)
  · have hside := hlists role (s :: path)
    rw [listedAt?_cons, listedAt?_cons, arrivals_append, arrivals_map_put_cons, List.append_nil,
      arrivals_flatMap] at hside
    cases s <;> exact hside

/-! ### Filters and lookups -/

/-- What arrives from conditions without a not-a-number is written like itself. -/
theorem same_of_mem_arrivals {cs : List Expr} (hcs : ∀ c ∈ cs, c.NanFree)
    (hd : d ∈ cs.flatMap fun c => arrivals role path (t.route c own ∅).steps) : d.same d = true := by
  obtain ⟨c, hc, hd⟩ := List.mem_flatMap.1 hd
  exact Expr.same_self (puts_route Expr.keptByParts_nanFree (hcs c hc) own ∅ t _ (mem_arrivals.1 hd))

theorem distinct_pushOwn_of_ne_joinCond (hrole : role ≠ .joinCond) (hnan : t.Carries Expr.NanFree)
    (h : t.Distinct role) : t.pushOwn.value.Distinct role := by
  cases t using inductSides with
  | leaf i l => exact h
  | join n =>
    obtain ⟨n', hvalue, -, -, hlists⟩ := exists_pushOwn n
    have hconds : ∀ c ∈ n.info.conds, c.NanFree := fun c hc => hnan.1 c (List.mem_append_right _ hc)
    rw [distinct_tree_of_ne_joinCond hrole] at h
    rw [hvalue, distinct_tree_of_ne_joinCond hrole]
    intro s path cs hcs
    rw [hlists, Option.map_eq_some_iff] at hcs
    obtain ⟨cs₀, hcs₀, rfl⟩ := hcs
    exact (h s path cs₀ hcs₀).foldl_add hrole fun d hd => same_of_mem_arrivals hconds hd

/-- **Filters and lookups are not put down twice.** -/
theorem distinct_of_ne_joinCond (hrole : role ≠ .joinCond) (hnan : t.Carries Expr.NanFree)
    (h : t.Distinct role) : t.pushDownJoins.value.Distinct role := by
  refine (pushDownJoins_induct (R := fun t t' => t.Carries Expr.NanFree ∧ t.Distinct role →
    t'.Carries Expr.NanFree ∧ t'.Distinct role) (fun t ht => ?_) ?_ t ⟨hnan, h⟩).2
  · exact ⟨carries_pushOwn Expr.keptByParts_nanFree ht.1, distinct_pushOwn_of_ne_joinCond hrole ht.1 ht.2⟩
  · intro t l l' r r' i info hroot hl hr ht
    obtain ⟨⟨hinfo, hcl, hcr⟩, hdistinct⟩ := hroot ht
    have hsides := (distinct_tree_of_ne_joinCond (n := ⟨i, info, l, r⟩) hrole).1 hdistinct
    obtain ⟨hcl', hl'⟩ := hl ⟨hcl, hsides .left⟩
    obtain ⟨hcr', hr'⟩ := hr ⟨hcr, hsides .right⟩
    exact ⟨⟨hinfo, hcl', hcr'⟩,
      (distinct_tree_of_ne_joinCond (n := ⟨i, info, l', r'⟩) hrole).2 (Side.forall_side.2 ⟨hl', hr'⟩)⟩

/-! ### What joins hand down -/

/-- The condition of the join is not promoted to two joins one of which is below the other. -/
def PromotedApart (t : Tree) (c : Expr) : Prop :=
  ∀ path rest, t.promotions c true path ≠ [] → t.promotions c true (path ++ rest) ≠ [] → rest = []

/-- What the conditions of the join are promoted to at the end of a path. -/
def handed (n : JoinNode) (path : List Side) : List Expr :=
  n.info.conds.flatMap fun c => n.tree.promotions c true path

/-- What the conditions of all joins above the end of the path are promoted to there. -/
def handedDown : List Side → Tree → List Expr
  | [], _ => []
  | _ :: _, leaf _ _ => []
  | .left :: path, join i info l r => handed ⟨i, info, l, r⟩ (.left :: path) ++ handedDown path l
  | .right :: path, join i info l r => handed ⟨i, info, l, r⟩ (.right :: path) ++ handedDown path r

theorem handedDown_cons (n : JoinNode) (s : Side) (path : List Side) :
    n.tree.handedDown (s :: path) = handed n (s :: path) ++ (n.side s).handedDown path := by
  cases s <;> rfl

/-- What joins promote to a join differs from the conditions that it has and from each other, and no condition
is promoted to two joins one below the other. -/
structure HandsDownOnce (t : Tree) : Prop where
  /-- The conditions of a join and those promoted to it are different. -/
  differ : ∀ path (n : JoinNode), t.descend? path = some n.tree →
    Expr.AllDiffer (n.info.conds ++ t.handedDown path)
  /-- Joins that a condition is promoted to are apart. -/
  apart : ∀ path (n : JoinNode), t.descend? path = some n.tree → ∀ c ∈ n.info.conds, n.tree.PromotedApart c

theorem handsDownOnce_leaf (i : Nat) (l : Leaf) : (leaf i l).HandsDownOnce := by
  have hnone {path : List Side} {n : JoinNode} : (leaf i l).descend? path ≠ some n.tree := by
    intro hn
    cases path with
    | nil => cases hn
    | cons s path => cases s <;> cases hn
  exact ⟨fun path n hn => absurd hn hnone, fun path n hn => absurd hn hnone⟩

theorem mem_handedDown {e : Expr} (h : t.descend? path = some n.tree) (hd : d ∈ n.info.conds) {rest : List Side}
    (he : e ∈ n.tree.promotions d true rest) : e ∈ t.handedDown (path ++ rest) := by
  induction path generalizing t with
  | nil =>
    cases h
    cases rest with
    | nil =>
      rw [promotions_own_nil] at he
      cases he
    | cons s rest =>
      rw [List.nil_append, handedDown_cons]
      exact List.mem_append_left _ (List.mem_flatMap.2 ⟨d, hd, he⟩)
  | cons s path ih =>
    obtain ⟨m, rfl, hm⟩ := exists_join_of_descend? h
    rw [List.cons_append, handedDown_cons]
    exact List.mem_append_right _ (ih hm)

/-- The second tree is the first with more conditions at its joins. -/
structure Adds (more : List Side → List Expr) (t t' : Tree) : Prop where
  /-- Nothing else has changed that matters to the way of a condition. -/
  outline : t'.outline = t.outline
  /-- The conditions are added after those that are there. -/
  conds : ∀ path, t'.listedAt? .joinCond path = (t.listedAt? .joinCond path).map (· ++ more path)

namespace Adds

variable {more : List Side → List Expr}

theorem root {n' : JoinNode} (h : Adds more n.tree n'.tree) : n'.info.conds = n.info.conds ++ more [] :=
  Option.some.inj (h.conds [])

theorem side {n' : JoinNode} (h : Adds more n.tree n'.tree) (s : Side) :
    Adds (fun path => more (s :: path)) (n.side s) (n'.side s) where
  outline := outline_side h.outline s
  conds := fun path => by
    rw [← listedAt?_cons, ← listedAt?_cons]
    exact h.conds (s :: path)

theorem conds_eq {n' : JoinNode} (h : Adds more t t') (hn : t.descend? path = some n.tree)
    (hn' : t'.descend? path = some n'.tree) : n'.info.conds = n.info.conds ++ more path := by
  have hconds := h.conds path
  rw [listedAt?, listedAt?, hn, hn'] at hconds
  exact Option.some.inj hconds

/-- A join of the tree is a join of the other one, with the same way for all conditions. -/
theorem descend (h : Adds more t t') (hn : t.descend? path = some n.tree) : ∃ n' : JoinNode,
    t'.descend? path = some n'.tree ∧ n'.tree.outline = n.tree.outline ∧
      n'.info.conds = n.info.conds ++ more path := by
  obtain ⟨u', hu', houtline⟩ := exists_descend?_of_outline h.outline.symm hn
  obtain ⟨n', rfl⟩ := exists_join_of_outline houtline
  exact ⟨n', hu', houtline, h.conds_eq hn hu'⟩

/-- A join of the other tree is a join of the tree. -/
theorem ascend {n' : JoinNode} (h : Adds more t t') (hn' : t'.descend? path = some n'.tree) : ∃ n : JoinNode,
    t.descend? path = some n.tree ∧ n'.tree.outline = n.tree.outline ∧
      n'.info.conds = n.info.conds ++ more path := by
  obtain ⟨u, hu, houtline⟩ := exists_descend?_of_outline h.outline hn'
  obtain ⟨n, rfl⟩ := exists_join_of_outline houtline
  exact ⟨n, hu, houtline.symm, h.conds_eq hu hn'⟩

/-- If what is added is promoted no further, the joins hand down the same. -/
theorem handedDown_eq (h : Adds more t t')
    (hidle : ∀ path (n : JoinNode), t.descend? path = some n.tree → ∀ d ∈ more path, ∀ rest,
      n.tree.promotions d true rest = []) (path : List Side) : t'.handedDown path = t.handedDown path := by
  induction path generalizing t t' more with
  | nil => rfl
  | cons s path ih =>
    cases t using inductSides with
    | leaf i l =>
      cases t' with
      | leaf i' l' => rfl
      | join i' info' l' r' => cases h.outline
    | join n =>
      obtain ⟨n', rfl⟩ := exists_join_of_outline h.outline
      have hbelow := ih (h.side s) fun path m hm => hidle (s :: path) m ((descend?_cons n s path).trans hm)
      have hmore : ((more []).flatMap fun d => n.tree.promotions d true (s :: path)) = [] :=
        List.flatMap_eq_nil_iff.2 fun d hd => hidle [] n rfl d hd (s :: path)
      have hhanded : handed n' (s :: path) = handed n (s :: path) := by
        simp only [handed, promotions_of_outline h.outline, h.root, List.flatMap_append, hmore, List.append_nil]
      rw [handedDown_cons, handedDown_cons, hhanded, hbelow]

end Adds

/-! ### One join at a time -/

/-- What a join hands down to a join below it is on both sides of that, and promoted from there to where the
first join hands it down as well. -/
theorem of_mem_handed {s : Side} {m : JoinNode} (hm : (n.side s).descend? path = some m.tree)
    (hd : d ∈ handed n (s :: path)) : ∃ c ∈ n.info.conds, d ∈ n.tree.promotions c true (s :: path) ∧
      (∀ s, ¬ d.tables ⊆ (m.side s).tables) ∧ ∀ s' rest, n.tree.promotions c true (s :: path ++ s' :: rest) =
        m.tree.promotions d true (s' :: rest) := by
  obtain ⟨c, hc, hd⟩ := List.mem_flatMap.1 hd
  obtain ⟨m', hm', hspans, hbelow⟩ := of_mem_promotions hd
  rw [descend?_cons, hm] at hm'
  cases m; cases m'; cases hm'
  exact ⟨c, hc, hd, hspans, hbelow⟩

/-- If a join promotes no condition to two joins one below the other, what it hands down is promoted no
further. -/
theorem promotions_of_mem_handed {s : Side} {m : JoinNode} (hapart : ∀ c ∈ n.info.conds, n.tree.PromotedApart c)
    (hm : (n.side s).descend? path = some m.tree) (hd : d ∈ handed n (s :: path)) (rest : List Side) :
    m.tree.promotions d true rest = [] := by
  cases rest with
  | nil => exact promotions_own_nil d m.tree
  | cons s' rest =>
    obtain ⟨c, hc, hpromoted, -, hbelow⟩ := of_mem_handed hm hd
    by_contra hne
    rw [← hbelow] at hne
    cases hapart c hc (s :: path) (s' :: rest) (List.ne_nil_of_mem hpromoted) hne

/-- If the joins on the sides hand down nothing that the root has handed down, the root promotes its conditions
to joins apart. -/
theorem promotedApart_of_sides {n' : JoinNode}
    (hadds : ∀ s, Adds (fun path => handed n (s :: path)) (n.side s) (n'.side s))
    (hdiffer : ∀ s path (m' : JoinNode), (n'.side s).descend? path = some m'.tree →
      Expr.AllDiffer (m'.info.conds ++ (n'.side s).handedDown path))
    (hc : c ∈ n.info.conds) : n.tree.PromotedApart c := by
  intro path rest hpath hrest
  cases rest with
  | nil => rfl
  | cons s' rest =>
    cases path with
    | nil => exact absurd (promotions_own_nil c n.tree) hpath
    | cons s path =>
      obtain ⟨d, hd⟩ := List.exists_mem_of_ne_nil _ hpath
      obtain ⟨e, he⟩ := List.exists_mem_of_ne_nil _ hrest
      -- the lower join gets `e` from the root, and from the join in between once more
      obtain ⟨m, hm, -, hbelow⟩ := of_mem_promotions hd
      obtain ⟨k, hk, -, -⟩ := of_mem_promotions he
      rw [descend?_cons] at hm
      rw [List.cons_append, descend?_cons] at hk
      obtain ⟨m', hm', hmout, hmconds⟩ := (hadds s).descend hm
      obtain ⟨k', hk', -, hkconds⟩ := (hadds s).descend hk
      have hfirst : e ∈ k'.info.conds :=
        hkconds ▸ List.mem_append_right _ (List.mem_flatMap.2 ⟨c, hc, he⟩)
      have hagain : e ∈ (n'.side s).handedDown (path ++ s' :: rest) := by
        refine mem_handedDown hm' (hmconds ▸ List.mem_append_right _ (List.mem_flatMap.2 ⟨c, hc, hd⟩)) ?_
        rwa [promotions_of_outline hmout, ← hbelow]
      exact absurd hagain ((hdiffer s _ k' hk').not_mem_both hfirst)

/-- Conditions of a tree are handed down once if its joins are gone through one by one: those of the root are
different and promoted to joins apart, and with what it hands down this is so on its sides. -/
theorem handsDownOnce_tree_iff {n' : JoinNode}
    (hadds : ∀ s, Adds (fun path => handed n (s :: path)) (n.side s) (n'.side s)) :
    n.tree.HandsDownOnce ↔ Expr.AllDiffer n.info.conds ∧ ∀ s, (n'.side s).HandsDownOnce := by
  constructor
  · intro h
    have hapart := h.apart [] n rfl
    have hdown (s : Side) := (hadds s).handedDown_eq fun path m hm d hd => promotions_of_mem_handed hapart hm hd
    have hroot := h.differ [] n rfl
    rw [handedDown, List.append_nil] at hroot
    refine ⟨hroot, fun s => ⟨fun path m' hm' => ?_, fun path m' hm' c hc => ?_⟩⟩
    · obtain ⟨m, hm, houtline, hconds⟩ := (hadds s).ascend hm'
      have hdiffer := h.differ (s :: path) m ((descend?_cons n s path).trans hm)
      rw [handedDown_cons] at hdiffer
      rwa [hconds, hdown, List.append_assoc]
    · obtain ⟨m, hm, houtline, hconds⟩ := (hadds s).ascend hm'
      rw [hconds] at hc
      intro q rest
      rw [promotions_of_outline houtline, promotions_of_outline houtline]
      rcases List.mem_append.1 hc with hc | hc
      · exact h.apart (s :: path) m ((descend?_cons n s path).trans hm) c hc q rest
      · intro hne
        exact absurd (promotions_of_mem_handed hapart hm hc q) hne
  · rintro ⟨hroot, hsides⟩
    have hapart : ∀ c ∈ n.info.conds, n.tree.PromotedApart c := fun c hc =>
      promotedApart_of_sides hadds (fun s => (hsides s).differ) hc
    have hdown (s : Side) := (hadds s).handedDown_eq fun path m hm d hd => promotions_of_mem_handed hapart hm hd
    refine ⟨fun path m hm => ?_, fun path m hm => ?_⟩
    · cases path with
      | nil =>
        cases n; cases m; cases hm
        rw [handedDown, List.append_nil]
        exact hroot
      | cons s path =>
        rw [descend?_cons] at hm
        obtain ⟨m', hm', houtline, hconds⟩ := (hadds s).descend hm
        have hdiffer := (hsides s).differ path m' hm'
        rwa [hconds, hdown, List.append_assoc, ← handedDown_cons] at hdiffer
    · cases path with
      | nil =>
        cases n; cases m; cases hm
        exact hapart
      | cons s path =>
        rw [descend?_cons] at hm
        obtain ⟨m', hm', houtline, hconds⟩ := (hadds s).descend hm
        intro c hc q rest
        rw [← promotions_of_outline houtline, ← promotions_of_outline houtline]
        exact (hsides s).apart path m' hm' c (hconds ▸ List.mem_append_left _ hc) q rest

/-! ### The joins of a tree -/

/-- Conditions of one join that are the same are on both of its sides. -/
def AlikeSpan (n : JoinNode) : Prop :=
  n.info.conds.Pairwise fun c d => c.Alike d → ∀ s, ¬ c.tables ⊆ (n.side s).tables

/-- Of conditions that are the same, those on both sides stay at their join. -/
theorem allDiffer_remaining_iff (h : AlikeSpan n) :
    Expr.AllDiffer (n.info.conds.filter fun c => (n.tree.route c true ∅).remains) ↔
      Expr.AllDiffer n.info.conds := by
  refine ⟨fun hrest => ?_, fun hall => hall.filter _⟩
  refine (h.and (List.pairwise_filter.1 hrest)).imp ?_
  rintro c d ⟨hspans, hdiffer⟩ halike
  have hremains {e : Expr} (he : ∀ s, ¬ e.tables ⊆ (n.side s).tables) :
      (n.tree.route e true ∅).remains = true := by
    rw [route_of_spanning he]
    rfl
  refine hdiffer (hremains (hspans halike)) (hremains ?_) halike
  rw [← halike.tables_eq]
  exact hspans halike

theorem value_pushDownJoins_tree {n' : JoinNode} (h : n.tree.pushOwn.value = n'.tree) :
    n.tree.pushDownJoins.value =
      JoinNode.tree ⟨n'.id, n'.info, n'.left.pushDownJoins.value, n'.right.pushDownJoins.value⟩ := by
  rw [value_pushDownJoins, h]
  rfl

/-- The root keeps the conditions that it has when they have been pushed down. -/
theorem listedAt?_pushDownJoins_nil (t : Tree) :
    t.pushDownJoins.value.listedAt? role [] = t.pushOwn.value.listedAt? role [] := by
  rw [value_pushDownJoins]
  cases t.pushOwn.value <;> cases role <;> rfl

/-- Below the root the conditions of the joins are pushed down afterwards. -/
theorem listedAt?_pushDownJoins_cons (t : Tree) (s : Side) : t.pushDownJoins.value.listedAt? role (s :: path) =
    (t.pushOwn.value.descend? [s]).bind fun u => u.pushDownJoins.value.listedAt? role path := by
  rw [value_pushDownJoins]
  cases t.pushOwn.value <;> cases s <;> rfl

/-- What a join gets from the join at the root may only be the same as its conditions if these are on both of
its sides. -/
theorem alikeSpan_of_adds {s : Side} {m m' : JoinNode} (h : AlikeSpan m)
    (hm : (n.side s).descend? path = some m.tree) (houtline : m'.tree.outline = m.tree.outline)
    (hconds : m'.info.conds = m.info.conds ++ handed n (s :: path)) : AlikeSpan m' := by
  have htables (s : Side) : (m'.side s).tables = (m.side s).tables :=
    tables_of_outline (outline_side houtline s)
  have hhanded {d : Expr} (hd : d ∈ handed n (s :: path)) : ∀ s, ¬ d.tables ⊆ (m.side s).tables := by
    obtain ⟨_, _, _, hspans, _⟩ := of_mem_handed hm hd
    exact hspans
  simp only [AlikeSpan, htables, hconds]
  refine List.pairwise_append.2 ⟨h, ?_, fun c _ d hd halike => ?_⟩
  · exact List.pairwise_of_forall_mem_list fun c hc d _ _ => hhanded hc
  · rw [halike.tables_eq]
    exact hhanded hd

/-- **No join gets a condition twice just if conditions are handed down once.** -/
theorem distinct_joinConds_iff (hspan : ∀ path n, t.descend? path = some n.tree → AlikeSpan n) :
    t.pushDownJoins.value.Distinct .joinCond ↔ t.HandsDownOnce := by
  induction hsize : t.size using Nat.strongRecOn generalizing t with
  | _ k ih =>
    cases t using inductSides with
    | leaf i l =>
      rw [value_pushDownJoins]
      exact iff_of_true (distinct_joinCond_leaf i l) (handsDownOnce_leaf i l)
    | join n =>
      obtain ⟨n', hvalue, houtline, hconds, hlists⟩ := exists_pushOwn n
      have hadds (s : Side) : Adds (fun path => handed n (s :: path)) (n.side s) (n'.side s) := by
        refine ⟨outline_side houtline s, fun path => ?_⟩
        simp only [hlists, foldl_add_joinCond]
        rfl
      have hbelow (s : Side) :
          (n'.side s).pushDownJoins.value.Distinct .joinCond ↔ (n'.side s).HandsDownOnce := by
        refine ih _ ?_ (fun path m' hm' => ?_) rfl
        · have hroot := size_pushOwn n.tree
          rw [hvalue, hsize, JoinNode.tree, size] at hroot
          cases s <;> simp only [JoinNode.side] <;> omega
        · obtain ⟨m, hm, hmout, hmconds⟩ := (hadds s).ascend hm'
          exact alikeSpan_of_adds (hspan (s :: path) m ((descend?_cons n s path).trans hm)) hm hmout hmconds
      rw [value_pushDownJoins_tree hvalue, handsDownOnce_tree_iff hadds, distinct_joinCond_tree]
      refine and_congr ?_ ?_
      · rw [hconds]
        exact allDiffer_remaining_iff (hspan [] n rfl)
      · rw [Side.forall_side, Side.forall_side]
        exact and_congr (hbelow .left) (hbelow .right)

theorem distinct_joinCond_iff : t.Distinct .joinCond ↔ ∀ n ∈ t.joins, Expr.AllDiffer n.info.conds := by
  induction t using inductSides with
  | leaf i l => exact iff_of_true (distinct_joinCond_leaf i l) nofun
  | join n ih =>
    simp only [distinct_joinCond_tree, mem_joins_tree, forall_eq_or_imp, ih]
    exact and_congr_right fun _ => ⟨fun h a ⟨s, ha⟩ => h s a ha, fun h s a ha => h a ⟨s, ha⟩⟩

theorem distinct_leaves_iff : t.Distinct .filter ∧ t.Distinct .lookup ↔
    ∀ x ∈ t.leaves, Expr.AllDiffer x.2.filters ∧ Expr.AllDiffer x.2.lookups := by
  induction t using inductSides with
  | leaf i l => simp [distinct_leaf_iff, listed?, leaves]
  | join n ih =>
    rw [distinct_tree_of_ne_joinCond (by decide), distinct_tree_of_ne_joinCond (by decide), Side.forall_side,
      Side.forall_side, and_and_and_comm, JoinNode.tree, leaves, List.forall_mem_append]
    exact and_congr (ih .left) (ih .right)

/-- **Which conditions are put down twice.** If no list has a condition twice beforehand, no list of filters or
of lookups has one twice afterwards. No list of join conditions has just if what joins promote to a join
differs from the conditions that it has and from each other, and nothing is promoted to two joins one below
the other. -/
theorem pushDownJoins_distinct (t : Tree) (hnan : t.Carries Expr.NanFree)
    (hleaves : ∀ x ∈ t.leaves, Expr.AllDiffer x.2.filters ∧ Expr.AllDiffer x.2.lookups)
    (hjoins : ∀ n ∈ t.joins, Expr.AllDiffer n.info.conds) :
    (∀ x ∈ t.pushDownJoins.value.leaves, Expr.AllDiffer x.2.filters ∧ Expr.AllDiffer x.2.lookups) ∧
      ((∀ n ∈ t.pushDownJoins.value.joins, Expr.AllDiffer n.info.conds) ↔ t.HandsDownOnce) := by
  obtain ⟨hfilters, hlookups⟩ := distinct_leaves_iff.2 hleaves
  rw [← distinct_leaves_iff, ← distinct_joinCond_iff]
  refine ⟨⟨distinct_of_ne_joinCond nofun hnan hfilters, distinct_of_ne_joinCond nofun hnan hlookups⟩,
    distinct_joinConds_iff fun path n hn => ?_⟩
  have hconds : Expr.AllDiffer n.info.conds := by
    refine distinct_joinCond_iff.2 hjoins path _ ?_
    rw [listedAt?, hn]
    rfl
  exact hconds.imp fun hdiffer halike => absurd halike hdiffer

/-- `t0 ⟕ (t1 ⋈ t2)` on `t1.x = t2.x`. -/
def hoisted : Tree :=
  let table (i : Nat) : Tree := .leaf i { table := ⟨i, "t"⟩ }
  .join 4 { kind := .left, conds := [(Dialect.sampleColumn 1).equals (Dialect.sampleColumn 2)] } (table 0)
    (.join 3 { kind := .inner, conds := [] } (table 1) (table 2))

theorem pushDownJoins_distinct_hoisted : hoisted.Carries Expr.NanFree ∧
    (∀ x ∈ hoisted.leaves, Expr.AllDiffer x.2.filters ∧ Expr.AllDiffer x.2.lookups) ∧
    (∀ n ∈ hoisted.joins, Expr.AllDiffer n.info.conds) ∧
    (∀ x ∈ hoisted.pushDownJoins.value.leaves, Expr.AllDiffer x.2.filters ∧ Expr.AllDiffer x.2.lookups) ∧
    ((∀ n ∈ hoisted.pushDownJoins.value.joins, Expr.AllDiffer n.info.conds) ↔ hoisted.HandsDownOnce) := by
  have hnan : hoisted.Carries Expr.NanFree := by
    simp [hoisted, Carries, JoinInfo.allConds, Expr.NanFree, Expr.AllLabels, Expr.equals, Dialect.sampleColumn]
  have hleaves : ∀ x ∈ hoisted.leaves, Expr.AllDiffer x.2.filters ∧ Expr.AllDiffer x.2.lookups := by
    simp [hoisted, leaves, Expr.AllDiffer]
  have hjoins : ∀ n ∈ hoisted.joins, Expr.AllDiffer n.info.conds := by
    simp [hoisted, joins, Expr.AllDiffer]
  exact ⟨hnan, hleaves, hjoins, pushDownJoins_distinct hoisted hnan hleaves hjoins⟩

/-- The condition `t0.x = t1.x or t0.x < t1.x`. -/
def cascadePart : Expr :=
  .or [(Dialect.sampleColumn 0).equals (Dialect.sampleColumn 1),
    .compare .lt (Dialect.sampleColumn 0) (Dialect.sampleColumn 1)]

/-- The condition `(t0.x = t1.x and t2.x = 1) or (t0.x < t1.x and t2.x = 2)`. -/
def cascadeCond : Expr :=
  .or [
    .and [(Dialect.sampleColumn 0).equals (Dialect.sampleColumn 1),
      (Dialect.sampleColumn 2).equals (.literal (.int 1))],
    .and [.compare .lt (Dialect.sampleColumn 0) (Dialect.sampleColumn 1),
      (Dialect.sampleColumn 2).equals (.literal (.int 2))]]

/-- `t3 ⟕ ((t0 ⋈ t1) ⋈ t2)` on a condition that is promoted to the upper inner join, with a part that is
promoted to the lower one. -/
def cascade : Tree :=
  let table (i : Nat) : Tree := .leaf i { table := ⟨i, "t"⟩ }
  .join 6 { kind := .left, conds := [cascadeCond] } (table 3)
    (.join 5 { kind := .inner, conds := [] }
      (.join 4 { kind := .inner, conds := [] } (table 0) (table 1)) (table 2))

/-- The part gets to the lower inner join from the left join, and from the upper inner join once more. -/
theorem pushDownJoins_repeats : cascade.Separate ∧ cascade.Carries Expr.NanFree ∧
    (∀ x ∈ cascade.leaves, x.2.filters = [] ∧ x.2.lookups = []) ∧
    (cascade.joins.flatMap fun n => n.info.allConds) = [cascadeCond] ∧ cascadeCond.tables ⊆ cascade.tables ∧
    ¬ ∀ n ∈ cascade.pushDownJoins.value.joins, Expr.AllDiffer n.info.conds := by
  refine ⟨by decide, ?_, ?_, rfl, by decide, ?_⟩
  · simp [cascade, cascadeCond, Carries, JoinInfo.allConds, Expr.NanFree, Expr.AllLabels, Expr.equals,
      Dialect.sampleColumn, Value.isNaN]
  · simp [cascade, leaves]
  · rw [← distinct_joinCond_iff]
    intro h
    have hconds : cascade.pushDownJoins.value.listedAt? .joinCond [.right, .left] =
        some [cascadePart, cascadePart] := by
      simp only [listedAt?_pushDownJoins_cons, listedAt?_pushDownJoins_nil]
      rfl
    have hdiffer := h _ _ hconds
    simp [Expr.AllDiffer, Expr.Alike] at hdiffer

end Tree

end QueryGraph
