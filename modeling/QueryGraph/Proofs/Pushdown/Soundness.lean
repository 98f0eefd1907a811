import QueryGraph.Proofs.Pushdown.Joins

/-!
# Pushing conditions down changes no result

The conditions of the joins are pushed down first, then those of WHERE. The tree that comes out,
filtered by the conditions that are left for WHERE, returns what the tree that went in returns when
it is filtered by all of them.

## What is proved

* `pushable` — pushing one filter into a tree is right, by induction on the tree.
* `unchanged_pushOwn`, `unchanged_pushDownJoins` — pushing down the conditions of joins changes no
  rows.
* `rows_pushDownAll` — neither does pushing down the conditions of WHERE, together with those that
  are left.
* `pushdown_keeps_rows` — the two stages together.

Each statement is about all meanings of conditions that treat alike what is written alike, and about
all contents of the tables.
-/

namespace QueryGraph

open BitSet

variable {R : Type} {m : Meaning R}

/-- A condition that is added to a list unless it is there holds with the list. -/
theorem Meaning.holdsAll_insertNew (hm : m.RespectsSame) (c : Expr) (cs : List Expr) (a : Row R) :
    m.holdsAll (insertNew c cs) a = (m.holdsAll cs a && m.holds c a) := by
  unfold insertNew
  split
  next hany =>
    obtain ⟨d, hd, hsame⟩ := List.any_eq_true.1 hany
    by_cases hcs : m.holdsAll cs a = true
    · have hc : m.holds c a = true := by
        rw [m.holds_iff, ← m.truth_same hm hsame, ← m.holds_iff]
        exact m.holdsAll_iff.1 hcs d hd
      rw [hcs, hc, Bool.and_true]
    · rw [Bool.eq_false_iff.2 hcs, Bool.false_and]
  next =>
    rw [m.holdsAll_append, m.holdsAll_cons]
    exact congrArg _ (Bool.and_true _)

namespace Tree

/-- A filter put down at a table filters its rows. -/
theorem rows_put_filter (hm : m.RespectsSame) (db : Contents R) (c : Expr) (i : Nat) (l : Leaf) :
    (put .filter c (leaf i l)).rows m db =
      ((leaf i l).rows m db).filter fun a => m.holds c a := by
  rw [put, rows, rows, Multiset.filter_filter]
  refine Multiset.filter_congr fun a _ => ?_
  rw [m.holdsAll_insertNew hm, Bool.and_eq_true, and_comm]

/-- Pushing one filter into a tree is right. -/
theorem pushable (hm : m.RespectsSame) (db : Contents R) {t : Tree} (hsep : t.Separate) :
    t.Pushable m db := by
  induction t with
  | leaf i l =>
    intro c _
    have hrows := rows_put_filter hm db c i l
    refine ⟨⟨rfl, rfl, fun h => h, fun h => h⟩, ?_, fun _ => hrows⟩
    exact (congrArg _ hrows).trans (by rw [Multiset.filter_filter]; simp only [and_self])
  | join i info l r ihl ihr =>
    intro c hc
    have hdisjoint := not_mem_of_separate hsep
    obtain ⟨l', r', hforml, hformr, hkept, ⟨htree, hgone⟩ | ⟨-, hkind, -, htree⟩⟩ :=
      route_join_cases false i info (ihl hsep.2.1) (ihr hsep.2.2) hdisjoint hc
    · rw [htree]
      exact ⟨hforml.sides hformr, hkept _, fun h => hgone h _⟩
    · have hrows : (join i { info with conds := info.conds ++ [c] } l' r').rows m db =
          ((join i info l r).rows m db).filter fun a => m.holds c a := by
        have hconds : m.holdsAll ({ info with conds := info.conds ++ [c] } : JoinInfo).allConds =
            fun a => m.holdsAll info.allConds a && m.holds c a := by
          funext a
          rw [JoinInfo.allConds, ← List.append_assoc, m.holdsAll_append, m.holdsAll_cons]
          exact congrArg _ (Bool.and_true _)
        have hinner := hkept (m.holdsAll info.allConds)
        rw [hkind, JoinKind.rowsWith_inner] at hinner
        rw [rows, rows, hconds, hkind, hinner]
        rfl
      rw [htree]
      refine ⟨hforml.join hformr rfl fun d hd => ?_, ?_, fun _ => hrows⟩
      · rw [JoinInfo.allConds, ← List.append_assoc, List.mem_append, List.mem_singleton] at hd
        rcases hd with hd | rfl
        · exact .inl hd
        · exact .inr (Subset.trans hc (JoinKind.scope_subset _ _ _))
      · rw [hrows, Multiset.filter_filter]
        simp only [and_self]

/-! ### The conditions of the joins -/

/-- Pushing down the conditions of a join, with others that stay there. -/
theorem pushDownAll_own (hm : m.RespectsSame) (db : Contents R) (i : Nat) (info : JoinInfo)
    (cs : List Expr) {l r : Tree} (hl : l.Separate) (hr : r.Separate) (hsep : ∀ j ∈ l.tables, j ∉ r.tables)
    (hc : ∀ c ∈ cs, c.tables ⊆ l.visible ∪ r.visible) :
    ∃ l' r', (pushDownAll true cs (join i info l r)).value.1 = join i info l' r' ∧
      SameForm l l' ∧ SameForm r r' ∧
      (∀ c ∈ (pushDownAll true cs (join i info l r)).value.2, c ∈ cs) ∧
      ∀ p : Row R → Bool,
        info.kind.rows
            (fun a => p a && m.holdsAll (pushDownAll true cs (join i info l r)).value.2 a)
            (l'.rows m db) (r'.rows m db) =
          info.kind.rows (fun a => p a && m.holdsAll cs a) (l.rows m db) (r.rows m db) := by
  induction cs generalizing l r with
  | nil => exact ⟨l, r, rfl, .refl l, .refl r, fun _ h => h, fun _ => rfl⟩
  | cons c cs ih =>
    obtain ⟨l₁, r₁, hforml, hformr, hkept, ⟨htree, hgone⟩ | ⟨hown, -⟩⟩ :=
      route_join_cases true i info (pushable hm db hl) (pushable hm db hr) hsep
        (hc c List.mem_cons_self)
    · obtain ⟨l', r', htree', hforml', hformr', hmem, hrows⟩ :=
        ih (hforml.separate hl) (hformr.separate hr)
          (by rw [hforml.tables, hformr.tables]; exact hsep)
          (by rw [hforml.visible, hformr.visible]
              exact fun d hd => hc d (List.mem_cons_of_mem c hd))
      rw [value_pushDownAll_cons, htree]
      refine ⟨l', r', htree', hforml.trans hforml', hformr.trans hformr', ?_, fun p => ?_⟩
      · intro d hd
        dsimp only at hd
        split_ifs at hd
        · exact (List.mem_cons.1 hd).elim (fun h => h ▸ List.mem_cons_self) fun h =>
            List.mem_cons_of_mem c (hmem d h)
        · exact List.mem_cons_of_mem c (hmem d hd)
      · dsimp only
        have hswap (ds : List Expr) : (fun a => (p a && m.holds c a) && m.holdsAll ds a) =
            fun a => (p a && m.holdsAll ds a) && m.holds c a :=
          funext fun a => Bool.and_right_comm _ _ _
        have hcons (ds : List Expr) : (fun a => p a && m.holdsAll (c :: ds) a) =
            fun a => (p a && m.holdsAll ds a) && m.holds c a := by
          funext a
          rw [m.holdsAll_cons, Bool.and_comm (m.holds c a), Bool.and_assoc]
        rw [hcons]
        split_ifs with hremains
        · rw [hcons, ← hswap, hrows, hswap]
          exact hkept _
        · rw [hrows]
          exact hgone (Bool.eq_false_iff.2 hremains) _
    · cases hown

theorem foldl_put_joinCond (cs : List Expr) (i : Nat) (info : JoinInfo) (l r : Tree) :
    cs.foldl (fun t c => put .joinCond c t) (join i info l r) =
      join i { info with conds := info.conds ++ cs } l r := by
  induction cs generalizing info with
  | nil => rw [List.foldl_nil, List.append_nil]
  | cons c cs ih =>
    rw [List.foldl_cons, put, ih]
    simp only [List.append_assoc, List.singleton_append]

/-- Pushing down the conditions of the join at the root changes no rows. -/
theorem unchanged_pushOwn (hm : m.RespectsSame) (db : Contents R) {t : Tree} (hsep : t.Separate)
    (hscope : t.Scoped) :
    Unchanged m db t t.pushOwn.value := by
  cases t with
  | leaf i l => exact .refl _
  | join i info l r =>
    obtain ⟨l', r', htree, hforml, hformr, hmem, hrows⟩ :=
      pushDownAll_own hm db i { info with conds := [] } info.conds hsep.2.1 hsep.2.2
        (not_mem_of_separate hsep) fun c hc => hscope.1 c (List.mem_append_right info.keys hc)
    have hvalue : (pushOwn (join i info l r)).value = join i { info with
        conds := (pushDownAll true info.conds (join i { info with conds := [] } l r)).value.2 }
          l' r' := by
      rw [pushOwn, Reported.value_bind]
      show List.foldl _ (pushDownAll true info.conds _).value.1 _ = _
      rw [htree, foldl_put_joinCond]
      rfl
    rw [hvalue]
    refine ⟨hforml.join hformr rfl fun c hc => .inl ?_, ?_⟩
    · rcases List.mem_append.1 hc with hc | hc
      · exact List.mem_append_left _ hc
      · exact List.mem_append_right _ (hmem c hc)
    · have happend (cs : List Expr) : m.holdsAll ({ info with conds := cs } : JoinInfo).allConds =
          fun a => m.holdsAll info.keys a && m.holdsAll cs a :=
        funext fun a => m.holdsAll_append info.keys cs a
      rw [rows, rows, happend, happend info.conds]
      exact hrows (m.holdsAll info.keys)

/-- Pushing down the conditions of all joins changes no rows. -/
theorem unchanged_pushDownJoins (hm : m.RespectsSame) (db : Contents R) {t : Tree}
    (hsep : t.Separate) (hscope : t.Scoped) : Unchanged m db t t.pushDownJoins.value := by
  induction hsize : t.size using Nat.strongRecOn generalizing t with
  | _ n ih =>
    have hown := unchanged_pushOwn hm db hsep hscope
    have hown_size := size_pushOwn t
    rw [pushDownJoins]
    split
    next i l hvalue => exact hown
    next i info l r hvalue =>
      rw [hvalue] at hown hown_size
      obtain ⟨-, hsepl, hsepr⟩ := hown.separate hsep
      obtain ⟨-, hscopel, hscoper⟩ := hown.inScope hscope
      rw [size] at hown_size
      exact hown.trans ((ih l.size (by omega) hsepl hscopel rfl).sides
        (ih r.size (by omega) hsepr hscoper rfl))

/-! ### The conditions of WHERE -/

/-- Pushing down filters changes no rows, together with those that are left. -/
theorem rows_pushDownAll (hm : m.RespectsSame) (db : Contents R) (cs : List Expr) {t : Tree}
    (hsep : t.Separate) (hc : ∀ c ∈ cs, c.tables ⊆ t.visible) :
    (((pushDownAll false cs t).value.1.rows m db).filter fun a =>
        m.holdsAll (pushDownAll false cs t).value.2 a) =
      (t.rows m db).filter fun a => m.holdsAll cs a := by
  induction cs generalizing t with
  | nil => rfl
  | cons c cs ih =>
    have hpushed := pushable hm db hsep c (hc c List.mem_cons_self)
    have hrest := ih (hpushed.separate hsep) fun d hd =>
      hpushed.visible ▸ hc d (List.mem_cons_of_mem c hd)
    have hcons (ds : List Expr) (b : Bag R) : (b.filter fun a => m.holdsAll (c :: ds) a) =
        (b.filter fun a => m.holdsAll ds a).filter fun a => m.holds c a := by
      rw [Multiset.filter_filter]
      exact Multiset.filter_congr fun a _ => by rw [m.holdsAll_cons, Bool.and_eq_true]
    rw [value_pushDownAll_cons, hcons]
    dsimp only
    split_ifs with hremains
    · rw [hcons, hrest, Multiset.filter_comm, hpushed.filtered, Multiset.filter_comm]
    · rw [hrest, hpushed.gone (Bool.eq_false_iff.2 hremains), Multiset.filter_comm]

/-- **Pushing down changes no result.** For every tree over separate tables whose join conditions
read what is visible of the sides, and for all filters on what is visible of the tree: when first the
join conditions are pushed down and then the filters, the new tree returns the same rows as the old
one, if each is filtered by the conditions that it leaves. -/
theorem pushdown_keeps_rows (m : Meaning R) (hm : m.RespectsSame) (db : Contents R) (t : Tree)
    (conds : List Expr) (hsep : t.Separate) (hscope : t.Scoped)
    (hconds : ∀ c ∈ conds, c.tables ⊆ t.visible) :
    let pushed := (t.pushDownJoins.value.pushDownAll false conds).value
    ((pushed.1.rows m db).filter fun a => m.holdsAll pushed.2 a) =
      (t.rows m db).filter fun a => m.holdsAll conds a := by
  have hjoins := unchanged_pushDownJoins hm db hsep hscope
  have hall := rows_pushDownAll hm db conds (hjoins.separate hsep)
    fun c hc => hjoins.visible ▸ hconds c hc
  rw [hjoins.rows] at hall
  exact hall

end Tree

namespace Meaning

/-- The column that the condition tests for NULL, if it does nothing else. -/
def nullTest? : Expr → Option Column
  | .isNull e => e.column?
  | _ => none

/-- Conditions that are written alike test the same columns. -/
theorem nullTest?_same {e e' : Expr} (h : e.same e' = true) : nullTest? e = nullTest? e' := by
  have hcolumn {f f' : Expr} (h : f.same f' = true) : f.column? = f'.column? := by
    cases f <;> cases f' <;> first
      | rfl
      | exact congrArg some (of_decide_eq_true h)
      | cases h
  cases e <;> cases e' <;> first
    | rfl
    | exact hcolumn h
    | cases h

/-- The meaning that knows no more than which tables a row takes from: it tells whether a column is
NULL, and nothing else. -/
def presence : Meaning R where
  atom e a := (nullTest? e).map fun c => (a (c.table % 64)).isNone
  atom_congr e a b h := by
    cases htest : nullTest? e with
    | none => rfl
    | some c =>
      have htables : e.tables = {c.table % 64} := by
        cases e with
        | isNull f => cases f <;> cases htest; exact (singleton_mod _).symm
        | _ => cases htest
      have hmem : c.table % 64 ∈ e.tables :=
        htables ▸ (mem_singleton (Nat.mod_lt _ (by decide))).2 rfl
      simp only [Option.map_some, h _ hmem]

end Meaning

namespace Tree

/-- `(t0 ⟕ t1) ⋉ t2`. The semijoin reads `t1` in one of its conditions, and `t0` and `t2` in the
other. -/
def visits : Tree :=
  let table (i : Nat) : Tree := leaf i { table := ⟨i, "t"⟩ }
  let isNull (i : Nat) : Expr := .isNull (.column ⟨i, "t", "x", .int⟩)
  join 4 { kind := .semi, conds := [.or [isNull 0, isNull 2], isNull 1] }
    (join 3 { kind := .left, conds := [isNull 1] } (table 0) (table 1)) (table 2)

/-- The conditions for `visits`: one on `t0`, one on both tables that are visible. -/
def visitConds : List Expr :=
  let isNull (i : Nat) : Expr := .isNull (.column ⟨i, "t", "x", .int⟩)
  [.not (isNull 0), .and [.not (isNull 0), isNull 1]]

theorem pushdown_keeps_rows_visits :
    let m : Meaning Nat := .presence
    let db : Contents Nat := fun i => {i}
    let pushed := (visits.pushDownJoins.value.pushDownAll false visitConds).value
    m.RespectsSame ∧ visits.Separate ∧ visits.Scoped ∧
      (∀ c ∈ visitConds, c.tables ⊆ visits.visible) ∧
      ((pushed.1.rows m db).filter fun a => m.holdsAll pushed.2 a) =
        (visits.rows m db).filter fun a => m.holdsAll visitConds a := by
  intro m db pushed
  have hm : m.RespectsSame := fun e e' h =>
    funext fun a => congrArg (Option.map _) (Meaning.nullTest?_same h)
  have hsep : visits.Separate := by decide
  have hscope : visits.Scoped := by decide
  have hconds : ∀ c ∈ visitConds, c.tables ⊆ visits.visible := by decide
  exact ⟨hm, hsep, hscope, hconds, pushdown_keeps_rows m hm db visits visitConds hsep hscope hconds⟩

/-- The first condition goes to its table, and the other one has to stay. -/
example : (visits.pushDownJoins.value.pushDownAll false visitConds).value.2.length = 1 := by
  decide +kernel

end Tree

end QueryGraph
