import QueryGraph.Proofs.Passes.Carried

/-!
# What pushing a condition down adds

A step puts a condition at the end of one list of one node, or changes nothing.

## The model

What a tree has become is told node by node (`GrownBy`): the lists of filters, of lookups and of join
conditions have what they had and then some more, and nothing else has changed. Of the filters and the join
conditions that a node has got it is said which ones these may be, by the path to the node. Lookups only tell
what could be done, so nothing is said of them.

## What is proved

* `grownBy_put`, `grownBy_updateAt` — one step.
* `grownBy_foldl_step` — a list of steps.
* `grownBy_copied` — copies of a condition on a side of a join are conditions on that side.
-/

namespace QueryGraph

open BitSet

/-! ### Lists that grow -/

/-- The second list is the first with some conditions added at its end, all of which have the property. -/
def Gains (p : Expr → Prop) (cs cs' : List Expr) : Prop := ∃ ds, cs' = cs ++ ds ∧ ∀ d ∈ ds, p d

namespace Gains

variable {p q : Expr → Prop} {cs cs' cs'' : List Expr}

theorem refl (cs : List Expr) : Gains p cs cs := ⟨[], (List.append_nil cs).symm, nofun⟩

theorem trans (h : Gains p cs cs') (h' : Gains p cs' cs'') : Gains p cs cs'' := by
  obtain ⟨ds, rfl, hds⟩ := h
  obtain ⟨es, rfl, hes⟩ := h'
  exact ⟨ds ++ es, List.append_assoc cs ds es, List.forall_mem_append.2 ⟨hds, hes⟩⟩

theorem mono (h : Gains p cs cs') (hpq : ∀ d, p d → q d) : Gains q cs cs' := by
  obtain ⟨ds, rfl, hds⟩ := h
  exact ⟨ds, rfl, fun d hd => hpq d (hds d hd)⟩

theorem append {c : Expr} (hc : p c) (cs : List Expr) : Gains p cs (cs ++ [c]) :=
  ⟨[c], rfl, List.forall_mem_singleton.2 hc⟩

theorem insertNew {c : Expr} (hc : p c) (cs : List Expr) : Gains p cs (insertNew c cs) := by
  unfold QueryGraph.insertNew
  split
  · exact .refl cs
  · exact .append hc cs

end Gains

namespace Tree

/-! ### Trees that grow -/

/-- The second tree is the first with some conditions added at the ends of the lists of its nodes. Filters
and join conditions are only those that the property allows at the end of the path to the node. -/
inductive GrownBy : (List Side → Expr → Prop) → Tree → Tree → Prop
  /-- A table may have got filters and lookups. -/
  | leaf {P : List Side → Expr → Prop} {i : Nat} {l : Leaf} {filters lookups : List Expr}
    (hfilters : Gains (P []) l.filters filters) (hlookups : l.lookups <+: lookups) :
    GrownBy P (leaf i l) (leaf i { l with filters := filters, lookups := lookups })
  /-- A join may have got conditions, and its sides may have grown. -/
  | join {P : List Side → Expr → Prop} {i : Nat} {info : JoinInfo} {conds : List Expr} {l l' r r' : Tree}
    (hconds : Gains (P []) info.conds conds) (hl : GrownBy (fun path => P (.left :: path)) l l')
    (hr : GrownBy (fun path => P (.right :: path)) r r') :
    GrownBy P (join i info l r) (join i { info with conds := conds } l' r')

variable {P Q : List Side → Expr → Prop}

namespace GrownBy

theorem refl (t : Tree) : GrownBy P t t := by
  induction t generalizing P with
  | leaf i l => exact .leaf (.refl l.filters) List.prefix_rfl
  | join i info l r ihl ihr => exact .join (.refl info.conds) ihl ihr

theorem trans {t t' t'' : Tree} (h : GrownBy P t t') (h' : GrownBy P t' t'') : GrownBy P t t'' := by
  induction h generalizing t'' with
  | leaf hfilters hlookups =>
    cases h' with
    | leaf hfilters' hlookups' => exact .leaf (hfilters.trans hfilters') (hlookups.trans hlookups')
  | join hconds _ _ ihl ihr =>
    cases h' with
    | join hconds' hl' hr' => exact .join (hconds.trans hconds') (ihl hl') (ihr hr')

theorem mono {t t' : Tree} (h : GrownBy P t t') (hPQ : ∀ path d, P path d → Q path d) :
    GrownBy Q t t' := by
  induction h generalizing Q with
  | leaf hfilters hlookups => exact .leaf (hfilters.mono (hPQ [])) hlookups
  | join hconds _ _ ihl ihr =>
    exact .join (hconds.mono (hPQ [])) (ihl fun path => hPQ (.left :: path))
      (ihr fun path => hPQ (.right :: path))

end GrownBy

/-! ### Steps -/

theorem grownBy_put {role : Role} {c : Expr} (h : role ≠ .lookup → P [] c) (t : Tree) :
    GrownBy P t (put role c t) := by
  cases t with
  | leaf i l =>
    cases role with
    | filter => exact .leaf (.insertNew (h nofun) l.filters) List.prefix_rfl
    | lookup =>
      obtain ⟨ds, heq, -⟩ : Gains (fun _ => True) l.lookups (insertNew c l.lookups) :=
        .insertNew trivial l.lookups
      exact .leaf (.refl l.filters) ⟨ds, heq.symm⟩
    | joinCond => exact .refl _
  | join i info l r =>
    cases role with
    | joinCond => exact .join (.append (h nofun) info.conds) (.refl l) (.refl r)
    | filter | lookup => exact .refl _

/-- A tree grows by what the node at the end of a path grows by. -/
theorem grownBy_updateAt {f : Tree → Tree} {path : List Side} {t : Tree}
    (hf : ∀ u, t.descend? path = some u → GrownBy (fun q => P (path ++ q)) u (f u)) :
    GrownBy P t (t.updateAt f path) := by
  induction path generalizing t P with
  | nil => exact hf t rfl
  | cons side path ih =>
    cases t with
    | leaf i l => cases side <;> exact .refl _
    | join i info l r =>
      cases side with
      | left => exact .join (.refl info.conds) (ih hf) (.refl r)
      | right => exact .join (.refl info.conds) (.refl l) (ih hf)

variable {p : Expr → Prop}

theorem grownBy_step {s : Step} (hs : s.IsLookup ∨ s.Puts p) (t : Tree) :
    GrownBy (fun _ => p) t (t.step s) := by
  cases s with
  | weaken c part => exact .refl t
  | put path role c =>
    exact grownBy_updateAt fun u _ => grownBy_put (fun hrole => hs.resolve_left hrole) u

/-- By a list of steps the tree gets lookups, and of filters and join conditions what the steps put down. -/
theorem grownBy_foldl_step {steps : List Step} (hsteps : ∀ s ∈ steps, s.IsLookup ∨ s.Puts p) (t : Tree) :
    GrownBy (fun _ => p) t (steps.foldl step t) := by
  induction steps generalizing t with
  | nil => exact .refl t
  | cons s steps ih =>
    obtain ⟨hs, hsteps⟩ := List.forall_mem_cons.1 hsteps
    exact (grownBy_step hs t).trans (ih hsteps (t.step s))

/-! ### Copies -/

theorem keptByParts_tables_subset (ts : TableSet) : Expr.KeptByParts fun d => d.tables ⊆ ts :=
  fun h hpart => Subset.trans (Expr.tables_restrict_subset hpart) h

/-- What a condition leaves as filters and join conditions on a side of a join where it stops, reads the
tables of that side alone. -/
theorem grownBy_copied (c : Expr) (isOpen : Bool) (t other : Tree) :
    GrownBy (fun _ d => d.tables ⊆ t.tables) t (copied c isOpen t other) := by
  have hpart : GrownBy (fun _ d => d.tables ⊆ t.tables) t (t.withPart c) := by
    rw [withPart]
    split
    next part hpart =>
      have hputs := puts_route (keptByParts_tables_subset t.tables)
        (Expr.tables_subset_of_restrict hpart) false ∅ t
      exact grownBy_foldl_step (fun s hs => .inr (hputs s hs)) t
    next => exact .refl t
  have hlookups : ∀ s ∈ (t.route c false (lookupParams c ∅ other.tables)).steps, s.IsLookup :=
    isLookup_route (lookupParams_ne_empty c (.inr other.tables_ne_empty)) t
  unfold copied
  split
  · exact hpart.trans (grownBy_foldl_step (fun s hs => .inl (hlookups s hs)) _)
  · exact .refl t

end Tree

end QueryGraph
