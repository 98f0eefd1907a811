import Mathlib.Logic.Relation
import Mathlib.Tactic.SplitIfs
import QueryGraph.BitSet.Lemmas
import QueryGraph.Hypergraph

/-!
# What the nodes know of the edges

A hypergraph keeps its edges twice: in the list of all edges, and with every node the places of those
that start there. The second is made on the way, edge by edge, and never compared with the first.

## The model

A graph grows by single nodes and by edges whose ends are sets of nodes that are there (`Grows`). What a
node knows is compared with the list of edges (`Describes`), for one node at a time. So the loops that an
edge starts over the bits of its ends are first told by what they do to one node (`Adjacency.attach`): an
edge that is added is one more entry of the list, and its other direction is another one.

## What is proved

* `nodes_addEdge` — an edge reaches the nodes where it starts in one of its directions, and no others.
* `Describes.attach` — a node that knows the edges so far knows them with one more edge.
* `Consistent.step` — one more node or edge keeps the graph consistent.
* `adjacency_consistent` — every graph that has grown from nothing is consistent. So neighbors are
  neighbors of each other, and no node is one of its own.
-/

namespace QueryGraph

open BitSet Relation

namespace Hyperedge

variable {e : Hyperedge} {v : Nat}

/-- The left end is the one node `v`. -/
def StartsAt (e : Hyperedge) (v : Nat) : Prop := ∀ w, w ∈ e.left ↔ w = v

theorem isSimple_swap (e : Hyperedge) : e.swap.isSimple = e.isSimple := Bool.and_comm _ _

/-- A simple edge starts at its left end's only node. -/
theorem startsAt_iff (h : e.isSimple = true) : e.StartsAt v ↔ v ∈ e.left := by
  have hsingle : e.left.isSingleton = true := (Bool.and_eq_true_iff.1 h).1
  constructor
  · intro hstart
    exact (hstart v).2 rfl
  · intro hv w
    exact ⟨fun hw => eq_of_isSingleton hsingle hw hv, fun hw => hw ▸ hv⟩

theorem mem_left_iff_of_isSimple (h : e.isSimple = true) : v ∈ e.left ↔ e.left.least = v := by
  have hsingle : e.left.isSingleton = true := (Bool.and_eq_true_iff.1 h).1
  obtain ⟨w, hw⟩ := isSingleton_iff.1 hsingle
  have hleast : e.left.least ∈ e.left := least_mem (ne_empty_iff.2 ⟨w, (hw w).2 rfl⟩)
  constructor
  · intro hv
    exact eq_of_isSingleton hsingle hleast hv
  · rintro rfl
    exact hleast

end Hyperedge

/-! ### One node -/

/-- What the node numbered `v` knows when the edge `e` has been listed at place `i`. -/
def Adjacency.attach (v i : Nat) (e : Hyperedge) (a : Adjacency) : Adjacency :=
  if v ∈ e.left then if e.isSimple then a.addSimple e.right i else a.addComplex i else a

/-- What the node `v` knows is what a list of edges says of it. -/
structure Adjacency.Describes (v : Nat) (es : List Hyperedge) (a : Adjacency) : Prop where
  /-- Its simple edges are listed in increasing order. -/
  simple_increasing : a.simple.Pairwise (· < ·)
  /-- They are the simple edges that start at the node. -/
  mem_simple : ∀ i, i ∈ a.simple ↔ ∃ e, es[i]? = some e ∧ e.isSimple = true ∧ e.StartsAt v
  /-- Its complex edges are listed in increasing order. -/
  complex_increasing : a.complex.Pairwise (· < ·)
  /-- They are the edges that are not simple and start at the node among others. -/
  mem_complex : ∀ i, i ∈ a.complex ↔ ∃ e, es[i]? = some e ∧ e.isSimple = false ∧ v ∈ e.left
  /-- Its neighbors are the other ends of its simple edges. -/
  mem_neighborhood : ∀ w, w ∈ a.neighborhood ↔ ∃ i ∈ a.simple, ∃ e, es[i]? = some e ∧ w ∈ e.right

namespace Adjacency.Describes

variable {v : Nat} {es : List Hyperedge} {a : Adjacency}

/-- A node where no edge starts knows of none. -/
theorem empty (h : ∀ e ∈ es, v ∉ e.left) : Describes v es {} where
  simple_increasing := .nil
  mem_simple i := by
    refine ⟨nofun, fun ⟨e, he, hsimple, hstart⟩ => ?_⟩
    exact absurd ((Hyperedge.startsAt_iff hsimple).1 hstart) (h e (List.mem_of_getElem? he))
  complex_increasing := .nil
  mem_complex i := ⟨nofun, fun ⟨e, he, _, hv⟩ => absurd hv (h e (List.mem_of_getElem? he))⟩
  mem_neighborhood w := ⟨fun hw => absurd hw (not_mem_empty w), nofun⟩

/-- The places of edges with a property, when there is one more edge. -/
theorem place_concat {p : Hyperedge → Prop} (es : List Hyperedge) (e : Hyperedge) (i : Nat) :
    (∃ d, (es ++ [e])[i]? = some d ∧ p d) ↔ (∃ d, es[i]? = some d ∧ p d) ∨ i = es.length ∧ p e := by
  rcases Nat.lt_trichotomy i es.length with hlt | rfl | hgt
  · rw [List.getElem?_append_left hlt]
    exact ⟨.inl, fun h => h.resolve_right fun h => Nat.ne_of_lt hlt h.1⟩
  · simp
  · have hnone : (es ++ [e])[i]? = none := by simp; omega
    have hnone' : es[i]? = none := by simp; omega
    simp [hnone, hnone', Nat.ne_of_gt hgt]

/-- The places of known edges come before that of the next one. -/
theorem increasing_concat {p : Hyperedge → Prop} {is : List Nat} (h : is.Pairwise (· < ·))
    (hplaces : ∀ i ∈ is, ∃ d, es[i]? = some d ∧ p d) : (is ++ [es.length]).Pairwise (· < ·) := by
  refine List.pairwise_append.2 ⟨h, List.pairwise_singleton _ _, fun i hi j hj => ?_⟩
  obtain ⟨d, hd, -⟩ := hplaces i hi
  exact List.mem_singleton.1 hj ▸ (List.getElem?_eq_some_iff.1 hd).1

/-- The neighbors by the edges that lead to them. -/
theorem mem_neighborhood_iff (h : a.Describes v es) (w : Nat) :
    w ∈ a.neighborhood ↔ ∃ e ∈ es, e.isSimple = true ∧ e.StartsAt v ∧ w ∈ e.right := by
  rw [h.mem_neighborhood]
  constructor
  · rintro ⟨i, hi, e, he, hw⟩
    obtain ⟨d, hd, hsimple, hstart⟩ := (h.mem_simple i).1 hi
    obtain rfl : d = e := Option.some.inj (hd.symm.trans he)
    exact ⟨d, List.mem_of_getElem? he, hsimple, hstart, hw⟩
  · rintro ⟨e, hmem, hsimple, hstart, hw⟩
    obtain ⟨i, he⟩ := List.mem_iff_getElem?.1 hmem
    exact ⟨i, (h.mem_simple i).2 ⟨e, he, hsimple, hstart⟩, e, he, hw⟩

/-- A node knows one more edge when the edge has been attached to it. -/
theorem attach (h : a.Describes v es) (e : Hyperedge) :
    (a.attach v es.length e).Describes v (es ++ [e]) := by
  have hplaces : ∀ i ∈ a.simple, ∃ d, es[i]? = some d ∧ d.isSimple = true ∧ d.StartsAt v :=
    fun i => (h.mem_simple i).1
  have hold (i : Nat) (hi : i ∈ a.simple) : (es ++ [e])[i]? = es[i]? := by
    obtain ⟨d, hd, -⟩ := hplaces i hi
    exact List.getElem?_append_left (List.getElem?_eq_some_iff.1 hd).1
  unfold Adjacency.attach addSimple addComplex
  split_ifs with hv hsimple
  · -- a simple edge from the node
    have hstart : e.StartsAt v := (Hyperedge.startsAt_iff hsimple).2 hv
    refine ⟨increasing_concat h.simple_increasing hplaces, fun i => ?_, h.complex_increasing,
      fun i => ?_, fun w => ?_⟩
    · simp [place_concat, ← h.mem_simple, hsimple, hstart]
    · simp [place_concat, ← h.mem_complex, hsimple]
    · rw [mem_union, h.mem_neighborhood]
      constructor
      · rintro (⟨i, hi, d, hd, hw⟩ | hw)
        · exact ⟨i, List.mem_append_left _ hi, d, hold i hi ▸ hd, hw⟩
        · exact ⟨es.length, List.mem_append_right _ (List.mem_singleton_self _), e, by simp, hw⟩
      · rintro ⟨i, hi, d, hd, hw⟩
        rcases List.mem_append.1 hi with hi | hi
        · exact .inl ⟨i, hi, d, hold i hi ▸ hd, hw⟩
        · obtain rfl := List.mem_singleton.1 hi
          obtain rfl : e = d := by simpa using hd
          exact .inr hw
  · -- a complex edge from the node
    refine ⟨h.simple_increasing, fun i => ?_, increasing_concat h.complex_increasing
      (fun i => (h.mem_complex i).1), fun i => ?_, fun w => ?_⟩
    · simp [place_concat, ← h.mem_simple, hsimple]
    · simp [place_concat, ← h.mem_complex, hsimple, hv]
    · rw [h.mem_neighborhood]
      exact exists_congr fun i => and_congr_right fun hi => by rw [hold i hi]
  · -- an edge from elsewhere
    have hstart : e.isSimple = true → ¬ e.StartsAt v :=
      fun hsimple hstart => hv ((Hyperedge.startsAt_iff hsimple).1 hstart)
    refine ⟨h.simple_increasing, fun i => ?_, h.complex_increasing, fun i => ?_, fun w => ?_⟩
    · rw [place_concat, ← h.mem_simple]
      exact ⟨.inl, fun h => h.resolve_right fun h => hstart h.2.1 h.2.2⟩
    · simp [place_concat, ← h.mem_complex, hv]
    · rw [h.mem_neighborhood]
      exact exists_congr fun i => and_congr_right fun hi => by rw [hold i hi]

end Adjacency.Describes

/-! ### The graph -/

namespace Hypergraph

variable {g g' : Hypergraph}

/-- Bit by bit, the nodes of a set get the edge, and no others do. -/
theorem getElem?_attachComplex (starts : NodeSet) (i : Nat) (nodes : List Adjacency) (v : Nat) :
    (attachComplex starts i nodes)[v]? =
      nodes[v]?.map fun a => if v ∈ starts then a.addComplex i else a := by
  have hloop (vs : List Nat) (hnodup : vs.Nodup) (nodes : List Adjacency) :
      (vs.foldl (fun nodes w => nodes.modify w (Adjacency.addComplex i)) nodes)[v]? =
        nodes[v]?.map fun a => if v ∈ vs then a.addComplex i else a := by
    induction vs generalizing nodes with
    | nil => simp
    | cons w vs ih =>
      obtain ⟨hw, hnodup⟩ := List.nodup_cons.1 hnodup
      rw [List.foldl_cons, ih hnodup, List.getElem?_modify, Option.map_eq_map, Option.map_map]
      refine congrArg (nodes[v]?.map ·) (funext fun a => ?_)
      by_cases hv : w = v
      · subst hv
        simp [hw]
      · simp [hv, Ne.symm hv]
  have hnodup : starts.toList.Nodup := (pairwise_toList starts).imp Nat.ne_of_lt
  simp only [attachComplex, hloop _ hnodup, mem_toList]

/-- The two nodes of a simple edge get it, and the loops over both ends of a complex one reach the nodes where
its directions start. -/
theorem attach_eq_mapIdx (e : Hyperedge) (i : Nat) (nodes : List Adjacency) :
    attach e i nodes = nodes.mapIdx fun v a => (a.attach v i e).attach v (i + 1) e.swap := by
  refine List.ext_getElem? fun v => ?_
  rw [List.getElem?_mapIdx, attach]
  cases hsimple : e.isSimple with
  | true =>
    have hswap : e.swap.isSimple = true := e.isSimple_swap.trans hsimple
    rw [if_pos rfl, List.getElem?_modify, List.getElem?_modify, Option.map_eq_map, Option.map_eq_map,
      Option.map_map]
    refine congrArg (nodes[v]?.map ·) (funext fun a => ?_)
    simp only [Adjacency.attach, Hyperedge.mem_left_iff_of_isSimple hsimple,
      Hyperedge.mem_left_iff_of_isSimple hswap, hsimple, hswap, if_true]
    rfl
  | false =>
    have hswap : e.swap.isSimple = false := e.isSimple_swap.trans hsimple
    rw [if_neg Bool.false_ne_true, getElem?_attachComplex, getElem?_attachComplex, Option.map_map]
    refine congrArg (nodes[v]?.map ·) (funext fun a => ?_)
    simp only [Adjacency.attach, hsimple, hswap, Bool.false_eq_true, if_false]
    rfl

theorem nodes_addEdge (g : Hypergraph) (e : Hyperedge) : (g.addEdge e).nodes =
    g.nodes.mapIdx fun v a => (a.attach v g.edges.length e).attach v (g.edges.length + 1) e.swap :=
  attach_eq_mapIdx e g.edges.length g.nodes

theorem length_nodes_addEdge (g : Hypergraph) (e : Hyperedge) :
    (g.addEdge e).nodes.length = g.nodes.length := by
  rw [nodes_addEdge, List.length_mapIdx]

/-- One more node, or one more edge between non-empty sets of nodes that have none in common. -/
inductive Grows : Hypergraph → Hypergraph → Prop
  /-- A node. -/
  | node (g : Hypergraph) : Grows g g.addNode
  /-- An edge. -/
  | edge {g : Hypergraph} {e : Hyperedge} (hleft : e.left ≠ ∅) (hright : e.right ≠ ∅)
      (hapart : e.left.overlaps e.right = false) (hends : g.accepts e = true) : Grows g (g.addEdge e)

/-- The two records that the graph keeps of its edges agree. -/
structure Consistent (g : Hypergraph) : Prop where
  /-- Edges come in pairs. -/
  even : g.edges.length % 2 = 0
  /-- The second of a pair is the first in the other direction. -/
  paired : ∀ i e, g.edges[2 * i]? = some e → g.edges[2 * i + 1]? = some e.swap
  /-- No edge has a node at both ends. -/
  apart : ∀ e ∈ g.edges, e.left.overlaps e.right = false
  /-- The ends are nodes of the graph. -/
  ends_lt : ∀ e ∈ g.edges, ∀ v ∈ e.left, v < g.nodes.length
  /-- Every node knows its edges. -/
  describes : ∀ (v : Nat) (a : Adjacency), g.nodes[v]? = some a → a.Describes v g.edges

theorem ends_lt_of_accepts {e : Hyperedge} (h : g.accepts e = true) :
    (∀ v ∈ e.left, v < g.nodes.length) ∧ ∀ v ∈ e.right, v < g.nodes.length := by
  rw [accepts, List.all_eq_true] at h
  have hlt (v : Nat) (hv : v ∈ e.left ∪ e.right) : v < g.nodes.length :=
    of_decide_eq_true (h v (mem_toList.2 hv))
  exact ⟨fun v hv => hlt v (mem_union.2 (.inl hv)), fun v hv => hlt v (mem_union.2 (.inr hv))⟩

namespace Consistent

theorem empty : Consistent {} := ⟨rfl, nofun, nofun, nofun, nofun⟩

theorem addNode (h : g.Consistent) : g.addNode.Consistent where
  even := h.even
  paired := h.paired
  apart := h.apart
  ends_lt e he v hv := by
    have hlt := h.ends_lt e he v hv
    rw [Hypergraph.addNode, List.length_append]
    omega
  describes v a ha := by
    rcases Nat.lt_or_ge v g.nodes.length with hlt | hge
    · rw [Hypergraph.addNode, List.getElem?_append_left hlt] at ha
      exact h.describes v a ha
    · -- the new node is at no end of the edges so far
      rw [Hypergraph.addNode, List.getElem?_append_right hge, List.getElem?_singleton] at ha
      split_ifs at ha
      cases ha
      exact .empty fun e he hv => Nat.not_lt.2 hge (h.ends_lt e he v hv)

theorem addEdge (h : g.Consistent) {e : Hyperedge} (hapart : e.left.overlaps e.right = false)
    (hends : g.accepts e = true) : (g.addEdge e).Consistent := by
  obtain ⟨hl, hr⟩ := ends_lt_of_accepts hends
  have hmem {d : Hyperedge} (hd : d ∈ (g.addEdge e).edges) : d ∈ g.edges ∨ d = e ∨ d = e.swap := by
    simpa [Hypergraph.addEdge] using hd
  constructor
  case even =>
    have heven := h.even
    simp only [Hypergraph.addEdge, List.length_append, List.length_cons, List.length_nil]
    omega
  case paired =>
    intro i d hd
    have heven := h.even
    simp only [Hypergraph.addEdge] at hd ⊢
    rcases Nat.lt_or_ge (2 * i) g.edges.length with hlt | hge
    · rw [List.getElem?_append_left hlt] at hd
      rw [List.getElem?_append_left (by omega)]
      exact h.paired i d hd
    · have hi : 2 * i - g.edges.length = 0 := by
        have hbound := (List.getElem?_eq_some_iff.1 hd).1
        simp only [List.length_append, List.length_cons, List.length_nil] at hbound
        omega
      rw [List.getElem?_append_right hge, hi] at hd
      rw [List.getElem?_append_right (by omega), show 2 * i + 1 - g.edges.length = 1 by omega]
      cases hd
      rfl
  case apart =>
    intro d hd
    rcases hmem hd with hd | rfl | rfl
    · exact h.apart d hd
    · exact hapart
    · exact overlaps_eq_false_iff.2 fun v hv hv' => overlaps_eq_false_iff.1 hapart v hv' hv
  case ends_lt =>
    intro d hd v hv
    rw [length_nodes_addEdge]
    rcases hmem hd with hd | rfl | rfl
    · exact h.ends_lt d hd v hv
    · exact hl v hv
    · exact hr v hv
  case describes =>
    intro v b hb
    rw [nodes_addEdge, List.getElem?_mapIdx] at hb
    obtain ⟨a, ha, rfl⟩ := Option.map_eq_some_iff.1 hb
    have hboth := ((h.describes v a ha).attach e).attach e.swap
    rw [List.length_append, List.append_assoc] at hboth
    exact hboth

/-- One call keeps the graph consistent. -/
theorem step (h : g.Consistent) (hgrows : Grows g g') : g'.Consistent := by
  cases hgrows with
  | node => exact h.addNode
  | edge _ _ hapart hends => exact h.addEdge hapart hends

/-- With an edge, the list has the edge in the other direction. -/
theorem swap_mem (h : g.Consistent) {e : Hyperedge} (he : e ∈ g.edges) : e.swap ∈ g.edges := by
  obtain ⟨i, hi⟩ := List.mem_iff_getElem?.1 he
  rcases Nat.mod_two_eq_zero_or_one i with hpar | hpar
  · have hfirst := h.paired (i / 2) e (by rwa [show 2 * (i / 2) = i by omega])
    exact List.mem_of_getElem? hfirst
  · have hlt : i < g.edges.length := (List.getElem?_eq_some_iff.1 hi).1
    have hfirst : g.edges[2 * (i / 2)]? = some g.edges[2 * (i / 2)] :=
      List.getElem?_eq_getElem (by omega)
    have hsecond := h.paired (i / 2) _ hfirst
    rw [show 2 * (i / 2) + 1 = i by omega, hi] at hsecond
    rw [Option.some.inj hsecond]
    exact List.mem_of_getElem? hfirst

/-- A neighbor of a node has it for a neighbor. -/
theorem mem_neighborhood_of_mem (h : g.Consistent) {v w : Nat} {a b : Adjacency}
    (ha : g.nodes[v]? = some a) (hb : g.nodes[w]? = some b) (hw : w ∈ a.neighborhood) :
    v ∈ b.neighborhood := by
  obtain ⟨e, he, hsimple, hstart, hw⟩ := ((h.describes v a ha).mem_neighborhood_iff w).1 hw
  refine ((h.describes w b hb).mem_neighborhood_iff v).2 ⟨e.swap, h.swap_mem he, ?_, ?_, (hstart v).2 rfl⟩
  · rwa [Hyperedge.isSimple_swap]
  · exact (Hyperedge.startsAt_iff (by rwa [Hyperedge.isSimple_swap])).2 hw

/-- No node is a neighbor of its own. -/
theorem not_mem_own_neighborhood (h : g.Consistent) {v : Nat} {a : Adjacency}
    (ha : g.nodes[v]? = some a) : v ∉ a.neighborhood := by
  intro hv
  obtain ⟨e, he, -, hstart, hright⟩ := ((h.describes v a ha).mem_neighborhood_iff v).1 hv
  exact overlaps_eq_false_iff.1 (h.apart e he) v ((hstart v).2 rfl) hright

end Consistent

/-- **What the nodes know always agrees with the list of edges.** In every graph that has grown from
nothing, edges come in pairs of both directions, and every node knows the edges that start at it, apart by
kind, and the neighbors to which the simple ones lead. Hence neighbors are neighbors of each other, and no
node is one of its own. -/
theorem adjacency_consistent {g : Hypergraph} (h : ReflTransGen Grows {} g) :
    g.Consistent ∧
      (∀ (v w : Nat) (a b : Adjacency), g.nodes[v]? = some a → g.nodes[w]? = some b →
        (v ∈ b.neighborhood ↔ w ∈ a.neighborhood)) ∧
      ∀ (v : Nat) (a : Adjacency), g.nodes[v]? = some a → v ∉ a.neighborhood := by
  have hconsistent : g.Consistent := by
    induction h with
    | refl => exact .empty
    | tail _ hgrows ih => exact ih.step hgrows
  refine ⟨hconsistent, fun v w a b ha hb => ?_, fun v a => hconsistent.not_mem_own_neighborhood⟩
  exact ⟨hconsistent.mem_neighborhood_of_mem hb ha, hconsistent.mem_neighborhood_of_mem ha hb⟩

/-- Three nodes, two parallel edges between the first two and one edge from both to the third; then one
more node, and an edge from it. -/
def grown : Hypergraph :=
  let three : Hypergraph := Hypergraph.addNode (Hypergraph.addNode (Hypergraph.addNode {}))
  (((three.addEdge ⟨{0}, {1}⟩).addEdge ⟨{1}, {0}⟩).addEdge ⟨{0, 1}, {2}⟩).addNode.addEdge ⟨{3}, {0}⟩

theorem adjacency_consistent_grown : ReflTransGen Grows {} grown ∧ grown.Consistent ∧
    (∀ (v w : Nat) (a b : Adjacency), grown.nodes[v]? = some a → grown.nodes[w]? = some b →
      (v ∈ b.neighborhood ↔ w ∈ a.neighborhood)) ∧
    ∀ (v : Nat) (a : Adjacency), grown.nodes[v]? = some a → v ∉ a.neighborhood := by
  have hedge {g : Hypergraph} (e : Hyperedge) (h : ReflTransGen Grows {} g)
      (hwell : e.left ≠ ∅ ∧ e.right ≠ ∅ ∧ e.left.overlaps e.right = false)
      (hends : g.accepts e = true) : ReflTransGen Grows {} (g.addEdge e) :=
    h.tail (.edge hwell.1 hwell.2.1 hwell.2.2 hends)
  have hthree := (((ReflTransGen.refl (r := Grows)).tail (.node {})).tail (.node _)).tail (.node _)
  have hedges := hedge ⟨{0, 1}, {2}⟩ (hedge ⟨{1}, {0}⟩ (hedge ⟨{0}, {1}⟩ hthree (by decide)
    (by decide +kernel)) (by decide) (by decide +kernel)) (by decide) (by decide +kernel)
  have hgrown : ReflTransGen Grows {} grown :=
    hedge ⟨{3}, {0}⟩ (hedges.tail (.node _)) (by decide) (by decide +kernel)
  exact ⟨hgrown, adjacency_consistent hgrown⟩

/-- What the nodes know in the end. -/
example : grown.nodes = [⟨{1, 3}, [0, 3, 7], [4]⟩, ⟨{0}, [1, 2], [4]⟩, ⟨∅, [], [5]⟩, ⟨{0}, [6], []⟩] := by
  decide +kernel

end Hypergraph

end QueryGraph
