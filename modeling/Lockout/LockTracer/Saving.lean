import Mathlib.Algebra.BigOperators.Group.List.Basic
import Lockout.LockTracer.Storage

/-! # A saved graph is loaded as it was

The graph that any calls of `getNode` and `addEdge` build keeps `inEdges` as the
transpose of `outEdges`. What the writer prints of it spells its nodes and edges once
each, so the reader, which adds weights up and creates targets early, ends with the
same graph. -/

namespace Lockout.LockTracer.Saving
open Std
open Lockout.Lib.TextStream Lockout.LockTracer.Graph Lockout.LockTracer.Storage

/-! ## Graphs built by calls -/

inductive Call
  | getNode (value : LockAddress)
  | addEdge (src dst : LockAddress) (w : Int)

def Call.apply (g : LockGraph) : Call → LockGraph
  | .getNode value => g.getNode value
  | .addEdge src dst w => g.addEdge src dst w

/-- The graph that has been built by a sequence of calls. -/
def build (name : String) (calls : List Call) : LockGraph := calls.foldl Call.apply { name := name }

/-- `inEdges` is the transpose of `outEdges`, and every node is stored at its address. -/
structure Transposed (g : LockGraph) : Prop where
  value : ∀ v, (g.node v).value = v
  edge : ∀ a b, a ∈ g.inEdges b ↔ g.Edge a b
  weight : ∀ a b, (g.inEdges b).getD a 0 = g.weight a b
  closed : g.Closed

section Built
variable {g : LockGraph} {name : String} {src dst v : LockAddress} {w : Int}

theorem transposed_empty : Transposed { name := name } where
  value _ := by simp [LockGraph.node]
  edge a b := by simp [LockGraph.Edge, LockGraph.inEdges, LockGraph.outEdges, LockGraph.node]
  weight a b := by
    simp [LockGraph.weight_eq_getD, LockGraph.inEdges, LockGraph.outEdges, LockGraph.node]
  closed := LockGraph.closed_empty name

theorem Transposed.getNode (h : Transposed g) : Transposed (g.getNode v) where
  value u := by rw [LockGraph.node_getNode, h.value]
  edge a b := by simpa [LockGraph.inEdges, LockGraph.Edge] using h.edge a b
  weight a b := by simpa [LockGraph.inEdges] using h.weight a b
  closed := h.closed.getNode

theorem Transposed.addEdge (h : Transposed g) : Transposed (g.addEdge src dst w) where
  value u := by rw [LockGraph.node_addEdge, h.value]
  edge a b := by
    rw [LockGraph.inEdges_addEdge, LockGraph.edge_addEdge, ← h.edge]
    by_cases hb : b = dst
    · simp [hb]
    · simp [hb]
  weight a b := by
    rw [LockGraph.inEdges_addEdge, LockGraph.weight_addEdge, ← h.weight]
    by_cases hb : b = dst
    · subst hb
      rw [if_pos rfl, getD_addWeight]
      by_cases ha : a = src <;> simp [ha]
    · simp [hb]
  closed := h.closed.addEdge

theorem name_getNode : (g.getNode v).name = g.name := by
  unfold LockGraph.getNode
  split <;> rfl

theorem name_addEdge : (g.addEdge src dst w).name = g.name := by
  unfold LockGraph.addEdge
  dsimp only
  rw [name_getNode, name_getNode]

theorem foldl_apply (calls : List Call) (h : Transposed g) :
    Transposed (calls.foldl Call.apply g) ∧ (calls.foldl Call.apply g).name = g.name := by
  induction calls generalizing g with
  | nil => exact ⟨h, rfl⟩
  | cons c calls ih =>
    cases c with
    | getNode v =>
      obtain ⟨hall, hname⟩ := ih (h.getNode (v := v))
      exact ⟨hall, hname.trans name_getNode⟩
    | addEdge src dst w =>
      obtain ⟨hall, hname⟩ := @ih _ (h.addEdge : Transposed (g.addEdge src dst w))
      exact ⟨hall, hname.trans name_addEdge⟩

theorem transposed_build (calls : List Call) : Transposed (build name calls) :=
  (foldl_apply calls transposed_empty).1

theorem name_build (calls : List Call) : (build name calls).name = name :=
  (foldl_apply calls transposed_empty).2

/-- The calls of `operator>>` for one entry. -/
def callsOf (entry : Entry) : List Call :=
  .getNode entry.1 :: entry.2.map fun e => .addEdge entry.1 e.1 e.2

/-- The reader builds its graph with the same calls. -/
theorem read_eq_build (entries : List Entry) :
    LockGraph.read name entries = build name (entries.flatMap callsOf) := by
  rw [build, List.foldl_flatMap, LockGraph.read]
  simp only [callsOf, List.foldl_cons, List.foldl_map, Call.apply]

end Built

/-! ## The weights a reader adds up -/

section Sums
variable {κ β : Type} [DecidableEq κ]

/-- The sum of what `f` makes of the values listed at a key. -/
def sumAt (k : κ) (f : β → Int) (l : List (κ × β)) : Int :=
  (l.map fun p => if p.1 = k then f p.2 else 0).sum

variable {k : κ} {f : β → Int} {l : List (κ × β)} {v : β}

theorem sumAt_cons {p : κ × β} : sumAt k f (p :: l) = (if p.1 = k then f p.2 else 0) + sumAt k f l := by
  simp [sumAt]

theorem sumAt_of_notMem (h : k ∉ l.map Prod.fst) : sumAt k f l = 0 := by
  induction l with
  | nil => rfl
  | cons p l ih =>
    rw [List.map_cons, List.mem_cons, not_or] at h
    rw [sumAt_cons, if_neg (Ne.symm h.1), ih h.2, Int.add_zero]

/-- Where no key is listed twice, the sum is that of the one value at the key. -/
theorem sumAt_of_mem (hl : (l.map Prod.fst).Nodup) (h : (k, v) ∈ l) : sumAt k f l = f v := by
  induction l with
  | nil => cases h
  | cons p l ih =>
    obtain ⟨hp, hl⟩ := List.nodup_cons.mp hl
    rw [sumAt_cons]
    rcases List.mem_cons.mp h with rfl | h
    · rw [if_pos rfl, sumAt_of_notMem hp, Int.add_zero]
    · have hne : p.1 ≠ k := by
        rintro rfl
        exact hp (List.mem_map.mpr ⟨_, h, rfl⟩)
      rw [if_neg hne, ih hl h, Int.zero_add]

end Sums

section Weights
variable {g : LockGraph} {src a b : LockAddress} {name : String}

theorem weight_foldl_addEdge (es : List (LockAddress × Int)) :
    (es.foldl (fun g e => g.addEdge src e.1 e.2) g).weight a b =
      g.weight a b + if a = src then sumAt b id es else 0 := by
  induction es generalizing g with
  | nil => simp [sumAt]
  | cons e es ih =>
    rw [List.foldl_cons, ih, LockGraph.weight_addEdge, sumAt_cons, Int.add_assoc]
    by_cases ha : a = src
    · simp [ha, @eq_comm _ b e.1]
    · simp [ha]

/-- The weight of an edge of a graph that `operator>>` has read. -/
theorem weight_read (entries : List Entry) :
    (LockGraph.read name entries).weight a b = sumAt a (sumAt b id) entries := by
  have hfold : ∀ (entries : List Entry) (g : LockGraph), (entries.foldl (fun g entry =>
      entry.2.foldl (fun g e => g.addEdge entry.1 e.1 e.2) (g.getNode entry.1)) g).weight a b =
        g.weight a b + sumAt a (sumAt b id) entries := by
    intro entries
    induction entries with
    | nil => simp [sumAt]
    | cons entry entries ih =>
      intro g
      rw [List.foldl_cons, ih, weight_foldl_addEdge, LockGraph.weight_getNode, sumAt_cons,
        Int.add_assoc]
      simp only [@eq_comm _ a]
  rw [LockGraph.read, hfold]
  simp [LockGraph.weight_eq_getD, LockGraph.outEdges, LockGraph.node]

end Weights

/-! ## What the writer prints -/

/-- The nodes and edges of a graph in the order in which they are printed. -/
def entriesOf (ord : NodeOrder) (g : LockGraph) : List Entry :=
  g.lockNodeMap.toList.map fun p => (p.2.value, edgesOf ord p.2)

section Printed
variable {io : Iostream} {ord : NodeOrder} {g : LockGraph} {lead tail : List Char}

theorem length_edgesOf (n : Node) : (edgesOf ord n).length = n.outEdges.size := by
  rw [edgesOf, List.length_map, (ord.perm _).length_eq, TreeMap.length_keys]

/-- An edge is printed after a tab. -/
theorem spells_printEdge (hio : io.RoundTrip) (e : LockAddress × Int) (hlead : Blank lead)
    (htail : AtBreak tail) :
    io.pointer.Spells (lead ++ (printEdge io e ++ tail)) e.1 (' ' :: (io.int.print e.2 ++ tail)) ∧
      io.int.Spells (' ' :: (io.int.print e.2 ++ tail)) e.2 tail := by
  have hlead' : Blank (lead ++ ['\t']) := by
    intro c hc
    rcases List.mem_append.mp hc with hc | hc
    · exact hlead c hc
    · exact blank_singleton rfl c hc
  have ha := hio.pointer.spells (v := e.1) hlead'
    (@atBreak_cons (io.int.print e.2 ++ tail) ' ' rfl)
  refine ⟨?_, hio.int.spells (blank_singleton (c := ' ') rfl) htail⟩
  simpa [printEdge] using ha

theorem atBreak_edges (es : List (LockAddress × Int)) (htail : AtBreak tail) :
    AtBreak (es.flatMap (printEdge io) ++ tail) := by
  cases es with
  | nil => exact htail
  | cons e es => exact atBreak_cons rfl

/-- Printed edges are spelled one after the other; at most the white space before them
is left, where there are none. -/
theorem spellsEdges_print (hio : io.RoundTrip) (es : List (LockAddress × Int))
    (hlead : Blank lead) (htail : AtBreak tail) : ∃ lead', Blank lead' ∧
      SpellsEdges io es.length (lead ++ (es.flatMap (printEdge io) ++ tail)) es (lead' ++ tail) := by
  induction es generalizing lead with
  | nil => exact ⟨lead, hlead, .nil⟩
  | cons e es ih =>
    obtain ⟨lead', hlead', hes⟩ := ih blank_nil
    obtain ⟨ha, hw⟩ := spells_printEdge hio e hlead (atBreak_edges es htail)
    refine ⟨lead', hlead', ?_⟩
    rw [List.flatMap_cons, List.append_assoc]
    exact .cons ha hw hes

theorem spellsNodes_print (hio : io.RoundTrip) (nodes : List Node) (hlead : Blank lead) :
    ∃ rest, SpellsNodes io nodes.length
      (lead ++ ((nodes.flatMap fun n => printNode io ord n ++ ['\n']) ++ tail))
      (nodes.map fun n => (n.value, edgesOf ord n)) rest := by
  induction nodes generalizing lead with
  | nil => exact ⟨_, .nil⟩
  | cons n nodes ih =>
    let after := (nodes.flatMap fun n => printNode io ord n ++ ['\n']) ++ tail
    let body := (edgesOf ord n).flatMap (printEdge io) ++ '\n' :: after
    obtain ⟨lead', hlead', hes⟩ := spellsEdges_print hio (edgesOf ord n)
      (blank_singleton (c := '\n') rfl) (@atBreak_cons after '\n' rfl)
    have hblank : Blank (lead' ++ ['\n']) := by
      intro c hc
      rcases List.mem_append.mp hc with hc | hc
      · exact hlead' c hc
      · exact blank_singleton rfl c hc
    obtain ⟨rest, hrest⟩ := ih hblank
    have ha : io.pointer.Spells
        (lead ++ (((n :: nodes).flatMap fun n => printNode io ord n ++ ['\n']) ++ tail)) n.value
        (' ' :: (io.int.print n.outEdges.size ++ '\n' :: body)) := by
      have ha := hio.pointer.spells (v := n.value) hlead
        (@atBreak_cons (io.int.print n.outEdges.size ++ '\n' :: body) ' ' rfl)
      simpa [printNode, body, after] using ha
    have hm : io.int.Spells (' ' :: (io.int.print n.outEdges.size ++ '\n' :: body))
        n.outEdges.size ('\n' :: body) :=
      hio.int.spells (blank_singleton (c := ' ') rfl) (atBreak_cons rfl)
    have hedges : SpellsEdges io (n.outEdges.size : Int).toNat ('\n' :: body) (edgesOf ord n)
        (lead' ++ '\n' :: after) := by
      rw [Int.toNat_natCast, ← @length_edgesOf ord n]
      exact hes
    have hnodes : SpellsNodes io nodes.length (lead' ++ '\n' :: after)
        (nodes.map fun n => (n.value, edgesOf ord n)) rest := by
      simpa [after] using hrest
    exact ⟨rest, .cons ha hm hedges hnodes⟩

/-- A saved graph is a complete file of its nodes and edges. -/
theorem spellsGraph_print (hio : io.RoundTrip) (hname : IsToken g.name.toList) :
    SpellsGraph io (printGraph io ord g) g.name (entriesOf ord g) := by
  let nodes := g.lockNodeMap.toList.map Prod.snd
  let body := (nodes.flatMap fun n => printNode io ord n ++ ['\n']) ++ ['\n']
  obtain ⟨rest, hnodes⟩ := @spellsNodes_print io ord ['\n'] ['\n'] hio nodes
    (blank_singleton rfl)
  have hlength : nodes.length = (g.size : Int).toNat := by
    simp [nodes, LockGraph.size, TreeMap.length_toList]
  have hword : word.Spells (printGraph io ord g) g.name
      (' ' :: (io.int.print g.size ++ '\n' :: body)) := by
    have hword := spells_word hname blank_nil
      (@atBreak_cons (io.int.print g.size ++ '\n' :: body) ' ' rfl)
    simpa [printGraph, body, nodes, List.flatMap_map] using hword
  have hn : io.int.Spells (' ' :: (io.int.print g.size ++ '\n' :: body)) g.size ('\n' :: body) :=
    hio.int.spells (blank_singleton (c := ' ') rfl) (atBreak_cons rfl)
  refine ⟨g.size, '\n' :: body, rest, ⟨_, hword, hn⟩, ?_⟩
  rw [← hlength]
  simpa [entriesOf, nodes, List.map_map, Function.comp_def] using hnodes

end Printed

/-! ## The loaded graph -/

section Loaded
variable {ord : NodeOrder} {g : LockGraph} {a b : LockAddress} {w : Int}
  {es : List (LockAddress × Int)} {name : String}

theorem mem_edgesOf {n : Node} : (b, w) ∈ edgesOf ord n ↔ b ∈ n.outEdges ∧ w = n.outEdges.getD b 0 := by
  simp only [edgesOf, List.mem_map, ord.mem_iterate, TreeMap.mem_keys, Prod.mk.injEq]
  constructor
  · rintro ⟨c, hc, rfl, rfl⟩
    exact ⟨hc, rfl⟩
  · rintro ⟨hb, rfl⟩
    exact ⟨b, hb, rfl, rfl⟩

theorem nodup_edgesOf (n : Node) : ((edgesOf ord n).map Prod.fst).Nodup := by
  have hkeys : (edgesOf ord n).map Prod.fst = ord.iterate n.outEdges.keys := by
    simp [edgesOf, Function.comp_def]
  rw [hkeys]
  exact (ord.perm _).nodup_iff.mpr TreeMap.nodup_keys

theorem node_of_mem {p : LockAddress × Node} (hp : p ∈ g.lockNodeMap.toList) : g.node p.1 = p.2 := by
  have hget := TreeMap.mem_toList_iff_getElem?_eq_some.mp hp
  rw [LockGraph.node, TreeMap.getD_eq_getD_getElem?, hget]
  rfl

theorem entriesOf_eq (hg : Transposed g) : entriesOf ord g =
    g.lockNodeMap.keys.map fun a => (a, edgesOf ord (g.node a)) := by
  rw [entriesOf, ← TreeMap.map_fst_toList_eq_keys, List.map_map]
  refine List.map_congr_left fun p hp => ?_
  have hnode := node_of_mem hp
  have hvalue := hg.value p.1
  rw [hnode] at hvalue
  rw [Function.comp_apply, hnode, hvalue]

theorem mem_entriesOf (hg : Transposed g) :
    (a, es) ∈ entriesOf ord g ↔ a ∈ g.lockNodeMap ∧ es = edgesOf ord (g.node a) := by
  rw [entriesOf_eq hg]
  simp only [List.mem_map, TreeMap.mem_keys, Prod.mk.injEq]
  constructor
  · rintro ⟨c, hc, rfl, rfl⟩
    exact ⟨hc, rfl⟩
  · rintro ⟨ha, rfl⟩
    exact ⟨a, ha, rfl, rfl⟩

theorem nodup_entriesOf (hg : Transposed g) : ((entriesOf ord g).map Prod.fst).Nodup := by
  have hkeys : (entriesOf ord g).map Prod.fst = g.lockNodeMap.keys := by
    rw [entriesOf_eq hg, List.map_map]
    exact List.map_id _
  rw [hkeys]
  exact TreeMap.nodup_keys

theorem weight_of_not_edge (h : ¬ g.Edge a b) : g.weight a b = 0 := by
  rw [LockGraph.weight_eq_getD]
  exact TreeMap.getD_eq_fallback h

theorem mem_read_entriesOf (hg : Transposed g) :
    a ∈ (LockGraph.read name (entriesOf ord g)).lockNodeMap ↔ a ∈ g.lockNodeMap := by
  rw [LockGraph.mem_read]
  constructor
  · rintro ⟨c, es, hc, ha⟩
    obtain ⟨hmem, rfl⟩ := (mem_entriesOf hg).mp hc
    rcases ha with rfl | ⟨w, hw⟩
    · exact hmem
    · exact hg.closed c a (mem_edgesOf.mp hw).1
  · exact fun ha => ⟨a, _, (mem_entriesOf hg).mpr ⟨ha, rfl⟩, .inl rfl⟩

theorem edge_read_entriesOf (hg : Transposed g) :
    (LockGraph.read name (entriesOf ord g)).Edge a b ↔ g.Edge a b := by
  rw [LockGraph.edge_read]
  constructor
  · rintro ⟨es, w, ha, hb⟩
    obtain ⟨-, rfl⟩ := (mem_entriesOf hg).mp ha
    exact (mem_edgesOf.mp hb).1
  · exact fun h => ⟨_, _, (mem_entriesOf hg).mpr ⟨h.mem, rfl⟩, mem_edgesOf.mpr ⟨h, rfl⟩⟩

/-- The reader adds each weight to an edge it has just created. -/
theorem weight_read_entriesOf (hg : Transposed g) :
    (LockGraph.read name (entriesOf ord g)).weight a b = g.weight a b := by
  by_cases h : g.Edge a b
  · rw [weight_read, sumAt_of_mem (nodup_entriesOf hg) ((mem_entriesOf hg).mpr ⟨h.mem, rfl⟩),
      sumAt_of_mem (nodup_edgesOf _) (mem_edgesOf.mpr ⟨h, rfl⟩), LockGraph.weight_eq_getD]
    rfl
  · rw [weight_of_not_edge h, weight_of_not_edge (mt (edge_read_entriesOf hg).mp h)]

end Loaded

/-- The same name, nodes, edges and weights. -/
structure SameGraph (g g' : LockGraph) : Prop where
  name : g'.name = g.name
  nodes : ∀ v, v ∈ g'.lockNodeMap ↔ v ∈ g.lockNodeMap
  outEdge : ∀ a b : LockAddress, (g'.outEdges a)[b]? = (g.outEdges a)[b]?
  inEdge : ∀ a b : LockAddress, (g'.inEdges b)[a]? = (g.inEdges b)[a]?

theorem getElem?_of_weights {e e' : AdjacencyList} {a : LockAddress} (hmem : a ∈ e' ↔ a ∈ e)
    (hweight : e'.getD a 0 = e.getD a 0) : e'[a]? = e[a]? := by
  by_cases ha : a ∈ e
  · have ha' := hmem.mpr ha
    rw [TreeMap.getElem?_eq_some_getD ha, TreeMap.getElem?_eq_some_getD ha', hweight]
  · rw [TreeMap.getElem?_eq_none ha, TreeMap.getElem?_eq_none (mt hmem.mp ha)]

/-- Graphs with the same nodes, edges and weights are the same in both directions. -/
theorem SameGraph.of_edges {g g' : LockGraph} (hg : Transposed g) (hg' : Transposed g')
    (hname : g'.name = g.name) (hnodes : ∀ v, v ∈ g'.lockNodeMap ↔ v ∈ g.lockNodeMap)
    (hedge : ∀ a b, g'.Edge a b ↔ g.Edge a b) (hweight : ∀ a b, g'.weight a b = g.weight a b) :
    SameGraph g g' where
  name := hname
  nodes := hnodes
  outEdge a b := by
    refine getElem?_of_weights (hedge a b) ?_
    rw [← LockGraph.weight_eq_getD, ← LockGraph.weight_eq_getD, hweight]
  inEdge a b := by
    refine getElem?_of_weights ?_ ?_
    · rw [hg'.edge, hg.edge, hedge]
    · rw [hg'.weight, hg.weight, hweight]

/-- A graph that `getNode` and `addEdge` have built is read back from its file with the
same name, nodes, edges and weights, whatever graph is loaded into. -/
theorem load_save {io : Iostream} (hio : io.RoundTrip) (ord : NodeOrder) (left : Leftovers)
    (graph : LockGraph) {name : String} (hname : IsToken name.toList) (calls : List Call) :
    SameGraph (build name calls)
      (load io left graph (some (printGraph io ord (build name calls)))).graph := by
  have hg : Transposed (build name calls) := transposed_build calls
  have htoken : IsToken (build name calls).name.toList := by rwa [name_build]
  have hspells := @spellsGraph_print io ord _ hio htoken
  rw [load, (extractGraph_of_spells hspells).1, name_build]
  refine .of_edges hg ?_ ?_ (fun _ => mem_read_entriesOf hg) (fun _ _ => edge_read_entriesOf hg)
    fun _ _ => weight_read_entriesOf hg
  · rw [read_eq_build]
    exact transposed_build _
  · rw [read_eq_build, name_build, name_build]

/-- A self-loop, a negative weight and an isolated node. -/
theorem load_save_loops : SameGraph
    (build "g" [.addEdge 16 32 1, .addEdge 32 32 (-4), .getNode 0, .addEdge 16 32 2])
    (load Lib.Numerals.standard ⟨fun _ => 7, fun _ => 8⟩ { name := "h" }
      (some (printGraph Lib.Numerals.standard .byAddress
        (build "g" [.addEdge 16 32 1, .addEdge 32 32 (-4), .getNode 0, .addEdge 16 32 2])))).graph :=
  load_save Lib.Numerals.standard_roundTrip .byAddress _ _ ⟨by simp, by simp [isSpace]⟩ _

end Lockout.LockTracer.Saving
