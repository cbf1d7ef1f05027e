import Lockout.Lib.Numerals
import Lockout.LockTracer.Graph

/-! # Saving and loading a graph

`operator<<` and `operator>>` of a `LockGraph`. The reader checks the extraction of the
name only; each of the later ones may fail, and its target then holds whatever it held
before. `Reading` follows the code and notes whether every value that was used had
been read. The grammar of the file is `Complete`. -/

namespace Lockout.LockTracer.Storage
open Std
open Lockout.Lib.TextStream Lockout.LockTracer.Graph

/-! ## Writing -/

/-- The edges of a node in the order of `outEdges`, which compares addresses of nodes. -/
def edgesOf (ord : NodeOrder) (n : Node) : List (LockAddress × Int) :=
  (ord.iterate n.outEdges.keys).map fun a => (a, n.outEdges.getD a 0)

def printEdge (io : Iostream) (e : LockAddress × Int) : List Char :=
  '\t' :: (io.pointer.print e.1 ++ ' ' :: io.int.print e.2)

/-- `operator<<` of a `Node`; nothing separates the end of an edge from the next one but
the tab that starts it. -/
def printNode (io : Iostream) (ord : NodeOrder) (n : Node) : List Char :=
  io.pointer.print n.value ++ ' ' :: (io.int.print n.outEdges.size ++ '\n' ::
    (edgesOf ord n).flatMap (printEdge io))

/-- `operator<<` of a `LockGraph`. -/
def printGraph (io : Iostream) (ord : NodeOrder) (g : LockGraph) : List Char :=
  g.name.toList ++ ' ' :: (io.int.print g.size ++ '\n' ::
    (g.lockNodeMap.toList.flatMap fun p => printNode io ord p.2 ++ ['\n']) ++ ['\n'])

/-! ## Reading -/

/-- What the target of the `k`-th extraction holds when it fails: its old content, an
uninitialised value, or zero. -/
structure Leftovers where
  int : Nat → Int
  pointer : Nat → LockAddress

structure Reading where
  stream : Stream
  graph : LockGraph
  extractions : Nat := 0
  /-- Every value used so far had been read. -/
  clean : Bool := true

namespace Reading
variable (io : Iostream) (left : Leftovers)

/-- `in >> i`. -/
def int (r : Reading) : Slot Int × Reading :=
  let (slot, stream) := r.stream.into io.int (left.int r.extractions)
  (slot, { r with stream := stream, extractions := r.extractions + 1 })

/-- `in >> p`. -/
def pointer (r : Reading) : Slot LockAddress × Reading :=
  let (slot, stream) := r.stream.into io.pointer (left.pointer r.extractions)
  (slot, { r with stream := stream, extractions := r.extractions + 1 })

/-- The value of a variable is used. -/
def use {α : Type} (r : Reading) (slot : Slot α) : Reading := { r with clean := r.clean && slot.read }

/-- One round of the inner loop of `operator>>`, for an edge of `adr`. -/
def edge (adr : LockAddress) (r : Reading) : Reading :=
  let (temp, r) := r.pointer io left
  let (w, r) := r.int io left
  let r := (r.use temp).use w
  { r with graph := r.graph.addEdge adr temp.value w.value }

/-- The inner loop. -/
def edges (adr : LockAddress) : Nat → Reading → Reading
  | 0, r => r
  | k + 1, r => edges adr k (r.edge io left adr)

/-- One round of the outer loop. -/
def node (r : Reading) : Reading :=
  let (temp, r) := r.pointer io left
  let r := r.use temp
  let (m, r) := Reading.int io left { r with graph := r.graph.getNode temp.value }
  edges io left temp.value m.value.toNat (r.use m)

/-- The outer loop. -/
def nodes : Nat → Reading → Reading
  | 0, r => r
  | k + 1, r => nodes k (r.node io left)

end Reading

/-- `operator>>`, from a graph that has a name and maybe nodes. -/
def extractGraph (io : Iostream) (left : Leftovers) (graph : LockGraph) (stream : Stream) : Reading :=
  let graph := { graph with lockNodeMap := ∅ }
  match stream.extract word with
  | (none, stream) => { stream := stream, graph := graph }
  | (some name, stream) =>
    let (n, r) := Reading.int io left { stream := stream, graph := { graph with name := name } }
    (r.use n).nodes io left n.value.toNat

/-- `load`; a file that is not there is a failed stream. -/
def load (io : Iostream) (left : Leftovers) (graph : LockGraph) (file : Option (List Char)) : Reading :=
  extractGraph io left graph (match file with
    | some text => ⟨text, false⟩
    | none => ⟨[], true⟩)

/-! ## The grammar -/

abbrev Entry := LockAddress × List (LockAddress × Int)

section Grammar
variable (io : Iostream)

inductive SpellsEdges : Nat → List Char → List (LockAddress × Int) → List Char → Prop
  | nil {text} : SpellsEdges 0 text [] text
  | cons {k text a text₁ w text₂ es rest} : io.pointer.Spells text a text₁ →
      io.int.Spells text₁ w text₂ → SpellsEdges k text₂ es rest →
      SpellsEdges (k + 1) text ((a, w) :: es) rest

inductive SpellsNodes : Nat → List Char → List Entry → List Char → Prop
  | nil {text} : SpellsNodes 0 text [] text
  | cons {k text a text₁ m text₂ es text₃ entries rest} : io.pointer.Spells text a text₁ →
      io.int.Spells text₁ m text₂ → SpellsEdges io m.toNat text₂ es text₃ →
      SpellsNodes k text₃ entries rest → SpellsNodes (k + 1) text ((a, es) :: entries) rest

/-- The file starts with a name and a number of nodes. -/
structure SpellsHeader (text : List Char) (name : String) (n : Int) (rest : List Char) : Prop where
  name : ∃ mid, word.Spells text name mid ∧ io.int.Spells mid n rest

/-- The file has all the nodes and edges that its counts announce. -/
def SpellsGraph (text : List Char) (name : String) (entries : List Entry) : Prop :=
  ∃ n body rest, SpellsHeader io text name n body ∧ SpellsNodes io n.toNat body entries rest

def Complete (text : List Char) : Prop := ∃ name entries, SpellsGraph io text name entries

/-- The file has an entry of node `a` whose first edges, `es`, it has completely. -/
inductive SpellsEntry (text : List Char) (a : LockAddress) (es : List (LockAddress × Int)) : Prop
  | intro {name n body k before text₁ text₂ m text₃ j text₄} : SpellsHeader io text name n body →
      SpellsNodes io k body before text₁ → k < n.toNat → io.pointer.Spells text₁ a text₂ →
      io.int.Spells text₂ m text₃ → j ≤ m.toNat → SpellsEdges io j text₃ es text₄ →
      SpellsEntry text a es

/-- Node `v` is completely spelled out, as an entry or as the target of an edge. -/
def SpellsNode (text : List Char) (v : LockAddress) : Prop :=
  ∃ a es, SpellsEntry io text a es ∧ (v = a ∨ ∃ w, (v, w) ∈ es)

def SpellsEdge (text : List Char) (a b : LockAddress) : Prop :=
  ∃ es w, SpellsEntry io text a es ∧ (b, w) ∈ es

end Grammar

/-! ## Reading what is spelled -/

section Reads
variable {io : Iostream} {left : Leftovers} {r : Reading} {text rest : List Char}

@[simp] theorem clean_int : (r.int io left).2.clean = r.clean := rfl
@[simp] theorem clean_pointer : (r.pointer io left).2.clean = r.clean := rfl

theorem int_of_spells {v : Int} (hr : r.stream = ⟨text, false⟩) (h : io.int.Spells text v rest) :
    r.int io left =
      (⟨v, true⟩, { r with stream := ⟨rest, false⟩, extractions := r.extractions + 1 }) := by
  rw [Reading.int, hr, into_of_spells h]

theorem pointer_of_spells {v : LockAddress} (hr : r.stream = ⟨text, false⟩)
    (h : io.pointer.Spells text v rest) : r.pointer io left =
      (⟨v, true⟩, { r with stream := ⟨rest, false⟩, extractions := r.extractions + 1 }) := by
  rw [Reading.pointer, hr, into_of_spells h]

/-- The state after everything up to `rest` has been read. -/
structure Done (r : Reading) (graph : LockGraph) (clean : Bool) (rest : List Char) : Prop where
  stream : r.stream = ⟨rest, false⟩
  graph : r.graph = graph
  clean : r.clean = clean

theorem edge_of_spells {adr a : LockAddress} {w : Int} {mid : List Char}
    (hr : r.stream = ⟨text, false⟩) (ha : io.pointer.Spells text a mid)
    (hw : io.int.Spells mid w rest) :
    Done (r.edge io left adr) (r.graph.addEdge adr a w) r.clean rest := by
  rw [Reading.edge, pointer_of_spells hr ha]
  dsimp only
  rw [int_of_spells rfl hw]
  exact ⟨rfl, rfl, by simp [Reading.use]⟩

theorem edges_of_spells {adr : LockAddress} {k : Nat} {es : List (LockAddress × Int)}
    (h : SpellsEdges io k text es rest) (hr : r.stream = ⟨text, false⟩) :
    Done (r.edges io left adr k) (es.foldl (fun g e => g.addEdge adr e.1 e.2) r.graph)
      r.clean rest := by
  induction h generalizing r with
  | nil => exact ⟨hr, rfl, rfl⟩
  | cons ha hw _ ih =>
    have hedge := @edge_of_spells io left r _ _ adr _ _ _ hr ha hw
    have hrest := ih hedge.stream
    rw [hedge.graph, hedge.clean] at hrest
    exact hrest

theorem node_of_spells {a : LockAddress} {m : Int} {es : List (LockAddress × Int)}
    {text₁ text₂ : List Char} (hr : r.stream = ⟨text, false⟩)
    (ha : io.pointer.Spells text a text₁) (hm : io.int.Spells text₁ m text₂)
    (hes : SpellsEdges io m.toNat text₂ es rest) :
    Done (r.node io left)
      (es.foldl (fun g e => g.addEdge a e.1 e.2) (r.graph.getNode a)) r.clean rest := by
  rw [Reading.node, pointer_of_spells hr ha]
  dsimp only
  rw [int_of_spells rfl hm]
  dsimp only
  have hdone := @edges_of_spells io left (Reading.use { r with
      stream := ⟨text₂, false⟩
      graph := r.graph.getNode a
      extractions := r.extractions + 1 + 1
      clean := r.clean && true } (⟨m, true⟩ : Slot Int)) _ _ a _ _ hes rfl
  refine ⟨hdone.stream, hdone.graph, hdone.clean.trans ?_⟩
  simp [Reading.use]

theorem nodes_of_spells {k : Nat} {entries : List Entry} (h : SpellsNodes io k text entries rest)
    (hr : r.stream = ⟨text, false⟩) :
    Done (r.nodes io left k) (entries.foldl (fun g entry =>
      entry.2.foldl (fun g e => g.addEdge entry.1 e.1 e.2) (g.getNode entry.1)) r.graph)
      r.clean rest := by
  induction h generalizing r with
  | nil => exact ⟨hr, rfl, rfl⟩
  | cons ha hm hes _ ih =>
    have hnode := @node_of_spells io left r _ _ _ _ _ _ _ hr ha hm hes
    have hrest := ih hnode.stream
    rw [hnode.graph, hnode.clean] at hrest
    exact hrest

/-- From a complete file the reader builds the graph that the file spells, and uses only
what it has read. -/
theorem extractGraph_of_spells {name : String} {entries : List Entry} {graph : LockGraph}
    (h : SpellsGraph io text name entries) :
    (extractGraph io left graph ⟨text, false⟩).graph = LockGraph.read name entries ∧
      (extractGraph io left graph ⟨text, false⟩).clean = true := by
  obtain ⟨n, body, rest, ⟨mid, hname, hn⟩, hnodes⟩ := h
  rw [extractGraph, extract_of_spells hname]
  dsimp only
  rw [int_of_spells rfl hn]
  dsimp only
  have hdone := @nodes_of_spells io left (Reading.use
    { stream := ⟨body, false⟩, graph := { name := name }, extractions := 1 }
      (⟨n, true⟩ : Slot Int)) _ _ _ _ hnodes rfl
  exact ⟨hdone.graph, hdone.clean⟩

end Reads

/-! ## What a clean reading has read -/

section Clean
variable {io : Iostream} {left : Leftovers} {r : Reading} {text : List Char} {adr : LockAddress}
  {k : Nat}

theorem spells_of_int (h : (r.int io left).1.read = true) :
    ∃ text v rest, r.stream = ⟨text, false⟩ ∧ io.int.Spells text v rest := by
  obtain ⟨hs, hspells, -⟩ := spells_of_into h
  exact ⟨_, _, _, by rw [← hs], hspells⟩

theorem spells_of_pointer (h : (r.pointer io left).1.read = true) :
    ∃ text v rest, r.stream = ⟨text, false⟩ ∧ io.pointer.Spells text v rest := by
  obtain ⟨hs, hspells, -⟩ := spells_of_into h
  exact ⟨_, _, _, by rw [← hs], hspells⟩

theorem clean_edge (h : (r.edge io left adr).clean = true) : r.clean = true ∧
    ∃ text a mid w rest, r.stream = ⟨text, false⟩ ∧ io.pointer.Spells text a mid ∧
      io.int.Spells mid w rest := by
  simp only [Reading.edge, Reading.use, clean_int, clean_pointer, Bool.and_eq_true] at h
  obtain ⟨⟨hclean, htemp⟩, hw⟩ := h
  obtain ⟨text, a, mid, hr, ha⟩ := spells_of_pointer htemp
  rw [pointer_of_spells hr ha] at hw
  obtain ⟨mid', w, rest, hmid, hw⟩ := spells_of_int hw
  obtain rfl : mid = mid' := (Stream.mk.inj hmid).1
  exact ⟨hclean, text, a, mid, w, rest, hr, ha, hw⟩

theorem clean_of_edges (h : (r.edges io left adr k).clean = true) : r.clean = true := by
  induction k generalizing r with
  | zero => exact h
  | succ k ih => exact (clean_edge (ih h)).1

theorem clean_edges (hr : r.stream = ⟨text, false⟩) (h : (r.edges io left adr k).clean = true) :
    ∃ es rest, SpellsEdges io k text es rest := by
  induction k generalizing r text with
  | zero => exact ⟨[], text, .nil⟩
  | succ k ih =>
    obtain ⟨-, text', a, mid, w, rest, hr', ha, hw⟩ := clean_edge (clean_of_edges h)
    obtain rfl : text = text' := (Stream.mk.inj (hr.symm.trans hr')).1
    obtain ⟨es, rest', hes⟩ := ih (edge_of_spells hr ha hw).stream h
    exact ⟨(a, w) :: es, rest', .cons ha hw hes⟩

theorem clean_node (h : (r.node io left).clean = true) : r.clean = true ∧
    ∃ text a text₁ m text₂ es rest, r.stream = ⟨text, false⟩ ∧ io.pointer.Spells text a text₁ ∧
      io.int.Spells text₁ m text₂ ∧ SpellsEdges io m.toNat text₂ es rest := by
  rw [Reading.node] at h
  dsimp only at h
  have huse := clean_of_edges h
  simp only [Reading.use, clean_int, clean_pointer, Bool.and_eq_true] at huse
  obtain ⟨⟨hclean, htemp⟩, hm⟩ := huse
  obtain ⟨text, a, text₁, hr, ha⟩ := spells_of_pointer htemp
  rw [pointer_of_spells hr ha] at hm
  obtain ⟨mid, m, text₂, hmid, hm⟩ := spells_of_int hm
  obtain rfl : text₁ = mid := (Stream.mk.inj hmid).1
  rw [pointer_of_spells hr ha] at h
  dsimp only [Reading.use] at h
  rw [int_of_spells rfl hm] at h
  obtain ⟨es, rest, hes⟩ := clean_edges rfl h
  exact ⟨hclean, text, a, text₁, m, text₂, es, rest, hr, ha, hm, hes⟩

theorem clean_of_nodes (h : (r.nodes io left k).clean = true) : r.clean = true := by
  induction k generalizing r with
  | zero => exact h
  | succ k ih => exact (clean_node (ih h)).1

theorem clean_nodes (hr : r.stream = ⟨text, false⟩) (h : (r.nodes io left k).clean = true) :
    ∃ entries rest, SpellsNodes io k text entries rest := by
  induction k generalizing r text with
  | zero => exact ⟨[], text, .nil⟩
  | succ k ih =>
    obtain ⟨-, text', a, text₁, m, text₂, es, rest, hr', ha, hm, hes⟩ :=
      clean_node (clean_of_nodes h)
    obtain rfl : text = text' := (Stream.mk.inj (hr.symm.trans hr')).1
    obtain ⟨entries, rest', hentries⟩ := ih (node_of_spells hr ha hm hes).stream h
    exact ⟨(a, es) :: entries, rest', .cons ha hm hes hentries⟩

/-- A reader that has used only what it has read had a complete file, or no name. -/
theorem complete_of_clean {graph : LockGraph}
    (h : (extractGraph io left graph ⟨text, false⟩).clean = true) : Blank text ∨ Complete io text := by
  by_cases hblank : Blank text
  · exact .inl hblank
  · obtain ⟨name, mid, hname⟩ := exists_spells_word hblank
    rw [extractGraph, extract_of_spells hname] at h
    dsimp only at h
    have huse := clean_of_nodes h
    simp only [Reading.use, clean_int, Bool.true_and] at huse
    obtain ⟨mid', n, body, hmid, hn⟩ := spells_of_int huse
    obtain rfl : mid = mid' := (Stream.mk.inj hmid).1
    rw [int_of_spells rfl hn] at h
    obtain ⟨entries, rest, hentries⟩ := clean_nodes rfl h
    exact .inr ⟨name, entries, n, body, rest, ⟨mid, hname, hn⟩, hentries⟩

end Clean

/-! ## Nothing but what is spelled -/

section Entries
variable {io : Iostream} {text : List Char} {k : Nat} {entries : List Entry} {rest : List Char}

/-- Every entry of a list of nodes has a place in the text. -/
theorem SpellsNodes.mem {a : LockAddress} {es : List (LockAddress × Int)}
    (h : SpellsNodes io k text entries rest) (ha : (a, es) ∈ entries) :
    ∃ i before text₁ text₂ m text₃ text₄, i < k ∧ SpellsNodes io i text before text₁ ∧
      io.pointer.Spells text₁ a text₂ ∧ io.int.Spells text₂ m text₃ ∧
      SpellsEdges io m.toNat text₃ es text₄ := by
  induction h with
  | nil => cases ha
  | cons hp hm hes _ ih =>
    rcases List.mem_cons.mp ha with heq | ha
    · obtain ⟨rfl, rfl⟩ := Prod.mk.inj heq
      exact ⟨0, [], _, _, _, _, _, Nat.succ_pos _, .nil, hp, hm, hes⟩
    · obtain ⟨i, before, text₁, text₂, m, text₃, text₄, hi, hbefore, hrest⟩ := ih ha
      exact ⟨i + 1, _ :: before, text₁, text₂, m, text₃, text₄, Nat.succ_lt_succ hi,
        .cons hp hm hes hbefore, hrest⟩

theorem spellsEntry_of_mem {name : String} {a : LockAddress} {es : List (LockAddress × Int)}
    (h : SpellsGraph io text name entries) (ha : (a, es) ∈ entries) : SpellsEntry io text a es := by
  obtain ⟨n, body, rest, hheader, hnodes⟩ := h
  obtain ⟨i, before, text₁, text₂, m, text₃, text₄, hi, hbefore, hp, hm, hes⟩ := hnodes.mem ha
  exact .intro hheader hbefore hi hp hm (Nat.le_refl _) hes

end Entries

/-- The reader has used only values it has read, and its graph has only nodes and edges
that the file spells out. -/
structure Faithful (io : Iostream) (text : List Char) (r : Reading) : Prop where
  clean : r.clean = true
  nodes : ∀ v, v ∈ r.graph.lockNodeMap → SpellsNode io text v
  edges : ∀ a b, r.graph.Edge a b → SpellsEdge io text a b

theorem faithful_of_complete {io : Iostream} {left : Leftovers} {graph : LockGraph}
    {text : List Char} (h : Complete io text) :
    Faithful io text (load io left graph (some text)) := by
  obtain ⟨name, entries, h⟩ := h
  obtain ⟨hgraph, hclean⟩ := @extractGraph_of_spells io left _ _ _ graph h
  refine ⟨hclean, ?_, ?_⟩
  · intro v hv
    rw [load, hgraph] at hv
    obtain ⟨a, es, ha, hv⟩ := LockGraph.mem_read.mp hv
    exact ⟨a, es, spellsEntry_of_mem h ha, hv⟩
  · intro a b hab
    rw [load, hgraph] at hab
    obtain ⟨es, w, ha, hw⟩ := LockGraph.edge_read.mp hab
    exact ⟨es, w, spellsEntry_of_mem h ha, hw⟩

/-- A reader that finds no name leaves an empty graph. -/
theorem faithful_of_blank {io : Iostream} {left : Leftovers} {graph : LockGraph}
    {text : List Char} (h : Blank text) : Faithful io text (load io left graph (some text)) := by
  have hload : (load io left graph (some text)).graph = { graph with lockNodeMap := ∅ } ∧
      (load io left graph (some text)).clean = true := by
    have hnone := extract_blank (f := word) h
    rw [load, extractGraph]
    split
    · exact ⟨rfl, rfl⟩
    · rename_i heq
      rw [heq] at hnone
      cases hnone
  refine ⟨hload.2, ?_, ?_⟩
  · intro v hv
    rw [hload.1] at hv
    simp at hv
  · intro a b hab
    rw [hload.1] at hab
    simp [LockGraph.Edge, LockGraph.outEdges, LockGraph.node] at hab

/-- Loading a file uses only values that it has read, and makes only nodes and edges that
the file spells out, exactly if the file is blank or has all that its counts announce. -/
theorem faithful_iff (io : Iostream) (left : Leftovers) (graph : LockGraph) (text : List Char) :
    Faithful io text (load io left graph (some text)) ↔ Blank text ∨ Complete io text := by
  constructor
  · exact fun h => complete_of_clean h.clean
  · rintro (h | h)
    · exact faithful_of_blank h
    · exact faithful_of_complete h

/-- A saved graph of two nodes, cut off after the target of its edge. -/
def truncated : List Char :=
  (printGraph Lib.Numerals.standard .byAddress (LockGraph.read "g" [(16, [(32, 1)])])).take 16

example : String.ofList truncated = "g 2\n0x10 1\n\t0x20" := by decide

theorem truncated_not_faithful :
    ¬ ∀ (io : Iostream) (left : Leftovers) (graph : LockGraph) (text : List Char),
      Faithful io text (load io left graph (some text)) := by
  intro hall
  have hclean := (hall Lib.Numerals.standard ⟨fun _ => 0, fun _ => 0⟩ { name := "g" } truncated).clean
  exact absurd hclean (by decide)

end Lockout.LockTracer.Storage
