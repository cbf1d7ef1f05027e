import Mathlib.Logic.Function.Basic
import Lockout.LockTracer.Saving

/-! # Nodes in memory

`LockGraph` names a node by the address it stands for. Here a `Node*` is a reference to a
cell of the heap: `getNode` allocates one for an address that has none, `operator>>`
empties the map and leaves the old cells behind, and an edge is kept in two cells. What
lies in memory is a graph of `Graph.lean` again (`Stores`), whatever the calls. -/

namespace Lockout.LockTracer.Pointers
open Std
open Lockout.Lib.TextStream Lockout.LockTracer.Graph Lockout.LockTracer.Storage
open Lockout.LockTracer.Saving

/-- `Node*`. -/
abbrev Ref := Nat

structure Cell where
  value : LockAddress
  outEdges : TreeMap Ref Int := ∅
  inEdges : TreeMap Ref Int := ∅

/-- A `LockGraph` object and the heap. -/
structure Memory where
  name : String
  lockNodeMap : TreeMap LockAddress Ref := ∅
  /-- What `new Node` has given out so far are the references below. -/
  allocated : Nat := 0
  cell : Ref → Cell := fun _ => { value := 0 }

namespace Memory

/-- `lockNodeMap[value] = new Node(value)`. -/
def alloc (h : Memory) (value : LockAddress) : Memory :=
  { h with
    lockNodeMap := h.lockNodeMap.insert value h.allocated
    allocated := h.allocated + 1
    cell := Function.update h.cell h.allocated { value := value } }

/-- `LockGraph::getNode`. -/
def getNode (h : Memory) (value : LockAddress) : Ref × Memory :=
  match h.lockNodeMap[value]? with
  | some p => (p, h)
  | none => (h.allocated, h.alloc value)

def write (h : Memory) (p : Ref) (c : Cell) : Memory := { h with cell := Function.update h.cell p c }

/-- `Node::addInEdge` of `nei`. -/
def addInEdge (h : Memory) (nei par : Ref) (w : Int) : Memory :=
  let inEdges := addWeight (h.cell nei).inEdges par w
  h.write nei { h.cell nei with inEdges := inEdges }

/-- `Node::addEdge` of `p`. -/
def addNodeEdge (h : Memory) (p nei : Ref) (w : Int) : Memory :=
  let outEdges := addWeight (h.cell p).outEdges nei w
  (h.write p { h.cell p with outEdges := outEdges }).addInEdge nei p w

/-- `LockGraph::addEdge`. -/
def addEdge (h : Memory) (src dst : LockAddress) (w : Int) : Memory :=
  let (nei, h) := h.getNode dst
  let (p, h) := h.getNode src
  h.addNodeEdge p nei w

def getOutNeibours (h : Memory) (p : Ref) : List Ref := (h.cell p).outEdges.keys

/-- The loop runs over `outEdges` here as well. -/
def getInNeibours (h : Memory) (p : Ref) : List Ref := (h.cell p).outEdges.keys

def perform (h : Memory) : Call → Memory
  | .getNode value => (h.getNode value).2
  | .addEdge src dst w => h.addEdge src dst w

end Memory

/-! ## Reading -/

section Reading
variable (io : Iostream) (left : Leftovers)

/-- The calls of the inner loop of `operator>>`. -/
def edgeCalls (adr : LockAddress) : Nat → Reading → List Call
  | 0, _ => []
  | k + 1, r =>
    let (temp, r') := r.pointer io left
    let (w, _) := r'.int io left
    .addEdge adr temp.value w.value :: edgeCalls adr k (r.edge io left adr)

/-- The calls of the outer loop. -/
def nodeCalls : Nat → Reading → List Call
  | 0, _ => []
  | k + 1, r =>
    let (temp, r') := r.pointer io left
    let r' := r'.use temp
    let (m, r') := Reading.int io left { r' with graph := r'.graph.getNode temp.value }
    (.getNode temp.value :: edgeCalls io left temp.value m.value.toNat (r'.use m)) ++
      nodeCalls k (r.node io left)

/-- The name that `operator>>` reads and the calls it makes then. -/
def extraction (stream : Stream) : Option (String × List Call) :=
  match stream.extract word with
  | (none, _) => none
  | (some name, stream) =>
    let (n, r) := Reading.int io left { stream := stream, graph := { name := name } }
    some (name, nodeCalls io left n.value.toNat (r.use n))

/-- `operator>>`. The cells of the old nodes stay allocated. -/
def Memory.extract (h : Memory) (stream : Stream) : Memory :=
  let h := { h with lockNodeMap := ∅ }
  match extraction io left stream with
  | none => h
  | some (name, calls) => calls.foldl Memory.perform { h with name := name }

variable {io left}

theorem edges_eq (adr : LockAddress) (k : Nat) (r : Reading) :
    (r.edges io left adr k).graph = (edgeCalls io left adr k r).foldl Call.apply r.graph := by
  induction k generalizing r with
  | zero => rfl
  | succ k ih => exact ih (r.edge io left adr)

theorem nodes_eq (k : Nat) (r : Reading) :
    (r.nodes io left k).graph = (nodeCalls io left k r).foldl Call.apply r.graph := by
  induction k generalizing r with
  | zero => rfl
  | succ k ih =>
    rw [Reading.nodes, ih, nodeCalls, List.foldl_append, List.foldl_cons]
    rw [Reading.node, edges_eq]
    rfl

/-- The reader of `Storage` makes the same calls. -/
theorem extractGraph_eq (graph : LockGraph) (stream : Stream) :
    (extractGraph io left graph stream).graph = match extraction io left stream with
      | none => { graph with lockNodeMap := ∅ }
      | some (name, calls) => build name calls := by
  unfold extractGraph extraction
  dsimp only
  cases stream.extract word with
  | mk name rest =>
    cases name with
    | none => rfl
    | some name => exact nodes_eq _ _

end Reading

/-! ## The graph that lies in memory -/

/-- The node of `a` lies at `p`. -/
def Memory.At (h : Memory) (a : LockAddress) (p : Ref) : Prop := h.lockNodeMap[a]? = some p

instance (h : Memory) (a : LockAddress) (p : Ref) : Decidable (h.At a p) :=
  inferInstanceAs (Decidable (h.lockNodeMap[a]? = some p))

/-- One direction of the edges: the cells of the map name cells of the map, and with the
weights the graph has. -/
structure Mirrors (h : Memory) (edges : Cell → TreeMap Ref Int)
    (listed : LockAddress → AdjacencyList) : Prop where
  stored : ∀ {a p q}, h.At a p → q ∈ edges (h.cell p) → ∃ b, h.At b q
  same : ∀ {a b p q}, h.At a p → h.At b q → (edges (h.cell p))[q]? = (listed a)[b]?

/-- The graph lies in memory, each node at one place and under its own address. -/
structure Stores (h : Memory) (g : LockGraph) : Prop where
  name : h.name = g.name
  mem : ∀ a, a ∈ g.lockNodeMap ↔ ∃ p, h.At a p
  value : ∀ {a p}, h.At a p → (h.cell p).value = a
  allocated : ∀ {a p}, h.At a p → p < h.allocated
  outEdges : Mirrors h Cell.outEdges g.outEdges
  inEdges : Mirrors h Cell.inEdges g.inEdges

section Steps
variable {h h' : Memory} {g : LockGraph} {edges : Cell → TreeMap Ref Int}
  {listed : LockAddress → AdjacencyList} {a b v src dst : LockAddress} {p q : Ref} {w : Int}
  {c : Cell}

theorem Memory.At.ref_eq (hp : h.At a p) (hq : h.At a q) : p = q :=
  Option.some.inj (hp.symm.trans hq)

theorem Stores.address_eq (hs : Stores h g) (hp : h.At a p) (hq : h.At b p) : a = b :=
  (hs.value hp).symm.trans (hs.value hq)

theorem stores_empty (name : String) : Stores { name := name } { name := name } where
  name := rfl
  mem a := by simp [Memory.At]
  value hp := by simp [Memory.At] at hp
  allocated hp := by simp [Memory.At] at hp
  outEdges := ⟨fun hp => by simp [Memory.At] at hp, fun hp => by simp [Memory.At] at hp⟩
  inEdges := ⟨fun hp => by simp [Memory.At] at hp, fun hp => by simp [Memory.At] at hp⟩

@[simp] theorem cell_alloc_new : (h.alloc v).cell h.allocated = { value := v } :=
  Function.update_self ..

theorem cell_alloc (hp : p < h.allocated) : (h.alloc v).cell p = h.cell p :=
  Function.update_of_ne (Nat.ne_of_lt hp) ..

theorem at_alloc (hnew : h.lockNodeMap[v]? = none) :
    (h.alloc v).At a p ↔ (a = v ∧ p = h.allocated) ∨ h.At a p := by
  unfold Memory.At Memory.alloc
  dsimp only
  rw [TreeMap.getElem?_insert]
  by_cases ha : a = v
  · subst ha
    simp [hnew, eq_comm]
  · simp [ha, Ne.symm ha]

theorem Mirrors.alloc (hm : Mirrors h edges listed) (hbelow : ∀ {a p}, h.At a p → p < h.allocated)
    (hnew : h.lockNodeMap[v]? = none) (hedges : edges { value := v } = ∅)
    (hsrc : ∀ b : LockAddress, (listed v)[b]? = none)
    (hdst : ∀ a, (listed a)[v]? = none) : Mirrors (h.alloc v) edges listed where
  stored {a p q} hp hq := by
    obtain ⟨rfl, rfl⟩ | hp := (at_alloc hnew).mp hp
    · simp [hedges] at hq
    · rw [cell_alloc (hbelow hp)] at hq
      obtain ⟨b, hb⟩ := hm.stored hp hq
      exact ⟨b, (at_alloc hnew).mpr (.inr hb)⟩
  same {a b p q} hp hq := by
    obtain ⟨rfl, rfl⟩ | hold := (at_alloc hnew).mp hp
    · simp [hedges, hsrc]
    · rw [cell_alloc (hbelow hold)]
      obtain ⟨rfl, rfl⟩ | hq := (at_alloc hnew).mp hq
      · -- no stored cell can name the one that is allocated now
        rw [hdst]
        refine TreeMap.getElem?_eq_none fun hmem => ?_
        obtain ⟨b, hb⟩ := hm.stored hold hmem
        exact Nat.lt_irrefl _ (hbelow hb)
      · exact hm.same hold hq

theorem inEdges_getNode : (g.getNode v).inEdges a = g.inEdges a := by
  simp [LockGraph.inEdges]

/-- A node without edges to be told from, where the map has none. -/
theorem edges_of_notMem (hg : Transposed g) (hfree : v ∉ g.lockNodeMap) (u : LockAddress) :
    (g.outEdges v)[u]? = none ∧ (g.outEdges u)[v]? = none ∧ (g.inEdges v)[u]? = none ∧
      (g.inEdges u)[v]? = none := by
  have hout : ∀ u, ¬ g.Edge v u := fun u hu => hfree hu.mem
  have hin : ∀ u, ¬ g.Edge u v := fun u hu => hfree (hg.closed u v hu)
  refine ⟨TreeMap.getElem?_eq_none (hout u), TreeMap.getElem?_eq_none (hin u),
    TreeMap.getElem?_eq_none ?_, TreeMap.getElem?_eq_none ?_⟩
  · rw [hg.edge]
    exact hin u
  · rw [hg.edge]
    exact hout u

/-- `getNode` returns the place of the node, in the memory of the new graph. -/
theorem Stores.getNode (hs : Stores h g) (hg : Transposed g) :
    (h.getNode v).2.At v (h.getNode v).1 ∧ Stores (h.getNode v).2 (g.getNode v) ∧
      ∀ {a p}, h.At a p → (h.getNode v).2.At a p := by
  unfold Memory.getNode
  cases hv : h.lockNodeMap[v]? with
  | some p =>
    have hmem : g.lockNodeMap.contains v = true := (hs.mem v).mpr ⟨p, hv⟩
    have hsame : g.getNode v = g := by rw [LockGraph.getNode, if_pos hmem]
    rw [hsame]
    exact ⟨hv, hs, id⟩
  | none =>
    have hfree : v ∉ g.lockNodeMap := fun hmem => by
      obtain ⟨p, hp⟩ := (hs.mem v).mp hmem
      rw [Memory.At, hv] at hp
      cases hp
    have hkeep : ∀ {a p}, h.At a p → (h.alloc v).At a p := fun hp => (at_alloc hv).mpr (.inr hp)
    have hnone := edges_of_notMem hg hfree
    refine ⟨(at_alloc hv).mpr (.inl ⟨rfl, rfl⟩), ?_, hkeep⟩
    have hout : (g.getNode v).outEdges = g.outEdges := funext fun a => LockGraph.outEdges_getNode
    have hin : (g.getNode v).inEdges = g.inEdges := funext fun a => inEdges_getNode
    constructor
    · exact hs.name.trans name_getNode.symm
    · intro a
      rw [LockGraph.mem_getNode, hs.mem]
      constructor
      · rintro (rfl | ⟨p, hp⟩)
        · exact ⟨_, (at_alloc hv).mpr (.inl ⟨rfl, rfl⟩)⟩
        · exact ⟨p, hkeep hp⟩
      · rintro ⟨p, hp⟩
        exact ((at_alloc hv).mp hp).imp And.left fun hp => ⟨p, hp⟩
    · intro a p hp
      obtain ⟨rfl, rfl⟩ | hp := (at_alloc hv).mp hp
      · rw [cell_alloc_new]
      · rw [cell_alloc (hs.allocated hp), hs.value hp]
    · intro a p hp
      obtain ⟨rfl, rfl⟩ | hp := (at_alloc hv).mp hp
      · exact Nat.lt_succ_self _
      · exact Nat.lt_succ_of_lt (hs.allocated hp)
    · rw [hout]
      exact hs.outEdges.alloc hs.allocated hv rfl (fun b => (hnone b).1) fun a => (hnone a).2.1
    · rw [hin]
      exact hs.inEdges.alloc hs.allocated hv rfl (fun b => (hnone b).2.2.1) fun a => (hnone a).2.2.2

theorem at_write : (h.write p c).At a q ↔ h.At a q := Iff.rfl

theorem cell_write : (h.write p c).cell q = if q = p then c else h.cell q :=
  Function.update_apply ..

theorem getElem?_addWeight (e : AdjacencyList) : (addWeight e b w)[a]? =
    if a = b then some (e.getD b 0 + w) else e[a]? := by
  by_cases ha : a = b
  · rw [if_pos ha, TreeMap.getElem?_eq_some_getD (mem_addWeight.mpr (.inl ha)), getD_addWeight,
      if_pos ha]
  · rw [if_neg ha]
    refine getElem?_of_weights ?_ ?_
    · simp [ha]
    · rw [getD_addWeight, if_neg ha]

/-- One half of an edge update. -/
theorem Mirrors.addWeight (hm : Mirrors h edges listed) (hs : ∀ {a b p}, h.At a p → h.At b p → a = b)
    (hp : h.At src p) (hq : h.At dst q) (hc : edges c = addWeight (edges (h.cell p)) q w) :
    Mirrors (h.write p c) edges fun a => if a = src then addWeight (listed src) dst w else listed a where
  stored {a p' q'} hp' hq' := by
    rw [at_write] at hp'
    rw [cell_write] at hq'
    split at hq'
    · rename_i hpp
      subst hpp
      rw [hc, mem_addWeight] at hq'
      obtain rfl | hq' := hq'
      · exact ⟨dst, hq⟩
      · exact hm.stored hp hq'
    · exact hm.stored hp' hq'
  same {a b p' q'} hp' hq' := by
    rw [at_write] at hp' hq'
    rw [cell_write]
    by_cases ha : a = src
    · subst ha
      obtain rfl := hp'.ref_eq hp
      rw [if_pos rfl, if_pos rfl, hc, getElem?_addWeight, getElem?_addWeight]
      by_cases hb : b = dst
      · subst hb
        obtain rfl := hq'.ref_eq hq
        rw [if_pos rfl, if_pos rfl, TreeMap.getD_eq_getD_getElem?, TreeMap.getD_eq_getD_getElem?,
          hm.same hp hq]
      · have hne : q' ≠ q := by
          rintro rfl
          exact hb (hs hq' hq)
        rw [if_neg hb, if_neg hne, hm.same hp hq']
    · have hne : p' ≠ p := by
        rintro rfl
        exact ha (hs hp' hp)
      rw [if_neg ha, if_neg hne, hm.same hp' hq']

/-- The other direction of the edges is not touched. -/
theorem Mirrors.write (hm : Mirrors h edges listed) (hc : edges c = edges (h.cell p)) :
    Mirrors (h.write p c) edges listed := by
  have hcell : ∀ q, edges ((h.write p c).cell q) = edges (h.cell q) := by
    intro q
    rw [cell_write]
    split
    · rename_i hq
      rw [hc, hq]
    · rfl
  constructor
  · intro a p' q' hp' hq'
    rw [hcell] at hq'
    exact hm.stored hp' hq'
  · intro a b p' q' hp' hq'
    rw [hcell]
    exact hm.same hp' hq'

/-- `Node::addEdge` on the places of two nodes: both halves, also where they fall on one cell. -/
theorem Stores.addNodeEdge (hs : Stores h g) (hsrc : h.At src p) (hdst : h.At dst q) :
    let outEdges := fun a => if a = src then addWeight (g.outEdges src) dst w else g.outEdges a
    let inEdges := fun a => if a = dst then addWeight (g.inEdges dst) src w else g.inEdges a
    (∀ {a r}, (h.addNodeEdge p q w).At a r → ((h.addNodeEdge p q w).cell r).value = a) ∧
      Mirrors (h.addNodeEdge p q w) Cell.outEdges outEdges ∧
      Mirrors (h.addNodeEdge p q w) Cell.inEdges inEdges := by
  intro outEdges inEdges
  have hout : Mirrors _ Cell.outEdges outEdges := hs.outEdges.addWeight hs.address_eq hsrc hdst
    (c := { h.cell p with outEdges := addWeight (h.cell p).outEdges q w }) rfl
  have hin := hs.inEdges.write (p := p)
    (c := { h.cell p with outEdges := addWeight (h.cell p).outEdges q w }) rfl
  refine ⟨fun {a r} hr => ?_, hout.write rfl, hin.addWeight hs.address_eq hdst hsrc rfl⟩
  have hvalue := hs.value (show h.At a r from hr)
  unfold Memory.addNodeEdge Memory.addInEdge
  dsimp only
  rw [cell_write, cell_write, cell_write]
  split
  · rename_i hq
    subst hq
    split
    · rename_i hp
      rw [← hp, hvalue]
    · exact hvalue
  · split
    · rename_i hp
      rw [← hp, hvalue]
    · exact hvalue

/-- `addEdge` updates the memory as it updates the graph. -/
theorem Stores.addEdge (hs : Stores h g) (hg : Transposed g) :
    Stores (h.addEdge src dst w) (g.addEdge src dst w) := by
  obtain ⟨hdst, hs, -⟩ := hs.getNode hg (v := dst)
  obtain ⟨hsrc, hs, hkeep⟩ := hs.getNode hg.getNode (v := src)
  have hdst := hkeep hdst
  obtain ⟨hvalue, hout, hin⟩ := hs.addNodeEdge hsrc hdst (w := w)
  have houtEdges : (g.addEdge src dst w).outEdges = fun a => if a = src then
      addWeight (((g.getNode dst).getNode src).outEdges src) dst w
      else ((g.getNode dst).getNode src).outEdges a := by
    funext a
    simp [LockGraph.outEdges_addEdge]
  have hinEdges : (g.addEdge src dst w).inEdges = fun a => if a = dst then
      addWeight (((g.getNode dst).getNode src).inEdges dst) src w
      else ((g.getNode dst).getNode src).inEdges a := by
    funext a
    rw [LockGraph.inEdges_addEdge, inEdges_getNode, inEdges_getNode, inEdges_getNode, inEdges_getNode]
  constructor
  · rw [name_addEdge, ← name_getNode (g := g) (v := dst), ← name_getNode (v := src), ← hs.name]
    rfl
  · intro a
    rw [LockGraph.mem_addEdge, ← LockGraph.mem_getNode, ← LockGraph.mem_getNode, hs.mem]
    rfl
  · exact hvalue
  · exact hs.allocated
  · rw [houtEdges]
    exact hout
  · rw [hinEdges]
    exact hin

theorem Stores.perform (hs : Stores h g) (hg : Transposed g) (call : Call) :
    Stores (h.perform call) (call.apply g) := by
  cases call with
  | getNode v => exact (hs.getNode hg).2.1
  | addEdge src dst w => exact hs.addEdge hg

theorem Stores.performAll (hs : Stores h g) (hg : Transposed g) (calls : List Call) :
    Stores (calls.foldl Memory.perform h) (calls.foldl Call.apply g) := by
  induction calls generalizing h g with
  | nil => exact hs
  | cons call calls ih => exact ih (hs.perform hg call) (foldl_apply [call] hg).1

/-- An empty map stores the empty graph, whatever cells are left. -/
theorem stores_cleared (name : String) :
    Stores { h with lockNodeMap := ∅, name := name } { name := name } := by
  have hnone : ∀ {a p}, ¬ Memory.At { h with lockNodeMap := ∅, name := name } a p := by
    simp [Memory.At]
  exact ⟨rfl, fun a => by simp [Memory.At], fun hp => absurd hp hnone, fun hp => absurd hp hnone,
    ⟨fun hp => absurd hp hnone, fun hp => absurd hp hnone⟩,
    ⟨fun hp => absurd hp hnone, fun hp => absurd hp hnone⟩⟩

end Steps

/-! ## Graphs built by any operations -/

inductive Operation
  | call (c : Call)
  | extract (io : Iostream) (left : Leftovers) (stream : Stream)

def Memory.apply (h : Memory) : Operation → Memory
  | .call c => h.perform c
  | .extract io left stream => h.extract io left stream

/-- The same operation on the graph of `Graph.lean`. -/
def Operation.apply (g : LockGraph) : Operation → LockGraph
  | .call c => c.apply g
  | .extract io left stream => (extractGraph io left g stream).graph

/-- A `LockGraph` of the given name after the operations. -/
def construct (name : String) (ops : List Operation) : Memory :=
  ops.foldl Memory.apply { name := name }

/-- The calls since the map was emptied last, with those of that `operator>>`. -/
def current (ops : List Operation) : List Call :=
  ops.foldl (fun calls op => match op with
    | .call c => calls ++ [c]
    | .extract io left stream => ((extraction io left stream).map Prod.snd).getD []) []

/-- An edge has been added between the two addresses, by a call or from a stream, and the map
has not been emptied since. -/
def Linked (ops : List Operation) (a b : LockAddress) : Prop := ∃ w, .addEdge a b w ∈ current ops

section Operations
variable {h : Memory} {g : LockGraph} {name : String} {ops : List Operation} {a b : LockAddress}
  {p q : Ref}

theorem current_call (c : Call) : current (ops ++ [.call c]) = current ops ++ [c] := by
  simp [current]

theorem current_extract (io : Iostream) (left : Leftovers) (stream : Stream) :
    current (ops ++ [.extract io left stream]) =
      ((extraction io left stream).map Prod.snd).getD [] := by
  simp [current]

/-- The graph is the one that the calls since the last `operator>>` build from nothing. -/
theorem foldl_apply_eq (name : String) (ops : List Operation) : ∃ name',
    ops.foldl Operation.apply { name := name } = build name' (current ops) := by
  induction ops using List.reverseRecOn with
  | nil => exact ⟨name, rfl⟩
  | append_singleton ops op ih =>
    obtain ⟨name', hbuild⟩ := ih
    rw [List.foldl_append, hbuild, List.foldl_cons, List.foldl_nil, Operation.apply.eq_def]
    cases op with
    | call c =>
      rw [current_call]
      exact ⟨name', by simp [build]⟩
    | extract io left stream =>
      dsimp only
      rw [extractGraph_eq, current_extract]
      cases extraction io left stream with
      | none => exact ⟨(build name' (current ops)).name, rfl⟩
      | some read => exact ⟨read.1, rfl⟩

/-- What lies in memory is the graph of `Graph.lean` after the same operations. -/
theorem stores_construct (name : String) (ops : List Operation) :
    Stores (construct name ops) (ops.foldl Operation.apply { name := name }) := by
  induction ops using List.reverseRecOn with
  | nil => exact stores_empty name
  | append_singleton ops op ih =>
    obtain ⟨name', hbuild⟩ := foldl_apply_eq name ops
    unfold construct at ih ⊢
    rw [List.foldl_append, List.foldl_append]
    have htransposed : Transposed (ops.foldl Operation.apply { name := name }) := by
      rw [hbuild]
      exact transposed_build _
    cases op with
    | call c => exact ih.perform htransposed c
    | extract io left stream =>
      rw [List.foldl_cons, List.foldl_nil, List.foldl_cons, List.foldl_nil, Operation.apply,
        extractGraph_eq, Memory.apply, Memory.extract]
      cases extraction io left stream with
      | none =>
        have hclear := stores_cleared (h := ops.foldl Memory.apply { name := name })
          (ops.foldl Memory.apply { name := name }).name
        dsimp only
        rw [← ih.name]
        exact hclear
      | some read =>
        exact (stores_cleared read.1).performAll transposed_empty read.2

theorem edge_foldl_apply (calls : List Call) :
    (calls.foldl Call.apply g).Edge a b ↔ g.Edge a b ∨ ∃ w, .addEdge a b w ∈ calls := by
  induction calls generalizing g with
  | nil => simp
  | cons call calls ih =>
    rw [List.foldl_cons, ih]
    cases call with
    | getNode v => simp [Call.apply, LockGraph.Edge]
    | addEdge src dst w =>
      rw [Call.apply, LockGraph.edge_addEdge]
      constructor
      · rintro ((⟨rfl, rfl⟩ | hedge) | ⟨w', hw⟩)
        · exact .inr ⟨w, List.mem_cons_self⟩
        · exact .inl hedge
        · exact .inr ⟨w', List.mem_cons_of_mem _ hw⟩
      · rintro (hedge | ⟨w', hw⟩)
        · exact .inl (.inr hedge)
        · obtain heq | hw := List.mem_cons.mp hw
          · injection heq with ha hb
            exact .inl (.inl ⟨ha, hb⟩)
          · exact .inr ⟨w', hw⟩

/-- The edges are the linked pairs. -/
theorem edge_iff_linked : (ops.foldl Operation.apply { name := name }).Edge a b ↔ Linked ops a b := by
  obtain ⟨name', hbuild⟩ := foldl_apply_eq name ops
  rw [hbuild, build, edge_foldl_apply]
  simp [LockGraph.Edge, LockGraph.outEdges, LockGraph.node, Linked]

theorem transposed_foldl_apply : Transposed (ops.foldl Operation.apply { name := name }) := by
  obtain ⟨name', hbuild⟩ := foldl_apply_eq name ops
  rw [hbuild]
  exact transposed_build _

/-- The forward edge in one cell is the backward edge in the other. -/
theorem Stores.edges_agree (hs : Stores h g) (hg : Transposed g) (hp : h.At a p) (hq : h.At b q) :
    (h.cell p).outEdges[q]? = (h.cell q).inEdges[p]? := by
  rw [hs.outEdges.same hp hq, hs.inEdges.same hq hp]
  by_cases hedge : g.Edge a b
  · have hback : a ∈ g.inEdges b := (hg.edge a b).mpr hedge
    rw [TreeMap.getElem?_eq_some_getD hedge, TreeMap.getElem?_eq_some_getD hback, hg.weight,
      LockGraph.weight_eq_getD]
  · have hback : a ∉ g.inEdges b := fun hin => hedge ((hg.edge a b).mp hin)
    rw [TreeMap.getElem?_eq_none hedge, TreeMap.getElem?_eq_none hback]

theorem Stores.mem_getOutNeibours (hs : Stores h g) (hp : h.At a p) (hq : h.At b q) :
    q ∈ h.getOutNeibours p ↔ g.Edge a b := by
  unfold Memory.getOutNeibours LockGraph.Edge
  rw [TreeMap.mem_keys, TreeMap.mem_iff_isSome_getElem?, hs.outEdges.same hp hq,
    ← TreeMap.mem_iff_isSome_getElem?]

end Operations

/-- The forward and the backward view of the nodes of the map agree, their neighbours are
nodes of the map, each stored under its own address, and so do the two lists of neighbours. -/
structure Agrees (h : Memory) : Prop where
  edges : ∀ {a b p q}, h.At a p → h.At b q → ∀ w,
    (h.cell p).outEdges[q]? = some w ↔ (h.cell q).inEdges[p]? = some w
  neighbours : ∀ {a p q}, h.At a p → q ∈ (h.cell p).outEdges ∨ q ∈ (h.cell p).inEdges →
    h.At (h.cell q).value q
  accessors : ∀ {a b p q}, h.At a p → h.At b q →
    (p ∈ h.getInNeibours q ↔ q ∈ h.getOutNeibours p)

/-- Whatever operations have built the graph, its two views agree up to the neighbour lists,
and these agree just where every linked pair is linked the other way as well. -/
theorem agrees_construct_iff (name : String) (ops : List Operation) :
    Agrees (construct name ops) ↔ ∀ a b, Linked ops a b → Linked ops b a := by
  have hs := stores_construct name ops
  have hg : Transposed (ops.foldl Operation.apply { name := name }) := transposed_foldl_apply
  have hin : ∀ {a b p q}, (construct name ops).At a p → (construct name ops).At b q →
      (p ∈ (construct name ops).getInNeibours q ↔ Linked ops b a) := fun hp hq =>
    (hs.mem_getOutNeibours hq hp).trans edge_iff_linked
  have hout : ∀ {a b p q}, (construct name ops).At a p → (construct name ops).At b q →
      (q ∈ (construct name ops).getOutNeibours p ↔ Linked ops a b) := fun hp hq =>
    (hs.mem_getOutNeibours hp hq).trans edge_iff_linked
  constructor
  · intro hagrees a b hlinked
    have hedge : (ops.foldl Operation.apply { name := name }).Edge a b :=
      edge_iff_linked.mpr hlinked
    obtain ⟨p, hp⟩ := (hs.mem a).mp hedge.mem
    obtain ⟨q, hq⟩ := (hs.mem b).mp (hg.closed a b hedge)
    exact (hin hp hq).mp ((hagrees.accessors hp hq).mpr ((hout hp hq).mpr hlinked))
  · intro hsymm
    refine ⟨fun hp hq w => ?_, ?_, fun hp hq => ?_⟩
    · rw [hs.edges_agree hg hp hq]
    · rintro a p q hp (hq | hq)
      · obtain ⟨b, hb⟩ := hs.outEdges.stored hp hq
        rwa [hs.value hb]
      · obtain ⟨b, hb⟩ := hs.inEdges.stored hp hq
        rwa [hs.value hb]
    · rw [hin hp hq, hout hp hq]
      exact ⟨hsymm _ _, hsymm _ _⟩

/-- One edge: mutex 2 lists no mutex it can be reached from. -/
theorem single_edge_disagrees : ¬ ∀ (name : String) (ops : List Operation),
    Agrees (construct name ops) := by
  intro hall
  have hagrees := hall "g" [.call (.addEdge 1 2 1)]
  have hone : (construct "g" [.call (.addEdge 1 2 1)]).At 1 1 := by decide
  have htwo : (construct "g" [.call (.addEdge 1 2 1)]).At 2 0 := by decide
  have hnone : 1 ∉ (construct "g" [.call (.addEdge 1 2 1)]).getInNeibours 0 := by decide
  exact hnone ((hagrees.accessors hone htwo).mpr (by decide))

end Lockout.LockTracer.Pointers
