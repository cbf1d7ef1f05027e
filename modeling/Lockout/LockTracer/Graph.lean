import Mathlib.Data.Finset.Card
import Mathlib.Logic.Relation

/-! # The lock-order graph of the tracer

`LockGraph` and its nodes, as `LockTracer.cpp` keeps them. `getNode` creates at
most one node for an address, so a `Node*` is named here by the address it stands
for. The order of a `NodeSet` is the order of heap addresses and is left open
(`NodeOrder`). Edge weights are unbounded integers. -/

namespace Lockout.LockTracer.Graph
open Std

/-- `pthread_mutex_t*`. -/
abbrev LockAddress := Nat

/-- `map<Node*, int>`. -/
abbrev AdjacencyList := TreeMap LockAddress Int

/-- `edges[nei] += w`, after the entry has been created with weight 0. -/
def addWeight (edges : AdjacencyList) (nei : LockAddress) (w : Int) : AdjacencyList :=
  let edges := if edges.contains nei then edges else edges.insert nei 0
  edges.insert nei (edges.getD nei 0 + w)

structure Node where
  value : LockAddress
  outEdges : AdjacencyList := ∅
  inEdges : AdjacencyList := ∅

namespace Node

def addInEdge (n : Node) (par : LockAddress) (w : Int) : Node :=
  { n with inEdges := addWeight n.inEdges par w }

/-- The half of `addEdge` that updates the source node. -/
def addOutEdge (n : Node) (nei : LockAddress) (w : Int) : Node :=
  { n with outEdges := addWeight n.outEdges nei w }

def getEdgeWeight (n : Node) (nei : LockAddress) : Int :=
  if n.outEdges.contains nei then n.outEdges.getD nei 0 else 0

def getOutNeibours (n : Node) : List LockAddress := n.outEdges.keys

/-- The source collects the keys of `outEdges` here as well. -/
def getInNeibours (n : Node) : List LockAddress := n.outEdges.keys

end Node

structure LockGraph where
  name : String
  lockNodeMap : TreeMap LockAddress Node := ∅

/-- The iteration order of a `NodeSet`: some permutation of its elements. -/
structure NodeOrder where
  iterate : List LockAddress → List LockAddress
  perm : ∀ nodes, (iterate nodes).Perm nodes

/-- The order in which nodes happen to have been allocated by address. -/
def NodeOrder.byAddress : NodeOrder := ⟨id, fun nodes => List.Perm.refl nodes⟩

theorem NodeOrder.mem_iterate (ord : NodeOrder) {nodes : List LockAddress} {v : LockAddress} :
    v ∈ ord.iterate nodes ↔ v ∈ nodes := (ord.perm nodes).mem_iff

namespace LockGraph

def getNode (g : LockGraph) (value : LockAddress) : LockGraph :=
  if g.lockNodeMap.contains value then g
  else { g with lockNodeMap := g.lockNodeMap.insert value { value := value } }

def addEdge (g : LockGraph) (src dst : LockAddress) (w : Int) : LockGraph :=
  let g := (g.getNode dst).getNode src
  let nodes := g.lockNodeMap.modify src fun n => n.addOutEdge dst w
  { g with lockNodeMap := nodes.modify dst fun n => n.addInEdge src w }

def size (g : LockGraph) : Nat := g.lockNodeMap.size

def getNodeSet (g : LockGraph) : List LockAddress := g.lockNodeMap.keys

/-- The node stored for an address, a fresh one where there is none. -/
def node (g : LockGraph) (v : LockAddress) : Node := g.lockNodeMap.getD v { value := v }

/-- The out-edges stored at an address. -/
def outEdges (g : LockGraph) (v : LockAddress) : AdjacencyList := (g.node v).outEdges

/-- The in-edges stored at an address. -/
def inEdges (g : LockGraph) (v : LockAddress) : AdjacencyList := (g.node v).inEdges

/-- `getEdgeWeight` of the node stored at an address. -/
def weight (g : LockGraph) (a b : LockAddress) : Int := (g.node a).getEdgeWeight b

/-- The two nested loops of `operator>>` on the entries it has extracted. -/
def read (name : String) (entries : List (LockAddress × List (LockAddress × Int))) : LockGraph :=
  entries.foldl
    (fun g entry => entry.2.foldl (fun g e => g.addEdge entry.1 e.1 e.2) (g.getNode entry.1))
    { name := name }

/-! ## Reachability -/

def Edge (g : LockGraph) (a b : LockAddress) : Prop := b ∈ g.outEdges a

def Reachable (g : LockGraph) : LockAddress → LockAddress → Prop := Relation.ReflTransGen g.Edge

instance (g : LockGraph) (a b : LockAddress) : Decidable (g.Edge a b) :=
  inferInstanceAs (Decidable (b ∈ g.outEdges a))

instance (g : LockGraph) (v : LockAddress) : Decidable (v ∈ g.lockNodeMap) :=
  inferInstanceAs (Decidable (g.lockNodeMap.contains v = true))

/-- Every neighbour is a node of the graph. -/
def Closed (g : LockGraph) : Prop := ∀ a b, g.Edge a b → b ∈ g.lockNodeMap

end LockGraph

/-! ## Weight updates -/

@[simp] theorem mem_addWeight {edges : AdjacencyList} {nei a : LockAddress} {w : Int} :
    a ∈ addWeight edges nei w ↔ a = nei ∨ a ∈ edges := by
  unfold addWeight
  by_cases h : edges.contains nei = true <;> simp [h, TreeMap.mem_insert, @eq_comm _ a nei]

theorem getD_addWeight (edges : AdjacencyList) (nei a : LockAddress) (w : Int) :
    (addWeight edges nei w).getD a 0 =
      if a = nei then edges.getD nei 0 + w else edges.getD a 0 := by
  have hdef : (if edges.contains nei then edges else edges.insert nei 0).getD nei 0 =
      edges.getD nei 0 := by
    by_cases h : nei ∈ edges
    · simp [h]
    · simp [h, TreeMap.getD_eq_fallback]
  unfold addWeight
  dsimp only
  rw [TreeMap.getD_insert, hdef]
  by_cases ha : a = nei
  · simp [ha]
  · have hne : ¬ compare nei a = .eq := by simpa using Ne.symm ha
    rw [if_neg hne, if_neg ha]
    split
    · rfl
    · rw [TreeMap.getD_insert, if_neg hne]

namespace LockGraph
variable {g : LockGraph} {src dst a b v : LockAddress} {w : Int}

theorem weight_eq_getD : g.weight a b = (g.outEdges a).getD b 0 := by
  unfold weight outEdges Node.getEdgeWeight
  split
  · rfl
  · rename_i h
    exact (TreeMap.getD_eq_fallback (by simpa using h)).symm

/-! ## What `getNode` and `addEdge` change -/

@[simp] theorem mem_getNode : v ∈ (g.getNode a).lockNodeMap ↔ v = a ∨ v ∈ g.lockNodeMap := by
  unfold getNode
  split
  · rename_i h
    have ha : a ∈ g.lockNodeMap := by simpa using h
    constructor
    · exact Or.inr
    · rintro (rfl | hv)
      · exact ha
      · exact hv
  · simp [TreeMap.mem_insert, @eq_comm _ v a]

@[simp] theorem node_getNode : (g.getNode a).node v = g.node v := by
  unfold getNode node
  split
  · rfl
  · rename_i h
    rw [TreeMap.getD_insert]
    split
    · rename_i hav
      obtain rfl : a = v := by simpa using hav
      exact (TreeMap.getD_eq_fallback (by simpa using h)).symm
    · rfl

@[simp] theorem outEdges_getNode : (g.getNode a).outEdges v = g.outEdges v := by
  simp [outEdges]

@[simp] theorem weight_getNode : (g.getNode v).weight a b = g.weight a b := by
  simp [weight]

@[simp] theorem mem_addEdge : v ∈ (g.addEdge src dst w).lockNodeMap ↔
    v = src ∨ v = dst ∨ v ∈ g.lockNodeMap := by
  simp [addEdge, TreeMap.mem_modify]

theorem node_modify {f : Node → Node} (ha : a ∈ g.lockNodeMap) :
    ({ g with lockNodeMap := g.lockNodeMap.modify a f } : LockGraph).node v =
      if v = a then f (g.node a) else g.node v := by
  unfold node
  rw [TreeMap.getD_eq_getD_getElem?, TreeMap.getElem?_modify]
  by_cases hv : v = a
  · subst hv
    obtain ⟨n, hn⟩ := TreeMap.mem_iff_isSome_getElem?.mp ha |> Option.isSome_iff_exists.mp
    simp [hn, TreeMap.getD_eq_getD_getElem?]
  · have hne : ¬ compare a v = .eq := by simpa using Ne.symm hv
    rw [if_neg hne, if_neg hv, TreeMap.getD_eq_getD_getElem?]

/-- Both halves of an update, also where they fall on one node. -/
theorem node_addEdge : (g.addEdge src dst w).node v =
    { g.node v with
      outEdges := if v = src then addWeight (g.outEdges src) dst w else g.outEdges v
      inEdges := if v = dst then addWeight (g.inEdges dst) src w else g.inEdges v } := by
  have hdst : dst ∈ ({ (g.getNode dst).getNode src with
      lockNodeMap := ((g.getNode dst).getNode src).lockNodeMap.modify src
        fun n => n.addOutEdge dst w } : LockGraph).lockNodeMap := by
    simp [TreeMap.mem_modify]
  have hsrc : src ∈ ((g.getNode dst).getNode src).lockNodeMap := by simp
  unfold outEdges inEdges addEdge
  rw [node_modify hdst, node_modify hsrc, node_modify hsrc]
  by_cases hvd : v = dst <;> by_cases hvs : v = src <;>
    simp_all [Node.addInEdge, Node.addOutEdge]

theorem outEdges_addEdge : (g.addEdge src dst w).outEdges a =
    if a = src then addWeight (g.outEdges src) dst w else g.outEdges a := by
  rw [outEdges, node_addEdge]

theorem inEdges_addEdge : (g.addEdge src dst w).inEdges a =
    if a = dst then addWeight (g.inEdges dst) src w else g.inEdges a := by
  rw [inEdges, node_addEdge]

theorem edge_addEdge : (g.addEdge src dst w).Edge a b ↔ (a = src ∧ b = dst) ∨ g.Edge a b := by
  unfold Edge
  rw [outEdges_addEdge]
  by_cases ha : a = src
  · subst ha; simp
  · simp [ha]

theorem weight_addEdge : (g.addEdge src dst w).weight a b =
    g.weight a b + if a = src ∧ b = dst then w else 0 := by
  simp only [weight_eq_getD, outEdges_addEdge]
  by_cases ha : a = src
  · subst ha
    rw [if_pos rfl, getD_addWeight]
    by_cases hb : b = dst <;> simp [hb]
  · simp [ha]

/-! ## Loaded graphs -/

theorem Closed.getNode (h : g.Closed) : (g.getNode v).Closed := by
  intro a b hab
  have : g.Edge a b := by simpa [Edge] using hab
  simp [h a b this]

theorem Closed.addEdge (h : g.Closed) : (g.addEdge src dst w).Closed := by
  intro a b hab
  rcases edge_addEdge.mp hab with ⟨-, rfl⟩ | hab
  · simp
  · simp [h a b hab]

theorem closed_empty (name : String) : ({ name := name } : LockGraph).Closed := by
  intro a b hab
  simp [Edge, outEdges, node] at hab

/-- The graph after the inner loop of `operator>>`. -/
theorem edge_foldl_addEdge (es : List (LockAddress × Int)) :
    (es.foldl (fun g e => g.addEdge src e.1 e.2) g).Edge a b ↔
      g.Edge a b ∨ (a = src ∧ ∃ w, (b, w) ∈ es) := by
  induction es generalizing g with
  | nil => simp
  | cons e es ih =>
    obtain ⟨dst, w⟩ := e
    rw [List.foldl_cons, ih, edge_addEdge]
    simp only [List.mem_cons, Prod.mk.injEq, exists_or]
    by_cases ha : a = src
    · by_cases hb : b = dst <;> simp [ha, hb]
    · simp [ha]

theorem mem_foldl_addEdge (hsrc : src ∈ g.lockNodeMap) (es : List (LockAddress × Int)) :
    v ∈ (es.foldl (fun g e => g.addEdge src e.1 e.2) g).lockNodeMap ↔
      v ∈ g.lockNodeMap ∨ ∃ w, (v, w) ∈ es := by
  induction es generalizing g with
  | nil => simp
  | cons e es ih =>
    obtain ⟨dst, w⟩ := e
    rw [List.foldl_cons, ih (by simp), mem_addEdge]
    simp only [List.mem_cons, Prod.mk.injEq, exists_or]
    by_cases hv : v = src
    · simp [hv, hsrc]
    · by_cases hd : v = dst <;> simp [hv, hd]

theorem edge_foldl_entries (entries : List (LockAddress × List (LockAddress × Int))) :
    (entries.foldl (fun g entry =>
      entry.2.foldl (fun g e => g.addEdge entry.1 e.1 e.2) (g.getNode entry.1)) g).Edge a b ↔
      g.Edge a b ∨ ∃ es w, (a, es) ∈ entries ∧ (b, w) ∈ es := by
  induction entries generalizing g with
  | nil => simp
  | cons entry entries ih =>
    obtain ⟨src, es⟩ := entry
    rw [List.foldl_cons, ih, edge_foldl_addEdge, Edge, outEdges_getNode, or_assoc]
    refine or_congr_right ⟨?_, ?_⟩
    · rintro (⟨rfl, w, hw⟩ | ⟨es', w, hes, hw⟩)
      · exact ⟨es, w, List.mem_cons_self, hw⟩
      · exact ⟨es', w, List.mem_cons_of_mem _ hes, hw⟩
    · rintro ⟨es', w, hes, hw⟩
      rcases List.mem_cons.mp hes with heq | hes
      · obtain ⟨rfl, rfl⟩ := Prod.mk.inj heq
        exact .inl ⟨rfl, w, hw⟩
      · exact .inr ⟨es', w, hes, hw⟩

theorem mem_foldl_entries (entries : List (LockAddress × List (LockAddress × Int))) :
    v ∈ (entries.foldl (fun g entry =>
      entry.2.foldl (fun g e => g.addEdge entry.1 e.1 e.2) (g.getNode entry.1)) g).lockNodeMap ↔
      v ∈ g.lockNodeMap ∨ ∃ a es, (a, es) ∈ entries ∧ (v = a ∨ ∃ w, (v, w) ∈ es) := by
  induction entries generalizing g with
  | nil => simp
  | cons entry entries ih =>
    obtain ⟨src, es⟩ := entry
    rw [List.foldl_cons, ih, mem_foldl_addEdge (by simp), mem_getNode]
    constructor
    · rintro (((rfl | hv) | hw) | ⟨a, es', hes, hv⟩)
      · exact .inr ⟨v, es, List.mem_cons_self, .inl rfl⟩
      · exact .inl hv
      · exact .inr ⟨src, es, List.mem_cons_self, .inr hw⟩
      · exact .inr ⟨a, es', List.mem_cons_of_mem _ hes, hv⟩
    · rintro (hv | ⟨a, es', hes, hv⟩)
      · exact .inl (.inl (.inr hv))
      · rcases List.mem_cons.mp hes with heq | hes
        · obtain ⟨rfl, rfl⟩ := Prod.mk.inj heq
          rcases hv with rfl | hw
          · exact .inl (.inl (.inl rfl))
          · exact .inl (.inr hw)
        · exact .inr ⟨a, es', hes, hv⟩

/-- The edges of a graph that `operator>>` has read. -/
theorem edge_read {name : String} {entries : List (LockAddress × List (LockAddress × Int))} :
    (read name entries).Edge a b ↔ ∃ es w, (a, es) ∈ entries ∧ (b, w) ∈ es := by
  rw [read, edge_foldl_entries]
  simp [Edge, outEdges, node]

/-- Its nodes are the entries and the targets of their edges. -/
theorem mem_read {name : String} {entries : List (LockAddress × List (LockAddress × Int))} :
    v ∈ (read name entries).lockNodeMap ↔
      ∃ a es, (a, es) ∈ entries ∧ (v = a ∨ ∃ w, (v, w) ∈ es) := by
  rw [read, mem_foldl_entries]
  simp

/-- A graph that `operator>>` has read has no edge to a missing node. -/
theorem closed_read (name : String) (entries : List (LockAddress × List (LockAddress × Int))) :
    (read name entries).Closed := by
  intro a b hab
  obtain ⟨es, w, hes, hw⟩ := edge_read.mp hab
  exact mem_read.mpr ⟨a, es, hes, .inr ⟨w, hw⟩⟩

theorem mem_getNodeSet : v ∈ g.getNodeSet ↔ v ∈ g.lockNodeMap := TreeMap.mem_keys

theorem mem_getOutNeibours : b ∈ (g.node a).getOutNeibours ↔ g.Edge a b := TreeMap.mem_keys

theorem mem_getInNeibours : b ∈ (g.node a).getInNeibours ↔ g.Edge a b := TreeMap.mem_keys

/-- An edge starts at a node of the graph: an address without a node has no edges. -/
theorem Edge.mem (h : g.Edge a b) : a ∈ g.lockNodeMap := by
  by_contra hn
  simp [Edge, outEdges, node, TreeMap.getD_eq_fallback hn] at h

end LockGraph

end Lockout.LockTracer.Graph
