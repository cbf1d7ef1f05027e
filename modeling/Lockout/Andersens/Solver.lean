import Mathlib
import Lockout.Lib.PriorityQueue
import Lockout.Andersens.Slots

/-! # The constraint solver

`SolveConstraints` after `OptimizeConstraints`: the constraint graph, the two work lists,
lazy cycle detection by `QueryNode`, and the union-find of `UniteNodes` and `FindNode`. What
the offline phases leave (the rewritten constraints, the nodes united so far, the labels and
`SDT`) is the input. A set that the source frees with its node is empty here, and an
assertion that fails ends the run without a result. -/

namespace Lockout.Andersens.Solver
open Batteries (UnionFind)
open Lockout.Lib (PriorityQueue)
open Lockout.Andersens.Objects Lockout.Andersens.Slots

deriving instance DecidableEq for Constraint

/-! ## The state -/

structure GraphNode where
  edges : Finset Nat := ∅
  pointsTo : Finset Nat := ∅
  oldPointsTo : Finset Nat := ∅
  constraints : List Constraint := []
  timestamp : UInt32 := 0

structure WorkListElement where
  node : Nat
  timestamp : UInt32

/-- A `std::priority_queue` that gives low timestamps the priority over high. -/
abbrev WorkList := PriorityQueue WorkListElement fun x => x.timestamp.toNat

structure State (W : WorkList) where
  graphNodes : Nat → GraphNode := fun _ => {}
  /-- `NodeRep` of all nodes. -/
  reps : UnionFind
  /-- `none` is the `-1` of the source. -/
  sdt : Nat → Option Nat := fun _ => none
  counter : UInt32 := 0
  currWL : W.Queue := W.empty
  nextWL : W.Queue := W.empty
  tarjanWL : List Nat := []
  edgesChecked : Finset (Nat × Nat) := ∅
  dfsNumber : Nat := 0
  tarjan2DFS : Nat → Nat := fun _ => 0
  tarjan2Deleted : Nat → Bool := fun _ => false
  sccStack : List Nat := []

/-- What `OptimizeConstraints` leaves. -/
structure Offline where
  constraints : List Constraint
  reps : UnionFind
  sdt : Nat → Option Nat
  addressTaken : Nat → Bool
  pointerEquivLabel : Nat → Nat
  penleClass2Node : Nat → Option Nat

namespace State
variable {W : WorkList} (s : State W)

def size : Nat := s.reps.size

def isRep (i : Nat) : Bool := s.reps.parent i = i

def modify (i : Nat) (f : GraphNode → GraphNode) : State W :=
  { s with graphNodes := Function.update s.graphNodes i (f (s.graphNodes i)) }

/-- `Stamp`. -/
def stamp (i : Nat) : State W :=
  { s.modify i fun node => { node with timestamp := s.counter } with counter := s.counter + 1 }

def element (i : Nat) : WorkListElement where
  node := i
  timestamp := (s.graphNodes i).timestamp

/-- `CurrWL->insert`. -/
def insertCurr (i : Nat) : State W := { s with currWL := W.push (s.element i) s.currWL }

/-- `NextWL->insert`. -/
def insertNext (i : Nat) : State W := { s with nextWL := W.push (s.element i) s.nextWL }

/-- An element of a work list counts if its node still is a representative and has not been
stamped since. -/
def valid (x : WorkListElement) : Bool :=
  s.isRep x.node && (s.graphNodes x.node).timestamp == x.timestamp

/-- The node that `GraphNodes[i].PointsTo |= set` changes goes to the next work list. -/
def unionPointsTo (i : Nat) (set : Finset Nat) : State W :=
  if set ⊆ (s.graphNodes i).pointsTo then s
  else (s.modify i fun node => { node with pointsTo := node.pointsTo ∪ set }).insertNext i

/-- Never an edge to one of the special nodes. -/
def addEdge (src dest : Nat) : State W :=
  if dest < numberSpecialNodes then s
  else if dest ∈ (s.graphNodes src).edges then s
  else (s.modify src fun node => { node with edges := insert dest node.edges }).unionPointsTo dest
    (s.graphNodes src).pointsTo

end State

section Solving
variable {W : WorkList}

/-! ## Union-find -/

/-- `FindNode` with its path compression. -/
def findNode (i : Nat) (s : State W) : Nat × State W :=
  let (reps, rep) := s.reps.findD i
  (rep, { s with reps })

/-- The representative that keeps its place, and the other. -/
def byRank (reps : UnionFind) (first second : Nat) : Nat × Nat :=
  if reps.rank first < reps.rank second then (second, first) else (first, second)

/-- `NodeRep` after `UniteNodes`, if both are representatives. -/
def linkReps (reps : UnionFind) (first second : Nat) : Option UnionFind :=
  if h : (first < reps.size ∧ second < reps.size) ∧
      reps.parent first = first ∧ reps.parent second = second then
    some (reps.link ⟨second, h.1.2⟩ ⟨first, h.1.1⟩ h.2.1)
  else none

/-- The data of `second` goes to `first`. -/
def mergeNodes (first second : Nat) (s : State W) : State W :=
  let fst := s.graphNodes first
  let snd := s.graphNodes second
  { s with
    graphNodes := Function.update
      (Function.update s.graphNodes second { timestamp := snd.timestamp }) first
      { edges := fst.edges ∪ snd.edges
        pointsTo := if numberSpecialNodes ≤ first then fst.pointsTo ∪ snd.pointsTo
          else fst.pointsTo
        constraints := snd.constraints ++ fst.constraints
        timestamp := fst.timestamp } }

/-- While the constraints are solved, the nodes that both stand for in `SDT` are united
too. -/
def uniteNodes : Nat → Nat → Nat → State W → Option (Nat × State W)
  | 0, _, _, _ => none
  | fuel + 1, first, second, s => do
    let reps ← linkReps s.reps first second
    if first = second then some (first, s)
    else
      let (first, second) := byRank s.reps first second
      let s := mergeNodes first second { s with reps }
      match s.sdt second with
      | none => some (first, s)
      | some t =>
        match s.sdt first with
        | none => some (first, { s with sdt := Function.update s.sdt first (some t) })
        | some t' =>
          let (x, s) := findNode t' s
          let (y, s) := findNode t s
          let (_, s) ← uniteNodes fuel x y s
          some (findNode first s)

/-- Every call inside another has one representative less, so that the calls are no more than
the nodes. -/
def unite (first second : Nat) (s : State W) : Option (Nat × State W) :=
  uniteNodes s.size first second s

/-! ## Lazy cycle detection -/

/-- What `QueryNode` keeps on its frame. -/
structure Query (W : WorkList) where
  state : State W
  toErase : Finset Nat := ∅
  newEdges : Finset Nat := ∅
  changed : Bool := false

/-- `Tarjan2DFS` of `node` is no higher than that of `rep`. -/
def lower (node rep : Nat) (s : State W) : State W :=
  if s.tarjan2DFS rep < s.tarjan2DFS node then
    { s with tarjan2DFS := Function.update s.tarjan2DFS node (s.tarjan2DFS rep) }
  else s

/-- The search goes on behind `rep`, unless it is done there. -/
def visit (query : Nat → State W → Option (Bool × State W)) (node rep : Nat) (changed : Bool)
    (s : State W) : Option (Nat × Bool × State W) :=
  if s.tarjan2Deleted rep then some (rep, changed, s)
  else if s.tarjan2DFS rep = 0 then do
    let (below, s) ← query rep s
    let (rep, s) := findNode rep s
    some (rep, changed || below, lower node rep s)
  else some (rep, changed, lower node rep s)

/-- The edge of `node` to `dest`. -/
def queryEdge (query : Nat → State W → Option (Bool × State W)) (node : Nat) (q : Query W)
    (dest : Nat) : Option (Query W) := do
  let (rep, s) := findNode dest q.state
  if rep ≠ dest ∧ rep ∈ q.newEdges then
    some { q with state := s, toErase := insert dest q.toErase }
  else
    let (rep, changed, s) ← visit query node rep q.changed s
    if rep ≠ dest then
      some { state := s, toErase := insert dest q.toErase, newEdges := insert rep q.newEdges,
             changed }
    else some { q with state := s, changed }

/-- The nodes from the top of the stack that belong to the component of `node`. -/
def uniteStack (ourDFS : Nat) : List Nat → Nat → Bool → State W → Option (Nat × Bool × State W)
  | [], node, merged, s => some (node, merged, { s with sccStack := [] })
  | top :: stack, node, merged, s =>
    if ourDFS ≤ s.tarjan2DFS top then do
      let (node, s) ← unite node top s
      uniteStack ourDFS stack node true s
    else some (node, merged, { s with sccStack := top :: stack })

/-- After the edges of `node`. The edges of a node that was united with another are gone. -/
def closeQuery (node ourDFS : Nat) (q : Query W) : Option (Bool × State W) := do
  if q.state.isRep node then
    let s := q.state.modify node fun n => { n with edges := n.edges \ q.toErase ∪ q.newEdges }
    if ourDFS = s.tarjan2DFS node then do
      let (node, merged, s) ← uniteStack ourDFS s.sccStack node false s
      let s := { s with tarjan2Deleted := Function.update s.tarjan2Deleted node true }
      some (q.changed || merged, if merged then s.insertNext node else s)
    else some (q.changed, { s with sccStack := node :: s.sccStack })
  else none

/-- The loop goes over the edges that `node` has at its start. With entries in `SDT` a union
inside the loop can change that set under the iterator, and what the iterator does then is
up to the bit vector: such a run has no result here. -/
def queryNode : Nat → Nat → State W → Option (Bool × State W)
  | 0, _, _ => none
  | fuel + 1, node, s => do
    if s.isRep node then
      let ourDFS := s.dfsNumber + 1
      let s := { s with
        dfsNumber := ourDFS
        tarjan2DFS := Function.update s.tarjan2DFS node ourDFS }
      let q ← (s.graphNodes node).edges.sort.foldlM (queryEdge (queryNode fuel) node)
        { state := s }
      if (q.state.graphNodes node).edges = (s.graphNodes node).edges then
        closeQuery node ourDFS q
      else none
    else none

/-- The candidates of the last iteration, with fresh maps. -/
def queryCandidates : List Nat → State W → Option (State W)
  | [], s => some { s with tarjanWL := [] }
  | toTarjan :: rest, s => do
    if ¬s.tarjan2Deleted toTarjan ∧ s.isRep toTarjan ∧ s.tarjan2DFS toTarjan = 0 then
      let (_, s) ← queryNode (s.size + 1) toTarjan s
      queryCandidates rest s
    else queryCandidates rest s

def detectCycles (s : State W) : Option (State W) :=
  if s.tarjanWL = [] then some s
  else queryCandidates s.tarjanWL
    { s with dfsNumber := 0, tarjan2DFS := fun _ => 0, tarjan2Deleted := fun _ => false }

/-! ## Propagation -/

/-- Members of the changed points-to set, where the node has an entry in `SDT`. -/
structure Collapse where
  /-- The special nodes among the members. -/
  special : List Nat := []
  rep : Nat

/-- All members but the special nodes are united with the node that `SDT` names. -/
def collapse : List Nat → Collapse → State W → Option (Collapse × State W)
  | [], c, s => some (c, s)
  | member :: members, c, s =>
    let (node, s) := findNode member s
    if node < numberSpecialNodes then collapse members { c with special := c.special ++ [node] } s
    else do
      let (rep, s) ← unite c.rep node s
      collapse members { c with rep } s

/-- `RSV`: the special nodes, then the representative of all others. -/
def Collapse.rsv (c : Collapse) : List Nat := c.special ++ [c.rep]

/-- The edge that constraint `li` demands for a member `node` of the solution. -/
def applyMember (li : Constraint) (s : State W) (node : Nat) : State W :=
  if li.type = .load then s.addEdge node li.dest else s.addEdge li.src node

/-- A member of the solution without an entry of `SDT`, under the offset of `li`. -/
def applyOffset (m : Module) (a : Graph) (li : Constraint) (s : State W) (member : Nat) :
    State W :=
  match slot m a li member with
  | none => s
  | some node =>
    let (node, s) := findNode node s
    applyMember li s node

/-- The state while the constraints of a node are processed. -/
structure Scan (W : WorkList) where
  state : State W
  seen : List Constraint := []
  /-- What is left of the list. -/
  kept : List Constraint := []

/-- The constraint between the representatives, unless the list had it before. -/
def scanRewritten (m : Module) (a : Graph) (currPointsTo : Finset Nat) (rsv : Option (List Nat))
    (c : Scan W) (li : Constraint) : Scan W :=
  if li ∈ c.seen then c
  else
    let seen := li :: c.seen
    if li.type = .load ∨ li.type = .store then
      match rsv with
      | some nodes =>
        if li.offset = 0 then
          { state := nodes.foldl (applyMember li) c.state
            seen
            -- Another special node may come later, and it needs its own edge.
            kept := if li.type = .load then c.kept ++ [li] else c.kept }
        else
          { state := currPointsTo.sort.foldl (applyOffset m a li) c.state
            seen
            kept := c.kept ++ [li] }
      | none =>
        { state := currPointsTo.sort.foldl (applyOffset m a li) c.state
          seen
          kept := c.kept ++ [li] }
    else { c with seen, kept := c.kept ++ [li] }

def scanConstraint (m : Module) (a : Graph) (currPointsTo : Finset Nat) (rsv : Option (List Nat))
    (c : Scan W) (li : Constraint) : Scan W :=
  let (src, s) := findNode li.src c.state
  let (dest, s) := findNode li.dest s
  scanRewritten m a currPointsTo rsv { c with state := s } { li with src, dest }

/-- The edges while points-to sets go along them. -/
structure Spread (W : WorkList) where
  state : State W
  toErase : Finset Nat := ∅
  newEdges : Finset Nat := ∅

def candidate (curr rep : Nat) (s : State W) : State W :=
  if (curr, rep) ∉ s.edgesChecked ∧
      (s.graphNodes rep).pointsTo = (s.graphNodes curr).pointsTo then
    { s with
      edgesChecked := insert (curr, rep) s.edgesChecked
      tarjanWL := s.tarjanWL ++ [rep] }
  else s

/-- The changed members go to `rep`, unless it is special. -/
def spreadTo (curr : Nat) (currPointsTo : Finset Nat) (rep : Nat) (s : State W) : State W :=
  let s := candidate curr rep s
  if numberSpecialNodes ≤ rep then s.unionPointsTo rep currPointsTo else s

def spreadEdge (curr : Nat) (currPointsTo : Finset Nat) (p : Spread W) (destVar : Nat) :
    Spread W :=
  let (rep, s) := findNode destVar p.state
  if rep = curr ∨ rep ≠ destVar ∧ rep ∈ p.newEdges then
    { p with state := s, toErase := insert destVar p.toErase }
  else
    let s := spreadTo curr currPointsTo rep s
    if rep ≠ destVar then
      { state := s, toErase := insert destVar p.toErase, newEdges := insert rep p.newEdges }
    else { p with state := s }

/-- The constraints of `curr`, then its edges. -/
def propagate (m : Module) (a : Graph) (curr : Nat) (currPointsTo : Finset Nat)
    (rsv : Option (List Nat)) (s : State W) : State W :=
  let c := (s.graphNodes curr).constraints.foldl (scanConstraint m a currPointsTo rsv)
    { state := s }
  let s := c.state.modify curr fun node => { node with constraints := c.kept }
  let p := (s.graphNodes curr).edges.sort.foldl (spreadEdge curr currPointsTo) { state := s }
  p.state.modify curr fun node => { node with edges := node.edges \ p.toErase ∪ p.newEdges }

/-- What a node popped from the work list does. -/
def processNode (m : Module) (a : Graph) (curr : Nat) (s : State W) : Option (State W) := do
  let s := s.stamp curr
  let currPointsTo := (s.graphNodes curr).pointsTo \ (s.graphNodes curr).oldPointsTo
  if currPointsTo = ∅ then some s
  else
    let s := s.modify curr fun node =>
      { node with oldPointsTo := node.oldPointsTo ∪ currPointsTo }
    match s.sdt curr with
    | none => some (propagate m a curr currPointsTo none s)
    | some t =>
      let (rep, s) := findNode t s
      let (c, s) ← collapse currPointsTo.sort { rep } s
      let s := s.insertNext c.rep
      some (if s.isRep curr then propagate m a curr currPointsTo (some c.rsv) s else s)

/-- Until the current work list, with so many elements, is empty. -/
def drain (m : Module) (a : Graph) : Nat → State W → Option (State W)
  | 0, s => some s
  | elements + 1, s =>
    match W.pop s.currWL with
    | none => some s
    | some (x, currWL) =>
      let s := { s with currWL }
      if s.valid x then do
        let s ← processNode m a x.node s
        drain m a elements s
      else drain m a elements s

/-- So many iterations, or less if the work list is empty before. -/
def iterate (m : Module) (a : Graph) : Nat → State W → Option (State W)
  | 0, s => some s
  | iterations + 1, s =>
    if (W.pop s.currWL).isNone then some s
    else do
      let s ← detectCycles s
      let s ← drain m a (W.elems s.currWL).card s
      iterate m a iterations { s with currWL := s.nextWL, nextWL := s.currWL }

/-! ## The whole run -/

def addConstraint (s : State W) (c : Constraint) : Option (State W) :=
  if c.src < s.size ∧ c.dest < s.size then
    some <|
      match c.type with
      | .addressOf => s.modify c.dest fun n => { n with pointsTo := insert c.src n.pointsTo }
      | .load => s.modify c.src fun n => { n with constraints := n.constraints ++ [c] }
      | .store => s.modify c.dest fun n => { n with constraints := n.constraints ++ [c] }
      | .copy =>
        if c.offset ≠ 0 then
          s.modify c.src fun n => { n with constraints := n.constraints ++ [c] }
        else s.modify c.src fun n => { n with edges := insert c.dest n.edges }
  else none

def createConstraintGraph (constraints : List Constraint) (s : State W) : Option (State W) :=
  constraints.foldlM addConstraint s

def unitePointerEquivalence (o : Offline) (s : State W) (i : Nat) : Option (State W) :=
  if o.addressTaken i ∧ s.isRep i then
    match o.penleClass2Node (o.pointerEquivLabel i) with
    | none => some s
    | some node =>
      if o.pointerEquivLabel i = 0 then some s
      else (unite i node s).map Prod.snd
  else some s

def unitePointerEquivalences (o : Offline) (s : State W) : Option (State W) :=
  (List.range s.size).foldlM (unitePointerEquivalence o) s

/-- Nodes that contribute to the calculation from the start. -/
def insertInitial (s : State W) (i : Nat) : State W :=
  let node := s.graphNodes i
  if s.isRep i ∧ node.pointsTo ≠ ∅ ∧ (node.edges ≠ ∅ ∨ node.constraints ≠ []) then
    (s.stamp i).insertCurr i
  else s

/-- Up to the loop. -/
def prepare (W : WorkList) (o : Offline) : Option (State W) := do
  let s ← createConstraintGraph o.constraints { reps := o.reps, sdt := o.sdt }
  let s ← unitePointerEquivalences o s
  some ((List.range s.size).foldl insertInitial s)

/-- The state after so many iterations of the loop, or after its end. -/
def solveConstraints (m : Module) (a : Graph) (o : Offline) (iterations : Nat) :
    Option (State W) := do
  let s ← prepare W o
  iterate m a iterations s

end Solving

end Lockout.Andersens.Solver
