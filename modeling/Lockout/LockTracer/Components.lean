import Mathlib.Data.Finset.Card
import Mathlib.Tactic.Tauto
import Lockout.Lib.DepthFirst
import Lockout.LockTracer.Threads

/-! # Component numbers and the delay decision

`findSCC` numbers the loaded graph in two depth-first passes; `checkSCC` compares
the number of a requested mutex with that of the mutex the thread acquired last.
The second pass follows `getInNeibours`, which in the source returns the
out-neighbours: numbers never increase along an edge, whatever the components
are. Both passes are searches of `Lib.DepthFirst`. -/

namespace Lockout.LockTracer.Components
open Std
open Lockout.Lib.DepthFirst Lockout.LockTracer.Graph Lockout.LockTracer.Threads

/-- Emits a node into `topologicalOrder` when its neighbours are done. -/
def topSort (ord : NodeOrder) (g : LockGraph) :
    Nat → LockAddress → Finset LockAddress × List LockAddress →
      Option (Finset LockAddress × List LockAddress) :=
  visit (fun v => ord.iterate (g.node v).getOutNeibours) (fun _ queue => queue)
    (fun v queue => queue ++ [v])

/-- Gives `number` to everything unvisited that the node leads to. -/
def assignCompNumber (ord : NodeOrder) (g : LockGraph) (number : Int) :
    Nat → LockAddress → Finset LockAddress × TreeMap LockAddress Int →
      Option (Finset LockAddress × TreeMap LockAddress Int) :=
  visit (fun v => ord.iterate (g.node v).getInNeibours)
    (fun v component => component.insert v number) (fun _ component => component)

/-- The first loop of `findSCC`: `topologicalOrder` when it has ended. -/
def sortAll (ord : NodeOrder) (g : LockGraph) : Option (List LockAddress) :=
  ((ord.iterate g.getNodeSet).foldlM (fun st v =>
    if v ∈ st.1 then some st else topSort ord g g.size v st) (∅, [])).map Prod.snd

structure Numbering where
  visited : Finset LockAddress := ∅
  component : TreeMap LockAddress Int := ∅
  componentNum : Int := 0

/-- The second loop of `findSCC`, on the queue of the first. -/
def numberAll (ord : NodeOrder) (g : LockGraph) : List LockAddress → Numbering → Option Numbering
  | [], n => some n
  | node :: topologicalOrder, n =>
    if node ∈ n.visited then numberAll ord g topologicalOrder n
    else do
      let (visited, component) ←
        assignCompNumber ord g (n.componentNum + 1) g.size node (n.visited, n.component)
      numberAll ord g topologicalOrder ⟨visited, component, n.componentNum + 1⟩

/-- `findSCC` on a loaded graph. -/
def findSCC (ord : NodeOrder) (g : LockGraph) : Option Numbering := do
  let topologicalOrder ← sortAll ord g
  numberAll ord g topologicalOrder {}

/-- The state `initialize` leaves after it has loaded `g`. -/
def start (ord : NodeOrder) (g : LockGraph) : Option Tracer :=
  (findSCC ord g).map fun n => { RAOG := g, component := n.component }

/-- What `checkSCC` decides and leaves behind: whether it takes the delay branch,
and the state with the nodes and numbers its lookups have created. The number of
a mutex without one is a constant of the tracer variant. -/
def checkSCCWith (unnumbered : Int) (s : Tracer) (me : Pthread) (lock : LockAddress) :
    Bool × Tracer :=
  let s := { s with RAOG := s.RAOG.getNode lock }
  let comp := s.component.getD lock unnumbered
  let thread := s.thread me
  if thread.diffLocksHeldNum ≠ 0 then
    -- a thread that holds a mutex has a history: `back()` is defined
    let last := (thread.lockHistory.getLastD (0, 0)).2
    let s := { s with
      RAOG := s.RAOG.getNode last
      component := s.component.insertIfNew last 0 }
    (decide (s.component.getD last 0 ≤ comp), s)
  else (decide (10000000 ≤ comp), s)

/-- `checkSCC` of `LockTracer.cpp`. -/
def checkSCC : Tracer → Pthread → LockAddress → Bool × Tracer := checkSCCWith 0

/-! ## Totality -/

section Totality
variable {ord : NodeOrder} {g : LockGraph}

theorem mem_nodes {v : LockAddress} : v ∈ g.getNodeSet.toFinset ↔ v ∈ g.lockNodeMap := by
  rw [List.mem_toFinset, LockGraph.mem_getNodeSet]

theorem closed_nodes (ord : NodeOrder) (hg : g.Closed) : ∀ u ∈ g.getNodeSet.toFinset,
    ∀ w ∈ ord.iterate (g.node u).getOutNeibours, w ∈ g.getNodeSet.toFinset := by
  intro u _ w hw
  exact mem_nodes.mpr (hg u w (LockGraph.mem_getOutNeibours.mp (ord.mem_iterate.mp hw)))

theorem card_unvisited (seen : Finset LockAddress) :
    (g.getNodeSet.toFinset \ seen).card ≤ g.size := by
  calc (g.getNodeSet.toFinset \ seen).card ≤ g.getNodeSet.toFinset.card :=
        Finset.card_le_card Finset.sdiff_subset
    _ ≤ g.getNodeSet.length := List.toFinset_card_le _
    _ = g.size := TreeMap.length_keys

/-- The queue gains exactly the nodes that were marked. -/
theorem queue_rule (nbrs : LockAddress → List LockAddress) :
    NodeRule nbrs (fun _ queue => queue) (fun v queue => queue ++ [v]) (fun _ => True)
      (fun a b : Finset LockAddress × List LockAddress =>
        ∀ v, v ∈ b.2 ↔ v ∈ a.2 ∨ (v ∈ b.1 ∧ v ∉ a.1)) where
  next _ _ _ := trivial
  refl := by simp
  trans := by
    intro a b c hab hbc h1 h2 v
    rw [h2, h1]
    have := @hab v
    have := @hbc v
    tauto
  node := by
    intro v seen x st _ hv hsub _ h u
    have hvs : v ∈ st.1 := hsub (Finset.mem_insert_self v seen)
    simp only [List.mem_append, h, List.mem_singleton, Finset.mem_insert]
    by_cases hu : u = v
    · subst hu; simp [hvs, hv]
    · simp [hu]

theorem sortAll_eq : sortAll ord g = (visitAll (fun v => ord.iterate (g.node v).getOutNeibours)
    (fun _ queue => queue) (fun v queue => queue ++ [v]) g.size (ord.iterate g.getNodeSet)
    (∅, [])).map Prod.snd := rfl

theorem sortAll_isSome (ord : NodeOrder) (hg : g.Closed) : ∃ queue, sortAll ord g = some queue ∧
    ∀ v, v ∈ queue ↔ v ∈ g.lockNodeMap := by
  have hstart : ∀ w ∈ ord.iterate g.getNodeSet, w ∈ g.getNodeSet.toFinset := by
    intro w hw
    exact List.mem_toFinset.mpr (ord.mem_iterate.mp hw)
  obtain ⟨st, hst⟩ : ∃ st, visitAll _ _ _ g.size (ord.iterate g.getNodeSet) (∅, []) = some st :=
    visitAll_isSome (fun _ queue => queue) (fun v queue => queue ++ [v]) (closed_nodes ord hg)
      hstart (card_unvisited ∅)
  have hqueue := (visitAll_rule (queue_rule _) (fun _ _ => trivial) hst).1
  have hall := (visitAll_rule (queue_rule _) (fun _ _ => trivial) hst).2.2
  have honly := (visitAll_rule (subset_rule (closed_nodes ord hg)) hstart hst).1 (by simp)
  refine ⟨st.2, by rw [sortAll_eq, hst]; rfl, ?_⟩
  intro v
  rw [hqueue]
  constructor
  · rintro (h | ⟨h, -⟩)
    · simp at h
    · exact mem_nodes.mp (honly h)
  · intro hv
    exact Or.inr ⟨hall v (ord.mem_iterate.mpr (LockGraph.mem_getNodeSet.mpr hv)), by simp⟩

end Totality

/-! ## The numbering -/

/-- What the second pass keeps: the numbered nodes are the visited ones, numbers
lie in `1 .. componentNum`, everything a visited node leads to is visited, and
numbers do not increase along an edge. -/
structure Numbered (g : LockGraph) (n : Numbering) : Prop where
  nonneg : 0 ≤ n.componentNum
  mem : ∀ v, v ∈ n.visited ↔ v ∈ n.component
  range : ∀ (v : LockAddress) (c : Int), n.component[v]? = some c → 1 ≤ c ∧ c ≤ n.componentNum
  closed : ∀ u w, u ∈ n.visited → g.Edge u w → w ∈ n.visited
  order : ∀ (u w : LockAddress) (cu cw : Int), g.Edge u w → n.component[u]? = some cu → n.component[w]? = some cw →
    cw ≤ cu

/-- What one component adds to a numbering: its number, to the nodes it marks. -/
def AddsNumber (number : Int) (a b : Finset LockAddress × TreeMap LockAddress Int) : Prop :=
  (∀ v ∈ b.1, v ∉ a.1 → b.2[v]? = some number) ∧
    ∀ v, v ∈ a.1 ∨ v ∉ b.1 → b.2[v]? = a.2[v]?

theorem addsNumber_rule (nbrs : LockAddress → List LockAddress) (number : Int) :
    NodeRule nbrs (fun v component => component.insert v number) (fun _ component => component)
      (fun _ => True) (AddsNumber number) where
  next _ _ _ := trivial
  refl _ := ⟨fun _ h hn => absurd h hn, fun _ _ => rfl⟩
  trans := by
    intro a b c hab hbc ⟨h1, h1'⟩ ⟨h2, h2'⟩
    constructor
    · intro v hv hn
      by_cases hvb : v ∈ b.1
      · rw [h2' v (Or.inl hvb)]
        exact h1 v hvb hn
      · exact h2 v hv hvb
    · rintro v (hv | hv)
      · rw [h2' v (Or.inl (hab hv)), h1' v (Or.inl hv)]
      · rw [h2' v (Or.inr hv), h1' v (Or.inr fun h => hv (hbc h))]
  node := by
    intro v seen x st _ hv hsub _ ⟨h, h'⟩
    have hself : v ∈ insert v seen := Finset.mem_insert_self v seen
    constructor
    · intro u hu hn
      by_cases huv : u = v
      · subst huv
        rw [h' u (Or.inl hself)]
        exact TreeMap.getElem?_insert_self
      · exact h u hu (by simp [huv, hn])
    · intro u hu
      have huv : u ≠ v := by
        rintro rfl
        exact hu.elim hv fun hn => hn (hsub hself)
      have hu' : u ∈ insert v seen ∨ u ∉ st.1 := hu.imp_left Finset.mem_insert_of_mem
      rw [h' u hu', TreeMap.getElem?_insert, if_neg (by simpa using Ne.symm huv)]

variable {ord : NodeOrder} {g : LockGraph}

/-- One component keeps the law: what it marks and numbers is closed below. -/
theorem Numbered.assign {n : Numbering} (h : Numbered g n) {v : LockAddress} (hv : v ∉ n.visited)
    {visited : Finset LockAddress} {component : TreeMap LockAddress Int} {fuel : Nat}
    (hrun : assignCompNumber ord g (n.componentNum + 1) fuel v (n.visited, n.component) =
      some (visited, component)) :
    Numbered g ⟨visited, component, n.componentNum + 1⟩ ∧ v ∈ visited ∧ n.visited ⊆ visited := by
  obtain ⟨⟨hnew, hold⟩, hsub, hmem⟩ := visit_rule (addsNumber_rule _ _) trivial hv hrun
  have hnext := (visit_rule closedNew_rule trivial hv hrun).1
  dsimp only at hnew hold hsub hmem
  have hcases : ∀ (u : LockAddress) (c : Int), component[u]? = some c →
      (u ∈ n.visited ∧ n.component[u]? = some c) ∨
        (u ∈ visited ∧ u ∉ n.visited ∧ c = n.componentNum + 1) := by
    intro u c hc
    by_cases hu : u ∈ n.visited
    · exact Or.inl ⟨hu, hold u (Or.inl hu) ▸ hc⟩
    · by_cases hu' : u ∈ visited
      · rw [hnew u hu' hu] at hc
        exact Or.inr ⟨hu', hu, (Option.some.inj hc).symm⟩
      · rw [hold u (Or.inr hu')] at hc
        exact absurd ((h.mem u).mpr (TreeMap.mem_iff_isSome_getElem?.mpr (by rw [hc]; rfl))) hu
  have hnonneg := h.nonneg
  refine ⟨⟨by dsimp only; omega, ?_, ?_, ?_, ?_⟩, hmem, hsub⟩
  · intro u
    rw [TreeMap.mem_iff_isSome_getElem?]
    constructor
    · intro hu
      by_cases hold' : u ∈ n.visited
      · rw [hold u (Or.inl hold'), ← TreeMap.mem_iff_isSome_getElem?]
        exact (h.mem u).mp hold'
      · rw [hnew u hu hold']
        rfl
    · intro hu
      obtain ⟨c, hc⟩ := Option.isSome_iff_exists.mp hu
      rcases hcases u c hc with ⟨hu, -⟩ | ⟨hu, -⟩
      · exact hsub hu
      · exact hu
  · intro u c hc
    rcases hcases u c hc with ⟨-, hc⟩ | ⟨-, -, rfl⟩
    · have := h.range u c hc
      exact ⟨this.1, by dsimp only; omega⟩
    · exact ⟨by omega, Int.le_refl _⟩
  · intro u w hu huw
    by_cases hold' : u ∈ n.visited
    · exact hsub (h.closed u w hold' huw)
    · exact hnext u hu hold' w (ord.mem_iterate.mpr (LockGraph.mem_getInNeibours.mpr huw))
  · intro u w cu cw huw hcu hcw
    rcases hcases u cu hcu with ⟨hu, hcu⟩ | ⟨-, -, rfl⟩
    · -- a node visited earlier leads only to nodes visited earlier
      rcases hcases w cw hcw with ⟨-, hcw⟩ | ⟨-, hw, -⟩
      · exact h.order u w cu cw huw hcu hcw
      · exact absurd (h.closed u w hu huw) hw
    · rcases hcases w cw hcw with ⟨-, hcw⟩ | ⟨-, -, rfl⟩
      · have := (h.range w cw hcw).2
        omega
      · exact Int.le_refl _

theorem numberAll_numbered (ord : NodeOrder) (hg : g.Closed) {queue : List LockAddress}
    (hqueue : ∀ v ∈ queue, v ∈ g.lockNodeMap) {n : Numbering} (h : Numbered g n) :
    ∃ n', numberAll ord g queue n = some n' ∧ Numbered g n' ∧ n.visited ⊆ n'.visited ∧
      ∀ v ∈ queue, v ∈ n'.visited := by
  induction queue generalizing n with
  | nil => exact ⟨n, rfl, h, Finset.Subset.refl _, by simp⟩
  | cons node queue ih =>
    have hqueue' : ∀ v ∈ queue, v ∈ g.lockNodeMap := fun v hv =>
      hqueue v (List.mem_cons_of_mem node hv)
    unfold numberAll
    by_cases hnode : node ∈ n.visited
    · obtain ⟨n', hrun, hn', hsub, hall⟩ := ih hqueue' h
      refine ⟨n', by rw [if_pos hnode, hrun], hn', hsub, ?_⟩
      intro v hv
      rcases List.mem_cons.mp hv with rfl | hv
      · exact hsub hnode
      · exact hall v hv
    · obtain ⟨⟨visited, component⟩, hassign⟩ :
          ∃ st, assignCompNumber ord g (n.componentNum + 1) g.size node
            (n.visited, n.component) = some st :=
        visit_isSome _ _ (closed_nodes ord hg) (mem_nodes.mpr (hqueue node List.mem_cons_self))
          hnode (card_unvisited n.visited)
      obtain ⟨hstep, hmem, hsub⟩ := h.assign hnode hassign
      obtain ⟨n', hrun, hn', hsub', hall⟩ := ih hqueue' hstep
      refine ⟨n', ?_, hn', hsub.trans hsub', ?_⟩
      · rw [if_neg hnode, hassign]
        exact hrun
      · intro v hv
        rcases List.mem_cons.mp hv with rfl | hv
        · exact hsub' hmem
        · exact hall v hv

theorem numbered_empty : Numbered g {} where
  nonneg := Int.le_refl _
  mem := by simp
  range := by simp
  closed := by simp
  order := by simp

/-- `findSCC` ends on every loaded graph, numbers its nodes from 1 on and never
gives the target of an edge the larger number. -/
theorem findSCC_numbered (ord : NodeOrder) (hg : g.Closed) :
    ∃ n, findSCC ord g = some n ∧ Numbered g n ∧ ∀ v ∈ g.lockNodeMap, v ∈ n.component := by
  obtain ⟨queue, hsort, hqueue⟩ := sortAll_isSome ord hg
  obtain ⟨n, hrun, hn, -, hall⟩ := numberAll_numbered ord hg
    (fun v hv => (hqueue v).mp hv) numbered_empty
  refine ⟨n, by rw [findSCC, hsort]; exact hrun, hn, ?_⟩
  intro v hv
  exact (hn.mem v).mp (hall v ((hqueue v).mpr hv))

/-- `initialize` ends on every loaded graph. -/
theorem start_read (ord : NodeOrder) (name : String)
    (entries : List (LockAddress × List (LockAddress × Int))) :
    ∃ s, start ord (LockGraph.read name entries) = some s := by
  obtain ⟨n, hn, -⟩ := findSCC_numbered ord (LockGraph.closed_read name entries)
  exact ⟨_, Option.map_eq_some_iff.mpr ⟨n, hn, rfl⟩⟩

/-- Along a path the number does not increase. -/
theorem Numbered.reachable {n : Numbering} (h : Numbered g n)
    (hall : ∀ v ∈ g.lockNodeMap, v ∈ n.component) {u w : LockAddress} {cu cw : Int}
    (huw : g.Reachable u w)
    (hcu : n.component[u]? = some cu) (hcw : n.component[w]? = some cw) : cw ≤ cu := by
  induction huw generalizing cw with
  | refl =>
    rw [hcu] at hcw
    exact Int.le_of_eq (Option.some.inj hcw).symm
  | @tail v w _ hvw ih =>
    obtain ⟨cv, hcv⟩ := Option.isSome_iff_exists.mp
      (TreeMap.mem_iff_isSome_getElem?.mp (hall v hvw.mem))
    exact Int.le_trans (h.order v w cv cw hvw hcv hcw) (ih hcv)

end Lockout.LockTracer.Components
