import Lockout.LockTracer.Events

/-! # Numbers fall along edges

What the numbers of `findSCC` say about every loaded graph, whether or not they are
those of its components: they are just `1..componentNum`, and none increases along an
edge. So where `checkSCC` lets a thread go on, the new edge closes no cycle. -/

namespace Lockout.LockTracer.Monotone
open Std
open Lockout.Lib.DepthFirst Lockout.LockTracer.Graph Lockout.LockTracer.Threads
open Lockout.LockTracer.Components Lockout.LockTracer.Events

/-- Every number up to `componentNum` has been given to a node. -/
def AllUsed (g : LockGraph) (n : Numbering) : Prop :=
  ∀ c, 1 ≤ c → c ≤ n.componentNum → ∃ v ∈ g.lockNodeMap, n.component[v]? = some c

section Numbers
variable {ord : NodeOrder} {g : LockGraph} {n n' : Numbering} {queue : List LockAddress}

theorem AllUsed.assign (hn : Numbered g n) (h : AllUsed g n) {v : LockAddress}
    (hnode : v ∈ g.lockNodeMap) (hv : v ∉ n.visited)
    {visited : Finset LockAddress} {component : TreeMap LockAddress Int} {fuel : Nat}
    (hrun : assignCompNumber ord g (n.componentNum + 1) fuel v (n.visited, n.component) =
      some (visited, component)) : AllUsed g ⟨visited, component, n.componentNum + 1⟩ := by
  obtain ⟨⟨hnew, hold⟩, -, hmem⟩ := visit_rule (addsNumber_rule _ _) trivial hv hrun
  intro c hpos hle
  dsimp only at hnew hold hmem hle ⊢
  by_cases hc : c = n.componentNum + 1
  · exact ⟨v, hnode, by rw [hnew v hmem hv, hc]⟩
  · obtain ⟨u, hnode', hu⟩ := h c hpos (by omega)
    have hvisited : u ∈ n.visited := by
      rw [hn.mem, TreeMap.mem_iff_isSome_getElem?, hu]
      rfl
    exact ⟨u, hnode', by rw [hold u (.inl hvisited), hu]⟩

theorem AllUsed.numberAll (hn : Numbered g n) (h : AllUsed g n)
    (hqueue : ∀ v ∈ queue, v ∈ g.lockNodeMap) (hrun : numberAll ord g queue n = some n') :
    AllUsed g n' := by
  induction queue generalizing n with
  | nil => exact Option.some.inj hrun ▸ h
  | cons v queue ih =>
    obtain ⟨hnode, hqueue⟩ := List.forall_mem_cons.mp hqueue
    unfold Components.numberAll at hrun
    split at hrun
    · exact ih hn h hqueue hrun
    · rename_i hv
      obtain ⟨⟨visited, component⟩, hassign, hrest⟩ := Option.bind_eq_some_iff.mp hrun
      exact ih (hn.assign hv hassign).1 (h.assign hn hnode hv hassign) hqueue hrest

theorem allUsed_findSCC (hg : g.Closed) (h : findSCC ord g = some n) : AllUsed g n := by
  obtain ⟨queue, hsort, hqueue⟩ := sortAll_isSome ord hg
  have hrun : numberAll ord g queue {} = some n := by
    rw [findSCC, hsort] at h
    exact h
  refine AllUsed.numberAll numbered_empty (fun c hpos hle => ?_) (fun v => (hqueue v).mp) hrun
  exact absurd (hpos.trans hle) (by decide)

/-- An edge whose target does not lead back closes no cycle. -/
theorem not_reachable_addEdge {l h : LockAddress} {w : Int} (hno : ¬ g.Reachable l h) :
    ¬ (g.addEdge h l w).Reachable l h := by
  have hold : ∀ v, (g.addEdge h l w).Reachable l v → g.Reachable l v := by
    intro v hv
    induction hv with
    | refl => exact .refl
    | tail _ hedge ih =>
      rcases LockGraph.edge_addEdge.mp hedge with ⟨rfl, -⟩ | hedge
      · exact absurd ih hno
      · exact ih.tail hedge
  exact fun hback => hno (hold h hback)

/-- A thread that holds something goes on just if the number of the requested mutex is
smaller than that of the one it acquired last. -/
theorem checkSCC_passes_iff {s : Tracer} {t : Pthread} {l : LockAddress} {op : LockOperation}
    {cl cop : Int} (hheld : (s.thread t).diffLocksHeldNum ≠ 0)
    (hlast : (s.thread t).lockHistory.getLast? = some op) (hl : s.component[l]? = some cl)
    (hop : s.component[op.2]? = some cop) : (checkSCC s t l).1 = false ↔ cl < cop := by
  rw [← Bool.not_eq_true, checkSCC_delays_iff hheld hlast hl hop, Int.not_le]

end Numbers

/-- `findSCC` gives all nodes the numbers `1..componentNum`, none of them in vain and
falling along the edges; where `checkSCC` does not delay, the requested mutex does not
lead back to the last one, also with the edge that its acquisition adds. -/
theorem findSCC_monotone (ord : NodeOrder) (g : LockGraph) (hg : g.Closed) :
    ∃ n, findSCC ord g = some n ∧
      (∀ v ∈ g.lockNodeMap, ∃ c, n.component[v]? = some c ∧ 1 ≤ c ∧ c ≤ n.componentNum) ∧
      (∀ c, 1 ≤ c → c ≤ n.componentNum → ∃ v ∈ g.lockNodeMap, n.component[v]? = some c) ∧
      (∀ (u v : LockAddress) cu cv, g.Edge u v → n.component[u]? = some cu →
        n.component[v]? = some cv → cv ≤ cu) ∧
      (∀ (l h : LockAddress) cl ch, n.component[l]? = some cl → n.component[h]? = some ch → cl < ch →
        ¬ g.Reachable l h ∧ ¬ (g.addEdge h l 1).Reachable l h) ∧
      ∀ (s : Tracer) t (l h : LockAddress) loc cl ch, s.component = n.component →
        (s.thread t).diffLocksHeldNum ≠ 0 → (s.thread t).lockHistory.getLast? = some (loc, h) →
        n.component[l]? = some cl → n.component[h]? = some ch →
        ((checkSCC s t l).1 = false ↔ cl < ch) := by
  obtain ⟨n, hn, hnumbered, hall⟩ := findSCC_numbered ord hg
  refine ⟨n, hn, fun v hv => ?_, allUsed_findSCC hg hn, hnumbered.order, ?_, ?_⟩
  · obtain ⟨c, hc⟩ := Option.isSome_iff_exists.mp (TreeMap.mem_iff_isSome_getElem?.mp (hall v hv))
    exact ⟨c, hc, hnumbered.range v c hc⟩
  · intro l h cl ch hl hh hlt
    have hno : ¬ g.Reachable l h := fun hreach =>
      absurd (hnumbered.reachable hall hreach hl hh) (Int.not_le.mpr hlt)
    exact ⟨hno, not_reachable_addEdge hno⟩
  · intro s t l h loc cl ch hcomponent hheld hlast hl hh
    rw [← hcomponent] at hl hh
    exact checkSCC_passes_iff hheld hlast hl hh

/-- Two mutexes that have been taken in both orders. -/
def bothOrders : LockGraph := LockGraph.read "g" [(1, [(2, 1)]), (2, [(1, 1)])]

theorem findSCC_monotone_bothOrders : bothOrders.Closed ∧
    ∃ n, findSCC .byAddress bothOrders = some n ∧
      ∀ v ∈ bothOrders.lockNodeMap, ∃ c, n.component[v]? = some c ∧ 1 ≤ c ∧ c ≤ n.componentNum := by
  obtain ⟨n, hn, hrange, -⟩ :=
    findSCC_monotone .byAddress bothOrders (LockGraph.closed_read _ _)
  exact ⟨LockGraph.closed_read _ _, n, hn, hrange⟩

end Lockout.LockTracer.Monotone
