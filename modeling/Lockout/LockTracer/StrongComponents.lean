import Mathlib.Data.List.Chain
import Lockout.Lib.Postorder
import Lockout.LockTracer.Components

/-! # Strongly connected components

When the numbers of `findSCC` are those of the strongly connected components. Both
passes follow the out-edges, so a node gets the number of the first node of the queue
that reaches it, its `leader`; the numbers are right where every node reaches its
leader (`correct_iff_led`). The queue has the order in which the first pass leaves the
nodes: each node once and behind the successors that do not lead back to it
(`sortAll_order`). `LeavesAtEnds` says on the graph alone when that is good for every
iteration order. -/

namespace Lockout.LockTracer.StrongComponents
open Std
open Lockout.Lib.DepthFirst Lockout.Lib.Postorder Lockout.LockTracer.Graph
open Lockout.LockTracer.Components

/-- `findSCC` numbers every node, and two nodes alike just if they reach each other. -/
def Correct (ord : NodeOrder) (g : LockGraph) : Prop :=
  ∃ n, findSCC ord g = some n ∧ (∀ v ∈ g.lockNodeMap, v ∈ n.component) ∧
    ∀ u ∈ g.lockNodeMap, ∀ v ∈ g.lockNodeMap,
      (n.component[u]? = n.component[v]? ↔ g.Reachable u v ∧ g.Reachable v u)

/-- A simple path to `x` on which the successors of `x` that lead back to it lie. -/
structure DeadEnd (g : LockGraph) (path : List LockAddress) (x : LockAddress) : Prop where
  chain : List.IsChain g.Edge path
  nodup : path.Nodup
  last : path.getLast? = some x
  stuck : ∀ w, g.Edge x w → g.Reachable w x → w ∈ path

/-- Where a simple path is at a dead end, all that lies behind the component of its end
can be reached by an edge that leaves the component there. -/
def LeavesAtEnds (g : LockGraph) : Prop :=
  ∀ path x, DeadEnd g path x → ∀ u, g.Reachable x u → ¬ g.Reachable u x →
    ∃ w, g.Edge x w ∧ ¬ g.Reachable w x ∧ g.Reachable w u

/-! ## Leaders -/

section Leaders
variable {g : LockGraph} {done queue : List LockAddress} {u v x y : LockAddress}

open Classical in
/-- The first node of a queue that reaches `v`. -/
noncomputable def leader (g : LockGraph) (queue : List LockAddress) (v : LockAddress) :
    Option LockAddress := queue.find? fun y => g.Reachable y v

theorem leader_eq_some : leader g queue v = some y ↔ g.Reachable y v ∧
    ∃ earlier later, queue = earlier ++ y :: later ∧ ∀ z ∈ earlier, ¬ g.Reachable z v := by
  simp [leader, List.find?_eq_some_iff_append]

theorem leader_eq_none : leader g queue v = none ↔ ∀ y ∈ queue, ¬ g.Reachable y v := by
  simp [leader]

theorem leader_append_of_reaches (h : ¬ g.Reachable x v ∨ leader g done v ≠ none) :
    leader g (done ++ [x]) v = leader g done v := by
  unfold leader at h ⊢
  rw [List.find?_append]
  rcases h with h | h
  · simp [h]
  · obtain ⟨y, hy⟩ := Option.ne_none_iff_exists'.mp h
    simp [hy]

theorem leader_append_new (hreach : g.Reachable x v) (hnone : leader g done v = none) :
    leader g (done ++ [x]) v = some x := by
  unfold leader at hnone ⊢
  rw [List.find?_append, hnone]
  simp [hreach]

/-- Nodes that reach each other have the same leader. -/
theorem leader_congr (huv : g.Reachable u v) (hvu : g.Reachable v u) :
    leader g queue u = leader g queue v := by
  unfold leader
  congr 1
  funext y
  exact decide_eq_decide.mpr ⟨fun h => h.trans huv, fun h => h.trans hvu⟩

/-- A leader leads itself. -/
theorem leader_leader (h : leader g queue v = some y) : leader g queue y = some y := by
  obtain ⟨hreach, earlier, later, hqueue, hearlier⟩ := leader_eq_some.mp h
  exact leader_eq_some.mpr ⟨.refl, earlier, later, hqueue, fun z hz hzy =>
    hearlier z hz (hzy.trans hreach)⟩

end Leaders

/-! ## The second pass -/

/-- The numbering after the nodes of `done`: numbered alike is led alike. -/
structure Led (g : LockGraph) (done : List LockAddress) (n : Numbering) : Prop where
  numbered : Numbered g n
  visited : ∀ v, v ∈ n.visited ↔ leader g done v ≠ none
  same : ∀ u ∈ n.visited, ∀ v ∈ n.visited,
    (n.component[u]? = n.component[v]? ↔ leader g done u = leader g done v)

section Numbers
variable {ord : NodeOrder} {g : LockGraph} {done queue : List LockAddress} {n n' : Numbering}
  {x v : LockAddress}

theorem Led.skip (h : Led g done n) (hx : x ∈ n.visited) : Led g (done ++ [x]) n := by
  have hleader : ∀ v, leader g (done ++ [x]) v = leader g done v := by
    intro v
    refine leader_append_of_reaches ?_
    by_contra hnew
    simp only [not_or, not_not] at hnew
    obtain ⟨y, hy⟩ := Option.ne_none_iff_exists'.mp ((h.visited x).mp hx)
    obtain ⟨hreach, earlier, later, rfl, -⟩ := leader_eq_some.mp hy
    exact leader_eq_none.mp hnew.2 y (by simp) (hreach.trans hnew.1)
  refine ⟨h.numbered, fun v => ?_, fun u hu v hv => ?_⟩
  · rw [hleader, h.visited]
  · rw [hleader, hleader, h.same u hu v hv]

/-- Everything a second-pass search marks can be reached from its node. -/
theorem marks_rule (number : Int) (x : LockAddress) :
    NodeRule (fun v => ord.iterate (g.node v).getInNeibours)
      (fun v component => component.insert v number) (fun _ component => component)
      (g.Reachable x) (fun a b : Finset LockAddress × TreeMap LockAddress Int =>
        ∀ v ∈ b.1, v ∈ a.1 ∨ g.Reachable x v) where
  next hv w hw := hv.tail (LockGraph.mem_getInNeibours.mp (ord.mem_iterate.mp hw))
  refl _ _ hv := .inl hv
  trans _ _ h h' v hv := (h' v hv).elim (h v) .inr
  node {v seen y st} hv _ _ _ h u hu := by
    rcases h u hu with hu | hu
    · rcases Finset.mem_insert.mp hu with rfl | hu
      · exact .inr hv
      · exact .inl hu
    · exact .inr hu

theorem visited_of_reachable (h : Numbered g n) (hx : x ∈ n.visited)
    (hreach : g.Reachable x v) : v ∈ n.visited := by
  induction hreach with
  | refl => exact hx
  | tail _ hedge ih => exact h.closed _ _ ih hedge

/-- Two labellings that put the same old nodes together, and all new nodes under a label
of their own, still put the same nodes together. -/
theorem same_of_extended {α β γ : Type} {old new : Finset α} {f f' : α → β} {l l' : α → γ} {b : β}
    {c : γ} (hsame : ∀ u ∈ old, ∀ v ∈ old, (f u = f v ↔ l u = l v))
    (hkeeps : ∀ v ∈ old, l' v = l v ∧ f' v = f v)
    (hgets : ∀ v ∈ new, v ∉ old → l' v = c ∧ f' v = b)
    (hdiffer : ∀ u ∈ old, l u ≠ c ∧ f u ≠ b) :
    ∀ u ∈ new, ∀ v ∈ new, (f' u = f' v ↔ l' u = l' v) := by
  intro u hu v hv
  by_cases huold : u ∈ old
  · rw [(hkeeps u huold).1, (hkeeps u huold).2]
    by_cases hvold : v ∈ old
    · rw [(hkeeps v hvold).1, (hkeeps v hvold).2]
      exact hsame u huold v hvold
    · rw [(hgets v hv hvold).1, (hgets v hv hvold).2]
      exact iff_of_false (hdiffer u huold).2 (hdiffer u huold).1
  · rw [(hgets u hu huold).1, (hgets u hu huold).2]
    by_cases hvold : v ∈ old
    · rw [(hkeeps v hvold).1, (hkeeps v hvold).2]
      exact iff_of_false (hdiffer v hvold).2.symm (hdiffer v hvold).1.symm
    · rw [(hgets v hv hvold).1, (hgets v hv hvold).2]
      exact iff_of_true rfl rfl

theorem Led.assign {visited : Finset LockAddress} {component : TreeMap LockAddress Int}
    {fuel : Nat} (h : Led g done n) (hx : x ∉ n.visited)
    (hrun : assignCompNumber ord g (n.componentNum + 1) fuel x (n.visited, n.component) =
      some (visited, component)) :
    Led g (done ++ [x]) ⟨visited, component, n.componentNum + 1⟩ := by
  obtain ⟨hnumbered, hmem, hsub⟩ := h.numbered.assign hx hrun
  obtain ⟨⟨hnew, hold⟩, -⟩ := visit_rule (addsNumber_rule _ _) trivial hx hrun
  have hmarks := (visit_rule (marks_rule (n.componentNum + 1) x) .refl hx hrun).1
  dsimp only at hnew hold hmarks
  have hvisited : ∀ v, v ∈ visited ↔ v ∈ n.visited ∨ g.Reachable x v := by
    intro v
    constructor
    · exact hmarks v
    · rintro (hv | hreach)
      · exact hsub hv
      · exact visited_of_reachable hnumbered hmem hreach
  -- old nodes keep leader and number, new ones have `x` and the new number
  have hkeeps : ∀ v ∈ n.visited, leader g (done ++ [x]) v = leader g done v ∧
      component[v]? = n.component[v]? := fun v hv =>
    ⟨leader_append_of_reaches (.inr ((h.visited v).mp hv)), hold v (.inl hv)⟩
  have hgets : ∀ v ∈ visited, v ∉ n.visited → leader g (done ++ [x]) v = some x ∧
      component[v]? = some (n.componentNum + 1) := by
    intro v hv hvold
    have hreach := ((hvisited v).mp hv).resolve_left hvold
    have hnone : leader g done v = none := by
      by_contra hne
      exact hvold ((h.visited v).mpr hne)
    exact ⟨leader_append_new hreach hnone, hnew v hv hvold⟩
  have hdiffer : ∀ u ∈ n.visited, leader g done u ≠ some x ∧
      n.component[u]? ≠ some (n.componentNum + 1) := by
    intro u _
    refine ⟨fun hlead => hx ?_, fun hnum => ?_⟩
    · rw [h.visited, leader_leader hlead]
      exact Option.some_ne_none x
    · have := (h.numbered.range u _ hnum).2
      omega
  refine ⟨hnumbered, fun v => ?_, fun u hu v hv => ?_⟩
  · dsimp only
    constructor
    · intro hv
      by_cases hvold : v ∈ n.visited
      · rw [(hkeeps v hvold).1]
        exact (h.visited v).mp hvold
      · rw [(hgets v hv hvold).1]
        exact Option.some_ne_none x
    · intro hne
      rw [hvisited]
      by_contra hnot
      rw [not_or] at hnot
      rw [leader_append_of_reaches (.inl hnot.2)] at hne
      exact hnot.1 ((h.visited v).mpr hne)
  · exact same_of_extended h.same hkeeps hgets hdiffer u hu v hv

theorem Led.numberAll (h : Led g done n) (hrun : numberAll ord g queue n = some n') :
    Led g (done ++ queue) n' := by
  induction queue generalizing done n with
  | nil =>
    obtain rfl := Option.some.inj hrun
    rwa [List.append_nil]
  | cons x queue ih =>
    have hsplit : done ++ x :: queue = (done ++ [x]) ++ queue := by simp
    rw [hsplit]
    unfold Components.numberAll at hrun
    split at hrun
    · rename_i hx
      exact ih (h.skip hx) hrun
    · rename_i hx
      obtain ⟨⟨visited, component⟩, hassign, hrest⟩ := Option.bind_eq_some_iff.mp hrun
      exact ih (h.assign hx hassign) hrest

theorem led_empty : Led g [] {} where
  numbered := numbered_empty
  visited := by simp [leader]
  same := by simp

/-- Every node reaches its leader. -/
def ReachesLeader (g : LockGraph) (queue : List LockAddress) : Prop :=
  ∀ v y, leader g queue v = some y → g.Reachable v y

/-- The numbers are those of the components just if every node reaches its leader. -/
theorem correct_iff_led (hg : g.Closed) (hsort : sortAll ord g = some queue) :
    Correct ord g ↔ ReachesLeader g queue := by
  obtain ⟨n, hn, -, hall⟩ := findSCC_numbered ord hg
  obtain ⟨queue', hsort', hqueue⟩ := sortAll_isSome ord hg
  obtain rfl : queue = queue' := Option.some.inj (hsort.symm.trans hsort')
  have hrun : numberAll ord g queue {} = some n := by
    rw [findSCC, hsort] at hn
    exact hn
  have hled := led_empty.numberAll hrun
  rw [List.nil_append] at hled
  have hnode : ∀ {v}, v ∈ n.visited ↔ v ∈ g.lockNodeMap := by
    intro v
    constructor
    · intro hv
      obtain ⟨y, hy⟩ := Option.ne_none_iff_exists'.mp ((hled.visited v).mp hv)
      obtain ⟨hreach, earlier, later, rfl, -⟩ := leader_eq_some.mp hy
      rcases hreach.cases_tail with rfl | ⟨z, -, hedge⟩
      · exact (hqueue _).mp (by simp)
      · exact hg _ _ hedge
    · exact fun hv => (hled.numbered.mem v).mpr (hall v hv)
  constructor
  · rintro ⟨n', hn', -, hcorrect⟩ v y hlead
    obtain rfl : n = n' := Option.some.inj (hn.symm.trans hn')
    have hv : v ∈ n.visited := by
      rw [hled.visited, hlead]
      exact Option.some_ne_none y
    have hy : y ∈ n.visited := by
      rw [hled.visited, leader_leader hlead]
      exact Option.some_ne_none y
    have hsame := (hled.same v hv y hy).mpr (hlead.trans (leader_leader hlead).symm)
    exact ((hcorrect v (hnode.mp hv) y (hnode.mp hy)).mp hsame).1
  · intro hreaches
    refine ⟨n, hn, hall, fun u hu v hv => ?_⟩
    rw [hled.same u (hnode.mpr hu) v (hnode.mpr hv)]
    constructor
    · intro hlead
      obtain ⟨y, hy⟩ := Option.ne_none_iff_exists'.mp ((hled.visited v).mp (hnode.mpr hv))
      have hyu := hlead.trans hy
      exact ⟨(hreaches u y hyu).trans (leader_eq_some.mp hy).1,
        (hreaches v y hy).trans (leader_eq_some.mp hyu).1⟩
    · exact fun hmutual => leader_congr hmutual.1 hmutual.2

end Numbers

/-! ## The first pass -/

section Queue
variable {ord : NodeOrder} {g : LockGraph} {queue path : List LockAddress} {x : LockAddress}

theorem next_eq_edge (ord : NodeOrder) (g : LockGraph) :
    Next (fun v => ord.iterate (g.node v).getOutNeibours) = g.Edge := by
  funext v w
  exact propext (ord.mem_iterate.trans LockGraph.mem_getOutNeibours)

theorem emits_sortAll (h : sortAll ord g = some queue) :
    Emits (fun v => ord.iterate (g.node v).getOutNeibours) queue := by
  rw [sortAll_eq] at h
  obtain ⟨st, hrun, rfl⟩ := Option.map_eq_some_iff.mp h
  exact (emits_of_emitAll hrun suspended_new).emits

/-- Where the graph can be left at all dead ends, every order gives the right numbers. -/
theorem reachesLeader_of_leavesAtEnds (h : LeavesAtEnds g) (hsort : sortAll ord g = some queue) :
    ReachesLeader g queue := by
  intro u x hlead
  obtain ⟨hreach, earlier, later, hqueue, hearlier⟩ := leader_eq_some.mp hlead
  obtain ⟨path, hchain, hnodup, hlast, hopen, hnbrs⟩ := emits_sortAll hsort earlier x later hqueue
  rw [next_eq_edge] at hchain
  have hbefore : ∀ w, g.Edge x w → w ∈ earlier ∨ w ∈ path := fun w hw =>
    hnbrs w (ord.mem_iterate.mpr (LockGraph.mem_getOutNeibours.mpr hw))
  by_contra hno
  have hdead : DeadEnd g path x := by
    refine ⟨hchain, hnodup, hlast, fun w hw hback => (hbefore w hw).resolve_left fun hmem => ?_⟩
    exact hearlier w hmem (hback.trans hreach)
  obtain ⟨w, hedge, hleaves, hwu⟩ := h path x hdead u hreach hno
  rcases hbefore w hedge with hmem | hmem
  · exact hearlier w hmem hwu
  · exact hleaves (reaches_of_chain hchain hlast w hmem)

/-! ## Orders that follow a path -/

/-- The nodes of the path come first, in its order. -/
def alongPath (path : List LockAddress) : NodeOrder where
  iterate nodes := nodes.mergeSort fun a b => path.idxOf a ≤ path.idxOf b
  perm nodes := List.mergeSort_perm nodes _

theorem alongPath_split {walked rest nodes : List LockAddress} {w : LockAddress}
    (hnodup : (walked ++ w :: rest).Nodup) (hw : w ∈ nodes) :
    ∃ skipped others, (alongPath (walked ++ w :: rest)).iterate nodes = skipped ++ w :: others ∧
      ∀ z ∈ skipped, z ∈ walked := by
  have hmem : w ∈ (alongPath (walked ++ w :: rest)).iterate nodes :=
    (alongPath _).mem_iterate.mpr hw
  obtain ⟨skipped, others, hsplit, hnot⟩ := List.eq_append_cons_of_mem hmem
  refine ⟨skipped, others, hsplit, fun z hz => ?_⟩
  have hsorted := @List.pairwise_mergeSort _ (fun a b =>
    decide ((walked ++ w :: rest).idxOf a ≤ (walked ++ w :: rest).idxOf b))
    (fun a b c => by simpa using Nat.le_trans) (fun a b => by simpa using Nat.le_total _ _) nodes
  have hsplit' : nodes.mergeSort (fun a b =>
      decide ((walked ++ w :: rest).idxOf a ≤ (walked ++ w :: rest).idxOf b)) =
      skipped ++ w :: others := hsplit
  rw [hsplit'] at hsorted
  have hle : (walked ++ w :: rest).idxOf z ≤ (walked ++ w :: rest).idxOf w :=
    of_decide_eq_true ((List.pairwise_append.mp hsorted).2.2 z hz w List.mem_cons_self)
  have hwalked : w ∉ walked := fun hmem =>
    (List.nodup_append.mp hnodup).2.2 w hmem w List.mem_cons_self rfl
  have hne : z ≠ w := fun heq => hnot (heq ▸ hz)
  by_contra hz'
  rw [List.idxOf_append, List.idxOf_append, if_neg hz', if_neg hwalked] at hle
  rw [List.idxOf_cons_self, List.idxOf_cons_ne _ (Ne.symm hne)] at hle
  omega

theorem leads_alongPath (hchain : List.IsChain g.Edge path) (hnodup : path.Nodup) :
    Leads (fun v => (alongPath path).iterate (g.node v).getOutNeibours) path := by
  rintro walked v w rest rfl
  have hedge : g.Edge v w := (List.isChain_append_cons_cons.mp hchain).2.1
  have hpath : walked ++ v :: w :: rest = (walked ++ [v]) ++ w :: rest := by simp
  rw [hpath] at hnodup ⊢
  exact alongPath_split hnodup (LockGraph.mem_getOutNeibours.mpr hedge)

/-- The first pass follows the path, and what it has emitted when it leaves the end of
the path it has reached by other edges from there. -/
theorem emitsAtEnd_alongPath {v : LockAddress} {rest : List LockAddress}
    (hchain : List.IsChain g.Edge (v :: rest)) (hnodup : (v :: rest).Nodup)
    (hlast : (v :: rest).getLast? = some x) (hv : v ∈ g.lockNodeMap)
    (hsort : sortAll (alongPath (v :: rest)) g = some queue) :
    EmitsAtEnd (fun v' => (alongPath (v :: rest)).iterate (g.node v').getOutNeibours)
      (v :: rest) x queue := by
  obtain ⟨skipped, others, hnodes, hskipped⟩ :=
    @alongPath_split [] rest g.getNodeSet v hnodup (LockGraph.mem_getNodeSet.mpr hv)
  obtain rfl : skipped = [] := List.eq_nil_iff_forall_not_mem.mpr fun z hz => by
    cases hskipped z hz
  obtain ⟨st, hrun, rfl⟩ := Option.map_eq_some_iff.mp hsort
  rw [List.nil_append] at hnodes
  rw [hnodes] at hrun
  exact emitAll_follows (leads_alongPath hchain hnodup) hnodup hlast hrun

theorem leavesAtEnds_of_reachesLeader (hg : g.Closed)
    (h : ∀ ord queue, sortAll ord g = some queue → ReachesLeader g queue) : LeavesAtEnds g := by
  intro path x hdead u hreach hno
  obtain ⟨v, rest, rfl⟩ : ∃ v rest, path = v :: rest := by
    cases path with
    | nil => cases hdead.last
    | cons v rest => exact ⟨v, rest, rfl⟩
  have hx : ∃ w, g.Edge x w := by
    rcases hreach.cases_head with rfl | ⟨w, hw, -⟩
    · exact absurd .refl hno
    · exact ⟨w, hw⟩
  have hv : v ∈ g.lockNodeMap := by
    cases rest with
    | nil =>
      obtain rfl : v = x := by simpa using hdead.last
      exact hx.choose_spec.mem
    | cons w rest => exact (List.isChain_cons_cons.mp hdead.chain).1.mem
  obtain ⟨queue, hsort, -⟩ := sortAll_isSome (alongPath (v :: rest)) hg
  obtain ⟨earlier, later, hqueue, hearlier⟩ :=
    emitsAtEnd_alongPath hdead.chain hdead.nodup hdead.last hv hsort
  rw [next_eq_edge] at hearlier
  by_contra hnone
  -- nothing that is emitted before `x` reaches `u`, so `x` leads it
  have hlead : leader g queue u = some x := by
    refine leader_eq_some.mpr ⟨hreach, earlier, later, hqueue, fun y hy hyu => hnone ?_⟩
    obtain ⟨w, hw, hpath, hwy⟩ := hearlier y hy
    have hedge : g.Edge x w := LockGraph.mem_getOutNeibours.mp ((alongPath _).mem_iterate.mp hw)
    exact ⟨w, hedge, fun hback => hpath (hdead.stuck w hedge hback), hwy.trans hyu⟩
  exact hno (h _ queue hsort u x hlead)

end Queue

/-- `findSCC` finds the strongly connected components in every iteration order just on
the graphs that can be left at all dead ends. -/
theorem correct_iff (g : LockGraph) (hg : g.Closed) :
    (∀ ord, Correct ord g) ↔ LeavesAtEnds g := by
  constructor
  · intro hcorrect
    exact leavesAtEnds_of_reachesLeader hg fun ord queue hsort =>
      (correct_iff_led hg hsort).mp (hcorrect ord)
  · intro h ord
    obtain ⟨queue, hsort, -⟩ := sortAll_isSome ord hg
    exact (correct_iff_led hg hsort).mpr (reachesLeader_of_leavesAtEnds h hsort)

/-- Two mutexes taken in both orders, and a third one below the first. -/
def cycleWithTail : LockGraph := LockGraph.read "g" [(1, [(2, 1), (3, 1)]), (2, [(1, 1)])]

theorem correct_iff_cycleWithTail : cycleWithTail.Closed ∧
    ((∀ ord, Correct ord cycleWithTail) ↔ LeavesAtEnds cycleWithTail) :=
  ⟨LockGraph.closed_read _ _, correct_iff cycleWithTail (LockGraph.closed_read _ _)⟩

theorem cycleWithTail_no_way_back : ¬ cycleWithTail.Reachable 3 1 := by
  intro hback
  rcases hback.cases_head with heq | ⟨w, hedge, -⟩
  · cases heq
  · simp [cycleWithTail, LockGraph.edge_read] at hedge

theorem cycleWithTail_not_correct :
    ¬ ∀ (ord : NodeOrder) (g : LockGraph), g.Closed → Correct ord g := by
  intro hall
  obtain ⟨n, hn, -, hcorrect⟩ := hall .byAddress cycleWithTail (LockGraph.closed_read _ _)
  have hsame : (findSCC .byAddress cycleWithTail).map (fun n => n.component[1]?) =
      (findSCC .byAddress cycleWithTail).map (fun n => n.component[3]?) := rfl
  rw [hn] at hsame
  exact cycleWithTail_no_way_back ((hcorrect 1 (by decide) 3 (by decide)).mp (Option.some.inj hsame)).2

/-! ## The order of the queue -/

/-- The first loop of `findSCC` ends, at whatever depth from the number of the nodes on
its recursion may stop, and its queue has every node once, behind the targets of its
edges that do not lead back to it. -/
theorem sortAll_order (ord : NodeOrder) (g : LockGraph) (hg : g.Closed) : ∃ queue,
    (∃ visited, ∀ fuel, g.size ≤ fuel →
      emitAll (fun v => ord.iterate (g.node v).getOutNeibours) fuel (ord.iterate g.getNodeSet)
        (∅, []) = some (visited, queue)) ∧
    sortAll ord g = some queue ∧ queue.Nodup ∧ (∀ v, v ∈ queue ↔ v ∈ g.lockNodeMap) ∧
    ∀ u v, g.Edge u v → ¬ g.Reachable v u →
      ∃ earlier later, queue = earlier ++ u :: later ∧ v ∈ earlier := by
  obtain ⟨queue, hsort, hqueue⟩ := sortAll_isSome ord hg
  have hemits := emits_sortAll hsort
  refine ⟨queue, ?_, hsort, hemits.nodup, hqueue, fun u v hedge hback => ?_⟩
  · rw [sortAll_eq] at hsort
    obtain ⟨⟨visited, queue'⟩, hrun, rfl⟩ := Option.map_eq_some_iff.mp hsort
    exact ⟨visited, fun fuel hfuel => visitAll_mono hfuel hrun⟩
  · refine hemits.before ((hqueue u).mpr hedge.mem) ?_ ?_
    · exact ord.mem_iterate.mpr (LockGraph.mem_getOutNeibours.mpr hedge)
    · rw [next_eq_edge]
      exact hback

theorem sortAll_order_cycleWithTail : cycleWithTail.Closed ∧
    ∃ queue, sortAll .byAddress cycleWithTail = some queue ∧ queue.Nodup ∧
      ∃ earlier later, queue = earlier ++ 1 :: later ∧ 3 ∈ earlier := by
  obtain ⟨queue, -, hsort, hnodup, -, hbefore⟩ :=
    sortAll_order .byAddress cycleWithTail (LockGraph.closed_read _ _)
  exact ⟨LockGraph.closed_read _ _, queue, hsort, hnodup,
    hbefore 1 3 (by decide) cycleWithTail_no_way_back⟩

end Lockout.LockTracer.StrongComponents
