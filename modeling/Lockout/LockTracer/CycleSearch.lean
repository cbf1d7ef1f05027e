import Mathlib.Data.Finset.Union
import Mathlib.Tactic.Tauto
import Lockout.Lib.BreadthFirst
import Lockout.LockTracer.Graph

/-! # The search for a deadlock to reveal

`selectDeadlock` searches breadth-first from one node after the other and takes the
first node it meets again for the end of a cycle, which it reads off the parents. The
walk to that node is the first of its search that meets an earlier walk
(`Lib.BreadthFirst`): where it comes to its last node twice the locks are those of a
cycle, elsewhere the parents lead to the null parent of the root. -/

namespace Lockout.LockTracer.CycleSearch
open Std
open Lockout.Lib.BreadthFirst Lockout.LockTracer.Graph

/-- Why `selectDeadlock` does not return. -/
inductive Fault
  /-- `getValue` of a null `Node*`. -/
  | nullNode
  | outOfFuel
  deriving DecidableEq

/-- `parent`, with `none` for a null `Node*`, and `queue`. -/
structure Frontier where
  parent : TreeMap LockAddress (Option LockAddress)
  queue : List LockAddress

/-- Where a loop over the graph leaves off. -/
inductive Progress
  | returned (locks : Finset LockAddress)
  | goOn (st : Frontier)

/-- The inner `while` and the insertion after it: `temp` goes up the parents to `to`. -/
def followParents (parent : TreeMap LockAddress (Option LockAddress)) (to_ : LockAddress) :
    Nat → Option LockAddress → Finset LockAddress → Except Fault (Finset LockAddress)
  | 0, _, _ => .error .outOfFuel
  | n + 1, temp, locks =>
    if temp = some to_ then .ok (insert to_ locks)
    else match temp with
      | none => .error .nullNode
      | some node => followParents parent to_ n parent[node]?.join (insert node locks)

/-- The loop over the neighbours of `from_`. -/
def scanNeibours (n : Nat) (from_ : LockAddress) :
    List LockAddress → Frontier → Finset LockAddress → Except Fault Progress
  | [], st, _ => .ok (.goOn st)
  | to_ :: neibs, st, locks =>
    if to_ ∈ st.parent then
      (followParents st.parent to_ n (some from_) locks).map .returned
    else
      scanNeibours n from_ neibs ⟨st.parent.insert to_ (some from_), st.queue ++ [to_]⟩ locks

/-- The outer `while`, with the fuel of the inner one. -/
def searchQueue (ord : NodeOrder) (g : LockGraph) (n : Nat) :
    Nat → Frontier → Finset LockAddress → Except Fault Progress
  | 0, _, _ => .error .outOfFuel
  | fuel + 1, st, locks =>
    match st.queue with
    | [] => .ok (.goOn st)
    | from_ :: queue =>
      match scanNeibours n from_ (ord.iterate (g.node from_).getOutNeibours)
          { st with queue := queue } locks with
      | .ok (.goOn st) => searchQueue ord g n fuel st locks
      | out => out

/-- The loop over the nodes. -/
def searchNodes (ord : NodeOrder) (g : LockGraph) (n : Nat) :
    List LockAddress → Finset LockAddress → Except Fault (Finset LockAddress)
  | [], locks => .ok locks
  | node :: nodes, locks =>
    match searchQueue ord g n n ⟨(∅ : TreeMap _ _).insert node none, [node]⟩ locks with
    | .ok (.returned locks) => .ok locks
    | .ok (.goOn _) => searchNodes ord g n nodes locks
    | .error fault => .error fault

/-- `theDeadlock.locks` after `selectDeadlock`. -/
def selectDeadlock (ord : NodeOrder) (g : LockGraph) (n : Nat) (locks : Finset LockAddress) :
    Except Fault (Finset LockAddress) :=
  searchNodes ord g n (ord.iterate g.getNodeSet) locks

/-! ## What it is to compute -/

/-- The nodes of a directed cycle, in its order. -/
def IsCycle (g : LockGraph) (c : List LockAddress) : Prop :=
  c.Nodup ∧ ∃ v rest, c = v :: rest ∧ List.IsChain g.Edge (c ++ [v])

/-- With fuel enough `selectDeadlock` returns the locks of a cycle, none if the graph
has no cycle. -/
def Correct (ord : NodeOrder) (g : LockGraph) : Prop :=
  ∃ N, ∀ n, N ≤ n → ∃ locks, selectDeadlock ord g n ∅ = .ok locks ∧
    ((∃ c, IsCycle g c) → ∃ c, IsCycle g c ∧ c.toFinset = locks) ∧
    ((¬ ∃ c, IsCycle g c) → locks = ∅)

/-- The neighbours of a node as the loop lists them. -/
def listed (ord : NodeOrder) (g : LockGraph) (v : LockAddress) : List LockAddress :=
  ord.iterate (g.node v).getOutNeibours

/-- From the first node from which two walks lead to one node, the first walk that ends
where an earlier one has ended has come to that node itself. -/
def FirstMeetingCloses (ord : NodeOrder) (g : LockGraph) : Prop :=
  ∀ earlier s later, ord.iterate g.getNodeSet = earlier ++ s :: later →
    (∀ s' ∈ earlier, ∀ p, Walk (listed ord g) s' p → ¬ Meets (listed ord g) s' p) →
    ∀ v p, FirstMeeting (listed ord g) s (v :: p) → v ∈ p

section Graphs
variable {ord : NodeOrder} {g : LockGraph} {u v : LockAddress}

theorem mem_listed : v ∈ listed ord g u ↔ g.Edge u v :=
  ord.mem_iterate.trans LockGraph.mem_getOutNeibours

theorem nodup_listed : (listed ord g u).Nodup :=
  (ord.perm _).nodup_iff.mpr TreeMap.nodup_keys

/-- The nodes of a graph and their neighbours. -/
def places (g : LockGraph) : Finset LockAddress :=
  g.getNodeSet.toFinset ∪
    g.getNodeSet.toFinset.biUnion fun v => (g.node v).getOutNeibours.toFinset

theorem mem_places (h : v ∈ g.getNodeSet) : v ∈ places g :=
  Finset.mem_union_left _ (List.mem_toFinset.mpr h)

theorem places_closed : ∀ u ∈ places g, ∀ v ∈ listed ord g u, v ∈ places g := by
  intro u _ v hv
  have hedge : g.Edge u v := mem_listed.mp hv
  refine Finset.mem_union_right _ (Finset.mem_biUnion.mpr ⟨u, ?_, ?_⟩)
  · exact List.mem_toFinset.mpr (LockGraph.mem_getNodeSet.mpr hedge.mem)
  · exact List.mem_toFinset.mpr (LockGraph.mem_getOutNeibours.mpr hedge)

end Graphs

/-! ## One search -/

/-- The parents are those on the walks found. -/
structure Tracks (found : List (List LockAddress))
    (parent : TreeMap LockAddress (Option LockAddress)) : Prop where
  mem : ∀ v, v ∈ parent ↔ ∃ p, v :: p ∈ found
  follow : ∀ v p, v :: p ∈ found → parent[v]? = some p.head?

/-- The two ways in which a search that meets a node again can end. -/
inductive Met (nbrs : LockAddress → List LockAddress) (s : LockAddress)
    (locks : Finset LockAddress) : Except Fault Progress → Prop
  | cycle {v a b} : FirstMeeting nbrs s (v :: (a ++ v :: b)) → (a ++ v :: b).Nodup →
      Met nbrs s locks (.ok (.returned (insert v (a.toFinset ∪ locks))))
  | null {v p} : FirstMeeting nbrs s (v :: p) → v ∉ p → Met nbrs s locks (.error .nullNode)

section Searches
variable {nbrs : LockAddress → List LockAddress} {s to_ : LockAddress} {n : Nat}
  {locks : Finset LockAddress} {done scanned found : List (List LockAddress)}
  {parent : TreeMap LockAddress (Option LockAddress)} {p : List LockAddress}
  {V : Finset LockAddress}

theorem Tracks.add (h : Tracks found parent) {v : LockAddress} (hv : v ∉ parent) :
    Tracks (found ++ [v :: p]) (parent.insert v p.head?) where
  mem u := by
    rw [TreeMap.mem_insert, Nat.compare_eq_eq, h.mem]
    simp only [List.mem_append, List.mem_singleton, List.cons.injEq]
    constructor
    · intro hu
      rcases hu with heq | ⟨q, hq⟩
      · exact ⟨p, .inr ⟨heq.symm, rfl⟩⟩
      · exact ⟨q, .inl hq⟩
    · intro hu
      obtain ⟨q, hq⟩ := hu
      rcases hq with hq | ⟨heq, -⟩
      · exact .inr ⟨q, hq⟩
      · exact .inl heq.symm
  follow u q hq := by
    rw [TreeMap.getElem?_insert]
    rcases List.mem_append.mp hq with hq | hq
    · have hne : v ≠ u := fun heq => hv (heq ▸ (h.mem u).mpr ⟨q, hq⟩)
      rw [if_neg (by simpa using hne)]
      exact h.follow u q hq
    · obtain ⟨rfl, rfl⟩ := List.cons.inj (List.mem_singleton.mp hq)
      rw [if_pos (by simp)]

/-- The parents of a node lead to the null parent past a node that is not on its walk. -/
theorem followParents_null (h : Found nbrs s done scanned found) (ht : Tracks found parent)
    (hp : p = [] ∨ p ∈ found) (hn : p.length < n) (hto : to_ ∉ p) :
    followParents parent to_ n p.head? locks = .error .nullNode := by
  induction p generalizing n locks with
  | nil =>
    cases n with
    | zero => cases hn
    | succ n => rfl
  | cons v p ih =>
    cases n with
    | zero => cases hn
    | succ n =>
      have hmem : v :: p ∈ found := hp.resolve_left nofun
      have hne : ¬ some v = some to_ := fun heq => hto (by simp [Option.some.inj heq])
      rw [List.head?_cons, followParents, if_neg hne]
      rw [ht.follow v p hmem, Option.join_some]
      refine ih ?_ (Nat.lt_of_succ_lt_succ hn) fun hmem => hto (List.mem_cons_of_mem _ hmem)
      cases p with
      | nil => exact .inl rfl
      | cons u p => exact .inr (@Found.of_append _ _ _ _ _ _ h [v] (u :: p) nofun hmem)

/-- The parents of a node lead to a node on its walk by the nodes between them. -/
theorem followParents_cycle {a b : List LockAddress} (h : Found nbrs s done scanned found)
    (ht : Tracks found parent) (hp : a ++ to_ :: b ∈ found) (hn : a.length < n) (hto : to_ ∉ a) :
    followParents parent to_ n (a ++ to_ :: b).head? locks =
      .ok (insert to_ (a.toFinset ∪ locks)) := by
  induction a generalizing n locks with
  | nil =>
    cases n with
    | zero => cases hn
    | succ n => simp [followParents]
  | cons v a ih =>
    cases n with
    | zero => cases hn
    | succ n =>
      have hne : ¬ some v = some to_ := fun heq => hto (by simp [Option.some.inj heq])
      rw [List.cons_append, List.head?_cons, followParents, if_neg hne]
      have htail : a ++ to_ :: b ∈ found :=
        @Found.of_append _ _ _ _ _ _ h [v] (a ++ to_ :: b) (by simp) hp
      have hrest := @ih n (insert v locks) htail (Nat.lt_of_succ_lt_succ hn)
        fun hmem => hto (List.mem_cons_of_mem _ hmem)
      rw [ht.follow v _ hp, Option.join_some]
      refine hrest.trans (congrArg Except.ok ?_)
      ext x
      simp only [Finset.mem_insert, Finset.mem_union, List.mem_toFinset, List.mem_cons]
      tauto

/-- The walks in the queue of a search. -/
structure Frontier.Holds (st : Frontier) (done queue : List (List LockAddress)) : Prop where
  tracks : Tracks (done ++ queue) st.parent
  queue : st.queue = queue.filterMap List.head?

/-- What a scan of the neighbours leaves: all have been met for the first time, or one
ends the first walk to meet another. -/
inductive Scanned (nbrs : LockAddress → List LockAddress) (s : LockAddress)
    (done : List (List LockAddress)) (w : List LockAddress) (locks : Finset LockAddress) :
    Except Fault Progress → Prop
  | goOn {st queue} : Found nbrs s (done ++ [w]) [] ((done ++ [w]) ++ queue) →
      st.Holds (done ++ [w]) queue → Scanned nbrs s done w locks (.ok (.goOn st))
  | met {out} : Met nbrs s locks out → Scanned nbrs s done w locks out

/-- A neighbour that has been found before ends the search, by the parents of the node. -/
theorem met_of_mem_parent {u v : LockAddress} {queue : List (List LockAddress)}
    {scanned rest : List LockAddress} (hnodup : (nbrs u).Nodup)
    (h : Found nbrs s done (scanned.map (· :: u :: p)) (done ++ (u :: p) :: queue))
    (hnbrs : nbrs u = scanned ++ v :: rest) (ht : Tracks (done ++ (u :: p) :: queue) parent)
    (hv : v ∈ parent) (hlength : (u :: p).length < n) :
    Met nbrs s locks ((followParents parent v n (some u) locks).map .returned) := by
  have hmem : u :: p ∈ done ++ (u :: p) :: queue := by simp
  obtain ⟨q, hfound⟩ := (ht.mem v).mp hv
  have hmeeting := h.firstMeeting hnodup hnbrs hfound rfl
  by_cases hon : v ∈ u :: p
  · obtain ⟨a, b, hsplit, ha⟩ := List.eq_append_cons_of_mem hon
    have hlt : a.length < n := by
      rw [hsplit, List.length_append] at hlength
      omega
    have hwalk : a ++ v :: b ∈ done ++ (u :: p) :: queue := by
      rw [← hsplit]
      exact hmem
    have hhead : some u = (a ++ v :: b).head? := by
      rw [← hsplit]
      rfl
    rw [hhead, followParents_cycle h ht hwalk hlt ha]
    rw [hsplit] at hmeeting
    exact .cycle hmeeting (h.nodup hwalk)
  · rw [show some u = (u :: p).head? from rfl, followParents_null h ht (.inr hmem) hlength hon]
    exact .null hmeeting hon

theorem scanNeibours_scanned {u : LockAddress} {queue : List (List LockAddress)}
    {scanned rest : List LockAddress} {st : Frontier} (hnodup : (nbrs u).Nodup)
    (h : Found nbrs s done (scanned.map (· :: u :: p)) (done ++ (u :: p) :: queue))
    (hnbrs : nbrs u = scanned ++ rest) (ht : Tracks (done ++ (u :: p) :: queue) st.parent)
    (hq : st.queue = queue.filterMap List.head?) (hs : s ∈ V)
    (hV : ∀ u ∈ V, ∀ v ∈ nbrs u, v ∈ V) (hn : V.card < n) :
    Scanned nbrs s done (u :: p) locks (scanNeibours n u rest st locks) := by
  induction rest generalizing scanned queue st with
  | nil =>
    rw [List.append_nil] at hnbrs
    rw [← hnbrs] at h
    refine .goOn h.finish ⟨?_, hq⟩
    simpa using ht
  | cons v rest ih =>
    have hmem : u :: p ∈ done ++ (u :: p) :: queue := by simp
    have hlength := (h.length_walk_le hs hV hmem).trans_lt hn
    unfold scanNeibours
    split
    · rename_i hv
      exact .met (met_of_mem_parent hnodup h hnbrs ht hv hlength)
    · rename_i hv
      have hnew : ∀ q ∈ done ++ (u :: p) :: queue, q.head? ≠ some v := by
        intro q hfound hhead
        cases q with
        | nil => cases hhead
        | cons x q =>
          obtain rfl := Option.some.inj hhead
          exact hv ((ht.mem x).mpr ⟨q, hfound⟩)
      have htracks : Tracks ((done ++ (u :: p) :: queue) ++ [v :: u :: p])
          (st.parent.insert v (some u)) := ht.add hv
      rw [List.append_assoc, List.cons_append] at htracks
      exact ih (h.add hnodup hnbrs hnew) (by rw [hnbrs]; simp) htracks (by simp [hq])

end Searches

section Loops
variable {ord : NodeOrder} {g : LockGraph} {s : LockAddress} {n fuel : Nat}
  {locks : Finset LockAddress} {done queue : List (List LockAddress)} {st : Frontier}
  {nodes : List LockAddress}

/-- What a search from `s` comes to: no walk meets another, or the first one that does
decides. -/
inductive Searched (nbrs : LockAddress → List LockAddress) (s : LockAddress)
    (locks : Finset LockAddress) : Except Fault Progress → Prop
  | goOn {st : Frontier} : (∀ p, Walk nbrs s p → ¬ Meets nbrs s p) →
      Searched nbrs s locks (.ok (.goOn st))
  | met {out} : Met nbrs s locks out → Searched nbrs s locks out

theorem searchQueue_searched (hs : s ∈ places g) (hn : (places g).card < n)
    (h : Found (listed ord g) s done [] (done ++ queue)) (hst : st.Holds done queue)
    (hfuel : (places g).card < done.length + fuel) :
    Searched (listed ord g) s locks (searchQueue ord g n fuel st locks) := by
  induction fuel generalizing done queue st with
  | zero =>
    have hlength := h.length_le hs places_closed
    rw [List.length_append] at hlength
    omega
  | succ fuel ih =>
    unfold searchQueue
    cases queue with
    | nil =>
      rw [hst.queue]
      rw [List.append_nil] at h
      exact .goOn fun p hp => h.exhausted hp
    | cons w queue =>
      obtain ⟨u, p, rfl⟩ := List.exists_cons_of_ne_nil (h.walk w (by simp)).ne_nil
      have hqueue : st.queue = u :: queue.filterMap List.head? := hst.queue
      have hscan := @scanNeibours_scanned (listed ord g) s n locks done p (places g) u queue []
        (listed ord g u) { st with queue := queue.filterMap List.head? } nodup_listed h rfl
        hst.tracks rfl hs places_closed hn
      rw [hqueue]
      dsimp only
      unfold listed at hscan
      generalize scanNeibours n u _ _ locks = out at hscan ⊢
      cases hscan with
      | goOn h' hst' =>
        refine ih h' hst' ?_
        rw [List.length_append, List.length_singleton]
        omega
      | met hmet =>
        cases hmet with
        | cycle hmeeting hnodup => exact .met (.cycle hmeeting hnodup)
        | null hmeeting hoff => exact .met (.null hmeeting hoff)

/-- What the loop over the nodes comes to. -/
inductive Selected (nbrs : LockAddress → List LockAddress) (locks : Finset LockAddress) :
    List LockAddress → Except Fault (Finset LockAddress) → Prop
  | none {nodes : List LockAddress} : (∀ s ∈ nodes, ∀ p, Walk nbrs s p → ¬ Meets nbrs s p) →
      Selected nbrs locks nodes (.ok locks)
  | cycle {earlier s later v a b} : (∀ s ∈ earlier, ∀ p, Walk nbrs s p → ¬ Meets nbrs s p) →
      FirstMeeting nbrs s (v :: (a ++ v :: b)) → (a ++ v :: b).Nodup →
      Selected nbrs locks (earlier ++ s :: later) (.ok (insert v (a.toFinset ∪ locks)))
  | null {earlier s later v p} : (∀ s ∈ earlier, ∀ p, Walk nbrs s p → ¬ Meets nbrs s p) →
      FirstMeeting nbrs s (v :: p) → v ∉ p →
      Selected nbrs locks (earlier ++ s :: later) (.error .nullNode)

theorem searchNodes_selected (hnodes : ∀ s ∈ nodes, s ∈ places g) (hn : (places g).card < n) :
    Selected (listed ord g) locks nodes (searchNodes ord g n nodes locks) := by
  induction nodes with
  | nil => exact .none nofun
  | cons s nodes ih =>
    obtain ⟨hs, hnodes⟩ := List.forall_mem_cons.mp hnodes
    have hstart : Frontier.Holds ⟨(∅ : TreeMap _ _).insert s none, [s]⟩ [] [[s]] := by
      refine ⟨⟨fun v => ?_, fun v p hp => ?_⟩, rfl⟩
      · rw [TreeMap.mem_insert, Nat.compare_eq_eq]
        simp [eq_comm]
      · obtain ⟨rfl, rfl⟩ : v = s ∧ p = [] := by simpa using hp
        simp
    have hsearch := @searchQueue_searched ord g s n n locks [] [[s]] _ hs hn found_new hstart
      (by simpa using hn)
    unfold searchNodes
    generalize searchQueue ord g n n _ locks = out at hsearch ⊢
    cases hsearch with
    | goOn hnone =>
      have hrest := ih hnodes
      dsimp only
      generalize searchNodes ord g n nodes locks = out at hrest ⊢
      cases hrest with
      | none hall => exact .none (List.forall_mem_cons.mpr ⟨hnone, hall⟩)
      | @cycle earlier _ _ _ _ _ hearlier hmeeting hnodup =>
        rw [← List.cons_append]
        exact .cycle (List.forall_mem_cons.mpr ⟨hnone, hearlier⟩) hmeeting hnodup
      | null hearlier hmeeting hoff =>
        rw [← List.cons_append]
        exact .null (List.forall_mem_cons.mpr ⟨hnone, hearlier⟩) hmeeting hoff
    | met hmet =>
      cases hmet with
      | cycle hmeeting hnodup =>
        exact @Selected.cycle _ _ [] s nodes _ _ _ nofun hmeeting hnodup
      | null hmeeting hoff => exact @Selected.null _ _ [] s nodes _ _ nofun hmeeting hoff

theorem selectDeadlock_selected (hn : (places g).card < n) :
    Selected (listed ord g) locks (ord.iterate g.getNodeSet) (selectDeadlock ord g n locks) :=
  searchNodes_selected (fun _ hs => mem_places (ord.mem_iterate.mp hs)) hn

/-- `selectDeadlock` ends: it returns or follows the null parent of a root. -/
theorem selectDeadlock_ends : ∃ N, ∀ n, N ≤ n →
    selectDeadlock ord g n locks ≠ .error .outOfFuel := by
  refine ⟨(places g).card + 1, fun n hn hout => ?_⟩
  have hselected := @selectDeadlock_selected ord g n locks hn
  generalize ord.iterate g.getNodeSet = nodes at hselected
  rw [hout] at hselected
  cases hselected

end Loops

/-! ## Cycles -/

section Cycles
variable {ord : NodeOrder} {g : LockGraph} {s v : LockAddress} {a b c : List LockAddress}

/-- A walk that comes to its last node twice has come along a cycle. -/
theorem isCycle_of_walk (h : Walk (listed ord g) s (v :: (a ++ v :: b)))
    (hnodup : (a ++ v :: b).Nodup) : IsCycle g (v :: a.reverse) := by
  obtain ⟨hva, -⟩ := List.nodup_append.mp (List.nodup_middle.mp hnodup |> List.nodup_cons.mp).2
  have hv := (List.nodup_cons.mp (List.nodup_middle.mp hnodup)).1
  refine ⟨?_, v, a.reverse, rfl, ?_⟩
  · exact List.nodup_cons.mpr ⟨by simp_all, List.nodup_reverse.mpr hva⟩
  · have hchain := h.isChain
    rw [show v :: (a ++ v :: b) = (v :: (a ++ [v])) ++ b by simp] at hchain
    have hrev : v :: a.reverse ++ [v] = (v :: (a ++ [v])).reverse := by simp
    rw [hrev, List.isChain_reverse]
    exact hchain.left_of_append.imp fun x y hxy => mem_listed.mp hxy

/-- Around a cycle the walk from one of its nodes comes back to it. -/
theorem meets_of_isCycle (h : IsCycle g c) : ∃ v ∈ ord.iterate g.getNodeSet, ∃ p,
    Walk (listed ord g) v p ∧ Meets (listed ord g) v p := by
  obtain ⟨-, v, rest, rfl, hchain⟩ := h
  rw [List.cons_append] at hchain
  have hwalk : Walk (listed ord g) v (v :: (rest ++ [v])).reverse :=
    walk_of_isChain (hchain.imp fun x y hxy => mem_listed.mpr hxy)
  have hnode : v ∈ g.getNodeSet := by
    obtain ⟨u, path, hpath⟩ := List.exists_cons_of_ne_nil (List.append_ne_nil_of_right_ne_nil rest
      (List.cons_ne_nil v []))
    rw [hpath] at hchain
    exact LockGraph.mem_getNodeSet.mpr (List.isChain_cons_cons.mp hchain).1.mem
  refine ⟨v, ord.mem_iterate.mpr hnode, _, hwalk, [v], .start, .shorter (by simp), by simp⟩

/-- Of two splits of a list, one ends earlier or they are the same. -/
theorem splits_agree {nodes earlier later earlier' later' : List LockAddress} {s s' : LockAddress}
    (h : nodes = earlier ++ s :: later) (h' : nodes = earlier' ++ s' :: later') :
    s ∈ earlier' ∨ s' ∈ earlier ∨ s = s' := by
  rcases List.append_eq_append_iff.mp (h.symm.trans h') with
    ⟨between, rfl, hrest⟩ | ⟨between, rfl, hrest⟩
  · cases between with
    | nil => exact .inr (.inr (List.cons.inj hrest).1)
    | cons x between => exact .inl (by simp [(List.cons.inj hrest).1])
  · cases between with
    | nil => exact .inr (.inr (List.cons.inj hrest).1.symm)
    | cons x between => exact .inr (.inl (by simp [(List.cons.inj hrest).1]))

theorem firstMeetingCloses_of_correct (h : Correct ord g) : FirstMeetingCloses ord g := by
  intro earlier s later hsplit hearlier v p hmeeting
  obtain ⟨N, hN⟩ := h
  obtain ⟨locks, hlocks, -⟩ := hN (N + (places g).card + 1) (by omega)
  have hselected := @selectDeadlock_selected ord g (N + (places g).card + 1) ∅ (by omega)
  rw [hlocks, hsplit] at hselected
  generalize hnodes : earlier ++ s :: later = nodes at hselected
  cases hselected with
  | none hall => exact absurd hmeeting.meets (hall s (by simp [← hnodes]) _ hmeeting.walk)
  | cycle hearlier' hmeeting' _ =>
    rcases splits_agree hnodes.symm rfl with hs | hs' | rfl
    · exact absurd hmeeting.meets (hearlier' s hs _ hmeeting.walk)
    · exact absurd hmeeting'.meets (hearlier _ hs' _ hmeeting'.walk)
    · obtain ⟨rfl, rfl⟩ := List.cons.inj (hmeeting.unique hmeeting')
      simp

theorem correct_of_firstMeetingCloses (hcloses : FirstMeetingCloses ord g) : Correct ord g := by
  refine ⟨(places g).card + 1, fun n hn => ?_⟩
  have hselected := @selectDeadlock_selected ord g n ∅ hn
  generalize selectDeadlock ord g n ∅ = out at hselected ⊢
  generalize hnodes : ord.iterate g.getNodeSet = nodes at hselected
  cases hselected with
  | none hall =>
    refine ⟨∅, rfl, fun hcycle => ?_, fun _ => rfl⟩
    obtain ⟨c, hc⟩ := hcycle
    obtain ⟨v, hv, p, hp, hmeets⟩ := @meets_of_isCycle ord g c hc
    rw [hnodes] at hv
    exact absurd hmeets (hall v hv p hp)
  | cycle _ hmeeting hnodup =>
    have hcycle := isCycle_of_walk hmeeting.walk hnodup
    refine ⟨_, rfl, fun _ => ⟨_, hcycle, ?_⟩, fun hno => absurd ⟨_, hcycle⟩ hno⟩
    ext x
    simp
  | null hearlier hmeeting hoff =>
    exact absurd (hcloses _ _ _ hnodes hearlier _ _ hmeeting) hoff

/-- `selectDeadlock` is right just where the first walk to meet another closes a cycle. -/
theorem selectDeadlock_correct_iff (ord : NodeOrder) (g : LockGraph) :
    Correct ord g ↔ FirstMeetingCloses ord g :=
  ⟨firstMeetingCloses_of_correct, correct_of_firstMeetingCloses⟩

/-- Without cycles it is right just where no two walks from one node meet. -/
theorem correct_iff_of_acyclic (hg : ¬ ∃ c, IsCycle g c) : Correct ord g ↔
    ∀ s ∈ g.getNodeSet, ∀ p, Walk (listed ord g) s p → ¬ Meets (listed ord g) s p := by
  constructor
  · intro hcorrect
    obtain ⟨N, hN⟩ := hcorrect
    obtain ⟨locks, hlocks, -⟩ := hN (N + (places g).card + 1) (by omega)
    have hselected := @selectDeadlock_selected ord g (N + (places g).card + 1) ∅ (by omega)
    rw [hlocks] at hselected
    generalize hnodes : ord.iterate g.getNodeSet = nodes at hselected
    cases hselected with
    | none hall =>
      rw [← hnodes] at hall
      exact fun s hs => hall s (ord.mem_iterate.mpr hs)
    | cycle _ hmeeting hnodup => exact absurd ⟨_, isCycle_of_walk hmeeting.walk hnodup⟩ hg
  · intro hnone
    refine correct_of_firstMeetingCloses fun earlier s later hsplit _ v p hmeeting => ?_
    have hs : s ∈ g.getNodeSet := ord.mem_iterate.mp (by simp [hsplit])
    exact absurd hmeeting.meets (hnone s hs _ hmeeting.walk)

end Cycles

/-- Two ways from 1 to 4 and no cycle. -/
def diamond : LockGraph := LockGraph.read "g" [(1, [(2, 1), (3, 1)]), (2, [(4, 1)]), (3, [(4, 1)])]

/-- The parents of 3 lead past 4 to the null parent of 1. -/
theorem diamond_nullNode (n : Nat) :
    selectDeadlock .byAddress diamond (n + 4) ∅ = .error .nullNode := rfl

theorem diamond_not_correct : ¬ ∀ (ord : NodeOrder) (g : LockGraph), Correct ord g := by
  intro hall
  obtain ⟨N, hN⟩ := hall .byAddress diamond
  obtain ⟨locks, hlocks, -⟩ := hN (N + 4) (by omega)
  rw [diamond_nullNode] at hlocks
  cases hlocks

end Lockout.LockTracer.CycleSearch
