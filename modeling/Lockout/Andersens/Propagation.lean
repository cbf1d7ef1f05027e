import Lockout.Andersens.Cycles

/-! # Propagation settles a node

What a node popped from the work list does with its changed members: the constraints it bases
on get their edges, and the members go along its own edges. No node is united meanwhile. -/

namespace Lockout.Andersens.Solver
open Lockout.Andersens.Objects Lockout.Andersens.Slots Lockout.Andersens.Progress
open Lockout.Andersens.Progress.View

section Propagation
variable {W : WorkList} {m : Module} {a : Graph} {s s' s'' : State W} {links : Links}
  {i n node src dest : Nat} {set set' : Finset Nat} {c li : Constraint}

/-- Steps that unite no nodes and reset none. -/
structure Calm (s s' : State W) : Prop where
  proper : s'.view.Proper
  rep : s'.view.rep = s.view.rep
  ext : ∀ links, Extends s.view links s'.view links
  waiting : s.view.waiting ⊆ s'.view.waiting
  nodes : ∀ {n}, s.view.rep n = n → SameNode s.view s'.view n
  stack : s'.sccStack = s.sccStack
  candidates : ∀ x ∈ s'.tarjanWL, x ∈ s.tarjanWL ∨ numberSpecialNodes ≤ x

namespace Calm

theorem of_view (hview : s'.view = s.view) (hstack : s'.sccStack = s.sccStack)
    (hcandidates : ∀ x ∈ s'.tarjanWL, x ∈ s.tarjanWL ∨ numberSpecialNodes ≤ x)
    (hproper : s.view.Proper) : Calm s s' where
  proper := by rwa [hview]
  rep := by rw [hview]
  ext links := by
    rw [hview]
    exact .refl
  waiting := by
    rw [hview]
    exact fun _ hx => hx
  nodes _ := by
    rw [hview]
    exact .refl
  stack := hstack
  candidates := hcandidates

theorem refl (hproper : s.view.Proper) : Calm s s := of_view rfl rfl (fun _ => .inl) hproper

theorem trans (h : Calm s s') (h' : Calm s' s'') : Calm s s'' where
  proper := h'.proper
  rep := h'.rep.trans h.rep
  ext links := (h.ext links).trans (h'.ext links)
  waiting _ hx := h'.waiting (h.waiting hx)
  nodes {n} hn := by
    have hn' : s'.view.rep n = n := by rw [h.rep, hn]
    have hn'' : s''.view.rep n = n := by rw [h'.rep, hn']
    exact (h.nodes hn).trans (h'.nodes hn') hn' (h.ext noLinks)
      (h'.ext noLinks) hn'' h'.waiting
  stack := h'.stack.trans h.stack
  candidates x hx := (h'.candidates x hx).elim (h.candidates x) .inr

theorem step {owed : Nat → Prop} (h : Calm s s') : Step owed links s.view s'.view where
  proper := h.proper
  ext := h.ext links
  waiting := h.waiting
  nodes hn := .inl (h.nodes (by rwa [h.rep] at hn))

/-- A change of one node that is a step. -/
theorem of_improves {node : GraphNode} {queue : Multiset WorkListElement}
    (hview : s'.view = setNode s.view i node queue)
    (himproves : ∀ links, Improves s.view links i node queue)
    (hstack : s'.sccStack = s.sccStack) (hcandidates : s'.tarjanWL = s.tarjanWL)
    (hproper : s.view.Proper) : Calm s s' where
  proper := by
    rw [hview]
    exact (himproves noLinks).proper hproper
  rep := by
    rw [hview]
    rfl
  ext links := by
    rw [hview]
    exact (himproves links).ext
  waiting := by
    rw [hview]
    exact (himproves noLinks).waiting
  nodes _ := by
    rw [hview]
    exact (himproves noLinks).sameNode
  stack := hstack
  candidates x hx := .inl (hcandidates ▸ hx)

end Calm

/-- Steps that leave the lists of constraints alone, too. -/
structure Quiet (s s' : State W) : Prop extends Calm s s' where
  constraints : ∀ n, (s'.graphNodes n).constraints = (s.graphNodes n).constraints

namespace Quiet

theorem refl (hproper : s.view.Proper) : Quiet s s := ⟨.refl hproper, fun _ => rfl⟩

theorem trans (h : Quiet s s') (h' : Quiet s' s'') : Quiet s s'' :=
  ⟨h.toCalm.trans h'.toCalm, fun n => (h'.constraints n).trans (h.constraints n)⟩

theorem findNode (h : s.view.Proper) (i : Nat) : Quiet s (findNode i s).2 :=
  ⟨.of_view view_findNode rfl (fun _ => .inl) h, fun _ => rfl⟩

theorem of_improves {node : GraphNode} {queue : Multiset WorkListElement}
    (hview : s'.view = setNode s.view i node queue)
    (himproves : ∀ links, Improves s.view links i node queue)
    (hconstraints : node.constraints = (s.graphNodes i).constraints)
    (hstack : s'.sccStack = s.sccStack) (hcandidates : s'.tarjanWL = s.tarjanWL)
    (hproper : s.view.Proper) : Quiet s s' where
  toCalm := .of_improves hview himproves hstack hcandidates hproper
  constraints n := by
    have hnodes : s'.graphNodes = Function.update s.graphNodes i node := congrArg View.nodes hview
    rw [hnodes]
    by_cases hn : n = i
    · rw [hn, Function.update_self, hconstraints]
    · rw [Function.update_of_ne hn]

end Quiet

/-! ## More members and edges -/

theorem view_unionPointsTo (h : ¬set ⊆ (s.graphNodes i).pointsTo) :
    (s.unionPointsTo i set).view = setNode s.view i
      { s.graphNodes i with pointsTo := (s.graphNodes i).pointsTo ∪ set }
      (s.element i ::ₘ s.view.waiting) := by
  unfold State.unionPointsTo
  rw [if_neg h]
  simp only [State.view, State.insertNext, State.modify, State.element, setNode, W.elems_push,
    Multiset.add_cons, Function.update_self]

theorem quiet_unionPointsTo (hproper : s.view.Proper) (hi : s.view.rep i = i) :
    Quiet s (s.unionPointsTo i set) := by
  by_cases h : set ⊆ (s.graphNodes i).pointsTo
  · unfold State.unionPointsTo
    rw [if_pos h]
    exact .refl hproper
  · refine .of_improves (view_unionPointsTo h) (fun links => ?_) rfl ?_ ?_ hproper
    · exact
        { rep := hi
          waiting := Multiset.subset_cons _ _
          old := rfl
          timestamp := rfl
          pointsTo := Finset.subset_union_left
          queued := .inr (Multiset.mem_cons_self _ _)
          edges := fun e he => .inr ⟨e, he, rfl⟩
          new_edges := fun e he => ⟨hproper.edges he, .inr (.inl ⟨e, he, rfl⟩)⟩
          constraints := fun c hc => .inl ⟨c, hc, .refl⟩
          new_constraints := fun c hc => ⟨c, hc, .refl⟩ }
    · unfold State.unionPointsTo
      rw [if_neg h]
      rfl
    · unfold State.unionPointsTo
      rw [if_neg h]
      rfl

theorem subset_unionPointsTo : set ⊆ ((s.unionPointsTo i set).graphNodes i).pointsTo := by
  unfold State.unionPointsTo
  split
  · assumption
  · simp [State.insertNext, State.modify]

theorem unionPointsTo_frame : (s.unionPointsTo i set).sccStack = s.sccStack ∧
    (s.unionPointsTo i set).tarjanWL = s.tarjanWL ∧ (s.unionPointsTo i set).reps = s.reps := by
  unfold State.unionPointsTo
  split <;> exact ⟨rfl, rfl, rfl⟩

theorem graphNodes_unionPointsTo (h : n ≠ i) :
    (s.unionPointsTo i set).graphNodes n = s.graphNodes n := by
  unfold State.unionPointsTo
  split
  · rfl
  · exact Function.update_of_ne h ..

/-- The members may as well be added before the edge. -/
theorem view_addEdge (hdest : ¬dest < numberSpecialNodes)
    (hnew : dest ∉ (s.graphNodes src).edges) : (s.addEdge src dest).view =
      setNode (s.unionPointsTo dest (s.graphNodes src).pointsTo).view src
        { (s.unionPointsTo dest (s.graphNodes src).pointsTo).graphNodes src with
          edges := insert dest
            ((s.unionPointsTo dest (s.graphNodes src).pointsTo).graphNodes src).edges }
        (s.unionPointsTo dest (s.graphNodes src).pointsTo).view.waiting := by
  unfold State.addEdge
  rw [if_neg hdest, if_neg hnew]
  have hpointsTo : ((s.modify src fun node => { node with edges := insert dest node.edges })
      |>.graphNodes dest).pointsTo = (s.graphNodes dest).pointsTo := by
    by_cases h : dest = src
    · simp [State.modify, h]
    · simp [State.modify, h]
  by_cases hsub : (s.graphNodes src).pointsTo ⊆ (s.graphNodes dest).pointsTo
  · simp only [State.unionPointsTo, hpointsTo, if_pos hsub]
    rfl
  · have hne : dest ≠ src := by
      rintro rfl
      exact hsub (Finset.Subset.refl _)
    rw [view_unionPointsTo (by rwa [hpointsTo]), view_unionPointsTo hsub]
    rw [graphNodes_unionPointsTo hne.symm]
    simp only [setNode, State.view, State.modify, State.element, Function.update_of_ne hne]
    congr 1
    exact Function.update_comm hne.symm ..

theorem addEdge_spec (hproper : s.view.Proper) (hsrc : s.view.rep src = src)
    (hdest : s.view.rep dest = dest) : Quiet s (s.addEdge src dest) ∧
      (numberSpecialNodes ≤ dest → (s.addEdge src dest).view.Connected src dest) := by
  by_cases hspecial : dest < numberSpecialNodes
  · unfold State.addEdge
    rw [if_pos hspecial]
    exact ⟨.refl hproper, fun h => absurd hspecial (Nat.not_lt.mpr h)⟩
  · by_cases hnew : dest ∈ (s.graphNodes src).edges
    · unfold State.addEdge
      rw [if_neg hspecial, if_pos hnew]
      exact ⟨.refl hproper, fun _ => .inr ⟨dest, hsrc.symm ▸ hnew, rfl⟩⟩
    · have hunion := @quiet_unionPointsTo _ _ _ (s.graphNodes src).pointsTo hproper hdest
      have hsub : ((s.unionPointsTo dest (s.graphNodes src).pointsTo).graphNodes src).pointsTo ⊆
          (s.unionPointsTo dest (s.graphNodes src).pointsTo).view.pointsTo dest := by
        rw [View.pointsTo, hunion.rep, hdest]
        by_cases hne : src = dest
        · rw [hne]
          exact Finset.Subset.refl _
        · rw [graphNodes_unionPointsTo hne]
          exact subset_unionPointsTo
      have hframe : (s.addEdge src dest).sccStack = s.sccStack ∧
          (s.addEdge src dest).tarjanWL = s.tarjanWL := by
        unfold State.addEdge
        rw [if_neg hspecial, if_neg hnew]
        exact ⟨unionPointsTo_frame.1, unionPointsTo_frame.2.1⟩
      have hview := view_addEdge hspecial hnew
      refine ⟨hunion.trans (.of_improves hview (fun links => ?_) rfl ?_ ?_
        hunion.proper), fun _ => ?_⟩
      · refine improves_edges (by rw [hunion.rep, hsrc])
          (fun e he => .inr ⟨e, Finset.mem_insert_of_mem he, rfl⟩) fun e he => ?_
        obtain rfl | he := Finset.mem_insert.mp he
        · rw [hunion.rep, hdest]
          exact ⟨.inl (Nat.le_of_not_lt hspecial), .inr (.inr hsub)⟩
        · exact ⟨hunion.proper.edges he, .inr (.inl ⟨e, he, rfl⟩)⟩
      · exact hframe.1.trans unionPointsTo_frame.1.symm
      · exact hframe.2.trans unionPointsTo_frame.2.1.symm
      · refine .inr ⟨dest, ?_, rfl⟩
        rw [hview]
        change dest ∈ ((setNode _ src _ _).nodes
          ((s.unionPointsTo dest (s.graphNodes src).pointsTo).view.rep src)).edges
        rw [hunion.rep, hsrc, setNode_self]
        exact Finset.mem_insert_self _ _

/-! ## The constraints of a node -/

/-- A load or store constraint between representatives. -/
structure Oriented (v : View) (li : Constraint) : Prop where
  type : li.type = .load ∨ li.type = .store
  src : v.rep li.src = li.src
  dest : v.rep li.dest = li.dest
  load : li.type = .load → numberSpecialNodes ≤ li.dest

/-- The edge that `li` demands for `node` is there. -/
def Demanded (v : View) (li : Constraint) (node : Nat) : Prop :=
  (li.type = .load → v.Connected node li.dest) ∧
    (li.type = .store → v.rep node < numberSpecialNodes ∨ v.Connected li.src node)

theorem Oriented.calm (h : Oriented s.view li) (hs : Calm s s') : Oriented s'.view li where
  type := h.type
  src := by rw [hs.rep, h.src]
  dest := by rw [hs.rep, h.dest]
  load := h.load

theorem Demanded.calm (h : Demanded s.view li node) (hs : Calm s s') :
    Demanded s'.view li node :=
  ⟨fun ht => (hs.ext noLinks).connected (h.1 ht),
    fun ht => (h.2 ht).imp (hs.ext noLinks).lt (hs.ext noLinks).connected⟩

/-- What holds of one representative of a class. -/
theorem Demanded.congr {v : View} (h : Demanded v li i) (heq : v.rep i = v.rep n) :
    Demanded v li n := by
  refine ⟨fun ht => (h.1 ht).congr_left heq, fun ht => (h.2 ht).imp (fun hlt => ?_) ?_⟩
  · rwa [← heq]
  · exact fun hconnected => hconnected.congr_right heq

theorem applyMember_spec (hproper : s.view.Proper) (hli : Oriented s.view li)
    (hnode : s.view.rep node = node) :
    Quiet s (applyMember li s node) ∧ Demanded (applyMember li s node).view li node := by
  unfold applyMember Demanded
  obtain hload | hstore := hli.type
  · rw [if_pos hload]
    obtain ⟨hquiet, hconnected⟩ := addEdge_spec hproper hnode hli.dest
    exact ⟨hquiet, fun _ => hconnected (hli.load hload),
      fun hstore => absurd (hload.symm.trans hstore) nofun⟩
  · have hload : li.type ≠ .load := by
      rw [hstore]
      nofun
    rw [if_neg hload]
    obtain ⟨hquiet, hconnected⟩ := addEdge_spec hproper hli.src hnode
    refine ⟨hquiet, fun h => absurd h hload, fun _ => ?_⟩
    by_cases hlt : node < numberSpecialNodes
    · left
      rwa [hquiet.rep, hnode]
    · exact .inr (hconnected (Nat.le_of_not_lt hlt))

theorem applyOffset_spec {x : Nat} (hproper : s.view.Proper) (hli : Oriented s.view li) :
    Quiet s (applyOffset m a li s x) ∧
      ∀ y, slot m a li x = some y → Demanded (applyOffset m a li s x).view li y := by
  unfold applyOffset
  cases hslot : slot m a li x with
  | none => exact ⟨.refl hproper, nofun⟩
  | some y =>
    have hfind := Quiet.findNode hproper y
    have hrep : (findNode y s).2.view.rep (findNode y s).1 = (findNode y s).1 := by
      rw [view_findNode, findNode_fst, hproper.rep_rep]
    obtain ⟨hquiet, hdemanded⟩ := applyMember_spec hfind.proper (hli.calm hfind.toCalm) hrep
    refine ⟨hfind.trans hquiet, ?_⟩
    intro y' hy'
    obtain rfl := Option.some.inj hy'
    refine hdemanded.congr ?_
    rw [hquiet.rep, hrep, view_findNode, findNode_fst]

/-- One after the other, for all members. -/
theorem foldl_applyOffset {members : List Nat} (hproper : s.view.Proper)
    (hli : Oriented s.view li) : Quiet s (members.foldl (applyOffset m a li) s) ∧
      ∀ x ∈ members, ∀ y, slot m a li x = some y →
        Demanded (members.foldl (applyOffset m a li) s).view li y := by
  induction members generalizing s with
  | nil => exact ⟨.refl hproper, by simp⟩
  | cons x members ih =>
    obtain ⟨hquiet, hdemanded⟩ := applyOffset_spec (m := m) (a := a) (x := x) hproper hli
    obtain ⟨hrest, hall⟩ := ih hquiet.proper (hli.calm hquiet.toCalm)
    refine ⟨hquiet.trans hrest, fun x' hx' y hy => ?_⟩
    obtain rfl | hx' := List.mem_cons.mp hx'
    · exact (hdemanded y hy).calm hrest.toCalm
    · exact hall x' hx' y hy

theorem foldl_applyMember {nodes : List Nat} (hproper : s.view.Proper)
    (hli : Oriented s.view li) (hnodes : ∀ n ∈ nodes, s.view.rep n = n) :
    Quiet s (nodes.foldl (applyMember li) s) ∧
      ∀ n ∈ nodes, Demanded (nodes.foldl (applyMember li) s).view li n := by
  induction nodes generalizing s with
  | nil => exact ⟨.refl hproper, by simp⟩
  | cons n nodes ih =>
    obtain ⟨hquiet, hdemanded⟩ := applyMember_spec hproper hli (hnodes n List.mem_cons_self)
    obtain ⟨hrest, hall⟩ := ih hquiet.proper (hli.calm hquiet.toCalm) fun n' hn' => by
      rw [hquiet.rep]
      exact hnodes n' (List.mem_cons_of_mem n hn')
    refine ⟨hquiet.trans hrest, fun n' hn' => ?_⟩
    obtain rfl | hn' := List.mem_cons.mp hn'
    · exact hdemanded.calm hrest.toCalm
    · exact hall n' hn'

/-- The nodes that stand for the changed members of `curr`: the special ones, and the one that
all others are united with. -/
structure Gathered (v : View) (curr : Nat) (set : Finset Nat) (nodes : List Nat) : Prop where
  rep : ∀ n ∈ nodes, v.rep n = n
  members : ∀ x ∈ set, ∃ n ∈ nodes, v.rep n = v.rep x
  linked : ∃ t, v.sdt curr = some t ∧ (∃ n ∈ nodes, numberSpecialNodes ≤ n ∧ v.rep n = v.rep t) ∧
    ∀ x ∈ set, v.rep x = v.rep t ∨ v.rep x < numberSpecialNodes

theorem Gathered.calm {curr : Nat} {nodes : List Nat} (h : Gathered s.view curr set nodes)
    (hs : Calm s s') (hcurr : s.view.rep curr = curr) : Gathered s'.view curr set nodes where
  rep := by
    rw [hs.rep]
    exact h.rep
  members := by
    rw [hs.rep]
    exact h.members
  linked := by
    rw [hs.rep, (hs.nodes hcurr).sdt]
    exact h.linked

/-- Constraint `c` has all its edges for the members in `set`, and is among `kept` unless all its
edges lead to the linked node. -/
structure Finished (m : Module) (a : Graph) (v : View) (curr : Nat) (set : Finset Nat)
    (kept : List Constraint) (c : Constraint) : Prop where
  kept : (∃ c' ∈ kept, v.SameConstraint c c') ∨
    c.type = .store ∧ c.offset = 0 ∧ ∃ t, v.sdt curr = some t ∧ v.Connected c.src t
  applied : v.Applied m a set c

theorem Finished.calm {curr : Nat} {kept kept' : List Constraint}
    (h : Finished m a s.view curr set kept c) (hs : Calm s s') (hcurr : s.view.rep curr = curr)
    (hkept : kept ⊆ kept') : Finished m a s'.view curr set kept' c where
  kept := by
    obtain ⟨c', hc', hsame⟩ | ⟨htype, hoffset, t, ht, hconnected⟩ := h.kept
    · exact .inl ⟨c', hkept hc', (hs.ext noLinks).same hsame⟩
    · exact .inr ⟨htype, hoffset, t, (hs.nodes hcurr).sdt.trans ht,
        (hs.ext noLinks).connected hconnected⟩
  applied := (hs.ext noLinks).applied h.applied

theorem Finished.congr {v : View} {curr : Nat} {kept : List Constraint} {c' : Constraint}
    (h : Finished m a v curr set kept c') (hc : v.SameConstraint c c') :
    Finished m a v curr set kept c where
  kept := by
    obtain ⟨d, hd, htype, hoffset, hsrc, hdest⟩ | ⟨htype, hoffset, t, ht, hconnected⟩ := h.kept
    · exact .inl ⟨d, hd, htype.trans hc.type, hoffset.trans hc.offset, hsrc.trans hc.src,
        hdest.trans hc.dest⟩
    · exact .inr ⟨hc.type ▸ htype, hc.offset ▸ hoffset, t, ht, hconnected.congr_left hc.src⟩
  applied := h.applied.congr ⟨hc.type.symm, hc.offset.symm, hc.src.symm, hc.dest.symm⟩

/-- Between two constraints of the list: those in `done` have been processed. -/
structure Scanning (m : Module) (a : Graph) (s : State W) (curr : Nat) (set : Finset Nat)
    (done : List Constraint) (c : Scan W) : Prop where
  quiet : Quiet s c.state
  seen : ∀ d ∈ c.seen, Finished m a c.state.view curr set c.kept d
  kept : ∀ d ∈ c.kept, d ∈ c.seen ∧
    ∃ c₀ ∈ (s.graphNodes curr).constraints, c.state.view.SameConstraint c₀ d
  done : ∀ c₀ ∈ done, ∃ d ∈ c.seen, c.state.view.SameConstraint c₀ d

section Scanning
variable {curr : Nat} {done kept : List Constraint} {x : Scan W} {t : State W}

theorem Scanning.calm (h : Scanning m a s curr set done x) (ht : Quiet x.state t)
    (hcurr : s.view.rep curr = curr) : Scanning m a s curr set done { x with state := t } where
  quiet := h.quiet.trans ht
  seen d hd := (h.seen d hd).calm ht.toCalm (by rw [h.quiet.rep, hcurr]) (List.Subset.refl _)
  kept d hd := by
    obtain ⟨hseen, c₀, hc₀, hsame⟩ := h.kept d hd
    exact ⟨hseen, c₀, hc₀, (ht.ext noLinks).same hsame⟩
  done c₀ hc₀ := by
    obtain ⟨d, hd, hsame⟩ := h.done c₀ hc₀
    exact ⟨d, hd, (ht.ext noLinks).same hsame⟩

/-- A constraint that was not seen before. -/
theorem Scanning.add (h : Scanning m a s curr set done x) (ht : Quiet x.state t)
    (hcurr : s.view.rep curr = curr) {li' : Constraint}
    (hli : li ∈ (s.graphNodes curr).constraints) (hsame : x.state.view.SameConstraint li li')
    (hfinished : Finished m a t.view curr set kept li')
    (hkept : kept = x.kept ∨ kept = x.kept ++ [li']) :
    Scanning m a s curr set (li :: done) { state := t, seen := li' :: x.seen, kept } := by
  have hcalm := h.calm ht hcurr
  have hsame := (ht.ext noLinks).same hsame
  have hsub : x.kept ⊆ kept := by
    obtain rfl | rfl := hkept
    · exact List.Subset.refl _
    · exact List.subset_append_left _ _
  refine ⟨hcalm.quiet, fun d hd => ?_, fun d hd => ?_, fun c₀ hc₀ => ?_⟩
  · obtain rfl | hd := List.mem_cons.mp hd
    · exact hfinished
    · exact (hcalm.seen d hd).calm (.refl ht.proper) (by rw [ht.rep, h.quiet.rep, hcurr]) hsub
  · have hd' : d ∈ x.kept ∨ d = li' := by
      obtain rfl | rfl := hkept
      · exact .inl hd
      · simpa using hd
    obtain hd | rfl := hd'
    · obtain ⟨hseen, hrest⟩ := hcalm.kept d hd
      exact ⟨List.mem_cons_of_mem li' hseen, hrest⟩
    · exact ⟨List.mem_cons_self, li, hli, hsame⟩
  · obtain rfl | hc₀ := List.mem_cons.mp hc₀
    · exact ⟨li', List.mem_cons_self, hsame⟩
    · obtain ⟨d, hd, hsame⟩ := hcalm.done c₀ hc₀
      exact ⟨d, List.mem_cons_of_mem li' hd, hsame⟩

/-- The edges for all members, under the offset. -/
theorem finished_offset (hproper : s.view.Proper) (hli : Oriented s.view li) :
    Quiet s (set.sort.foldl (applyOffset m a li) s) ∧
      Finished m a (set.sort.foldl (applyOffset m a li) s).view curr set (kept ++ [li]) li := by
  obtain ⟨hquiet, hall⟩ := @foldl_applyOffset _ m a _ _ set.sort hproper hli
  refine ⟨hquiet, .inl ⟨li, by simp, .refl⟩, fun x hx y hy => ?_⟩
  exact hall x ((Finset.mem_sort _).mpr hx) y hy

/-- The edges for the nodes that stand for the members. -/
theorem finished_gathered {nodes : List Nat} (hproper : s.view.Proper)
    (hli : Oriented s.view li) (hoffset : li.offset = 0)
    (hnodes : Gathered s.view curr set nodes) (hcurr : s.view.rep curr = curr) :
    Quiet s (nodes.foldl (applyMember li) s) ∧
      Finished m a (nodes.foldl (applyMember li) s).view curr set
        (if li.type = .load then kept ++ [li] else kept) li := by
  obtain ⟨hquiet, hall⟩ := foldl_applyMember hproper hli hnodes.rep
  have hgathered := hnodes.calm hquiet.toCalm hcurr
  refine ⟨hquiet, ?_, fun x hx y hy => ?_⟩
  · obtain hload | hstore := hli.type
    · rw [if_pos hload]
      exact .inl ⟨li, by simp, .refl⟩
    · obtain ⟨t, ht, ⟨n, hn, hspecial, heq⟩, -⟩ := hgathered.linked
      obtain hlt | hconnected := (hall n hn).2 hstore
      · rw [hgathered.rep n hn] at hlt
        exact absurd hlt (Nat.not_lt.mpr hspecial)
      · exact .inr ⟨hstore, hoffset, t, ht, hconnected.congr_right heq⟩
  · obtain rfl : x = y := Option.some.inj ((slot_zero hoffset x).symm.trans hy)
    obtain ⟨n, hn, heq⟩ := hgathered.members x hx
    exact (hall n hn).congr heq

theorem scanRewritten_spec {rsv : Option (List Nat)} {li' : Constraint}
    (h : Scanning m a s curr set done x) (hcurr : s.view.rep curr = curr)
    (hli : li ∈ (s.graphNodes curr).constraints) (hsame : x.state.view.SameConstraint li li')
    (horiented : li'.type = .load ∨ li'.type = .store → Oriented x.state.view li')
    (hrsv : ∀ nodes ∈ rsv, Gathered s.view curr set nodes) :
    Scanning m a s curr set (li :: done) (scanRewritten m a set rsv x li') := by
  have hproper := h.quiet.proper
  unfold scanRewritten
  split
  · rename_i hseen
    refine ⟨h.quiet, h.seen, h.kept, fun c₀ hc₀ => ?_⟩
    obtain rfl | hc₀ := List.mem_cons.mp hc₀
    · exact ⟨li', hseen, hsame⟩
    · exact h.done c₀ hc₀
  · dsimp only
    split
    · rename_i htype
      obtain ⟨hquiet, hfinished⟩ := @finished_offset _ m a _ set _ curr x.kept hproper
        (horiented htype)
      have hadd := h.add hquiet hcurr hli hsame hfinished (.inr rfl)
      split
      · rename_i nodes
        split
        · rename_i hoffset
          have hgathered := (hrsv nodes rfl).calm h.quiet.toCalm hcurr
          obtain ⟨hquiet, hfinished⟩ := @finished_gathered _ m a _ _ _ _ x.kept _ hproper
            (horiented htype) hoffset hgathered (by rw [h.quiet.rep, hcurr])
          refine h.add hquiet hcurr hli hsame hfinished ?_
          split
          · exact .inr rfl
          · exact .inl rfl
        · exact hadd
      · exact hadd
    · rename_i htype
      refine h.add (.refl hproper) hcurr hli hsame ⟨.inl ⟨li', by simp, .refl⟩, ?_⟩ (.inr rfl)
      exact fun x hx y hy => ⟨fun hload => absurd (.inl hload) htype,
        fun hstore => absurd (.inr hstore) htype⟩

theorem scanConstraint_spec {rsv : Option (List Nat)} (h : Scanning m a s curr set done x)
    (hproper : s.view.Proper) (hcurr : s.view.rep curr = curr)
    (hli : li ∈ (s.graphNodes curr).constraints)
    (hrsv : ∀ nodes ∈ rsv, Gathered s.view curr set nodes) :
    Scanning m a s curr set (li :: done) (scanConstraint m a set rsv x li) := by
  have hfind : Quiet x.state (findNode li.dest (findNode li.src x.state).2).2 :=
    (Quiet.findNode h.quiet.proper _).trans
      (.findNode (Quiet.findNode h.quiet.proper _).proper _)
  have hsrc : (findNode li.src x.state).1 = s.view.rep li.src := by
    rw [findNode_fst, h.quiet.rep]
  have hdest : (findNode li.dest (findNode li.src x.state).2).1 = s.view.rep li.dest := by
    rw [findNode_fst, view_findNode, h.quiet.rep]
  have hscan : scanConstraint m a set rsv x li = scanRewritten m a set rsv
      { x with state := (findNode li.dest (findNode li.src x.state).2).2 }
      { li with src := s.view.rep li.src, dest := s.view.rep li.dest } := by
    rw [← hsrc, ← hdest]
    rfl
  rw [hscan]
  generalize (findNode li.dest (findNode li.src x.state).2).2 = t at hfind
  have hrep : t.view.rep = s.view.rep := hfind.rep.trans h.quiet.rep
  have hself : ∀ i, t.view.rep (s.view.rep i) = s.view.rep i := by
    rw [hrep]
    exact hproper.rep_rep
  refine scanRewritten_spec (h.calm hfind hcurr) hcurr hli ⟨rfl, rfl, ?_, ?_⟩
    (fun htype => ⟨htype, hself _, hself _, fun hload => ?_⟩) hrsv
  · exact (hself _).trans (by rw [hrep])
  · exact (hself _).trans (by rw [hrep])
  · exact hproper.loads hli hload

theorem foldl_scanConstraint {rsv : Option (List Nat)} {list : List Constraint}
    (h : Scanning m a s curr set done x) (hproper : s.view.Proper)
    (hcurr : s.view.rep curr = curr) (hlist : list ⊆ (s.graphNodes curr).constraints)
    (hrsv : ∀ nodes ∈ rsv, Gathered s.view curr set nodes) :
    Scanning m a s curr set (list.reverse ++ done)
      (list.foldl (scanConstraint m a set rsv) x) := by
  induction list generalizing done x with
  | nil => exact h
  | cons li list ih =>
    obtain ⟨hli, hlist⟩ := List.cons_subset.mp hlist
    rw [List.foldl_cons, List.reverse_cons, List.append_assoc, List.singleton_append]
    exact ih (scanConstraint_spec h hproper hcurr hli hrsv) hlist

/-- All constraints of the list have their edges, and the list is shorter perhaps. -/
theorem scan_spec {rsv : Option (List Nat)} (hproper : s.view.Proper)
    (hcurr : s.view.rep curr = curr) (hrsv : ∀ nodes ∈ rsv, Gathered s.view curr set nodes)
    (hx : (s.graphNodes curr).constraints.foldl (scanConstraint m a set rsv) { state := s } = x) :
    Calm s (x.state.modify curr fun node => { node with constraints := x.kept }) ∧
      ∀ d ∈ x.kept, (x.state.modify curr fun node =>
        { node with constraints := x.kept }).view.Applied m a set d := by
  have hscan : Scanning m a s curr set (s.graphNodes curr).constraints.reverse x := by
    have hloop := @foldl_scanConstraint _ m a _ set _ [] { state := s } rsv _
      ⟨.refl hproper, by simp, by simp, by simp⟩ hproper hcurr (List.Subset.refl _) hrsv
    rwa [hx, List.append_nil] at hloop
  have hcurr' : x.state.view.rep curr = curr := by rw [hscan.quiet.rep, hcurr]
  have hlist : (x.state.view.nodes curr).constraints = (s.graphNodes curr).constraints :=
    hscan.quiet.constraints curr
  have himproves : ∀ links, Improves x.state.view links curr
      { x.state.graphNodes curr with constraints := x.kept } x.state.view.waiting := fun links =>
    { rep := hcurr'
      waiting := fun _ hx => hx
      old := rfl
      timestamp := rfl
      pointsTo := Finset.Subset.refl _
      queued := .inl rfl
      edges := fun e he => .inr ⟨e, he, rfl⟩
      new_edges := fun e he => ⟨hscan.quiet.proper.edges he, .inr (.inl ⟨e, he, rfl⟩)⟩
      constraints := fun c hc => by
        rw [hlist] at hc
        obtain ⟨d, hd, hsame⟩ := hscan.done c (List.mem_reverse.mpr hc)
        obtain hkept | ⟨htype, hoffset, t, ht, hconnected⟩ := ((hscan.seen d hd).congr hsame).kept
        · exact .inl hkept
        · exact .inr ⟨htype, hoffset, t, .inl ⟨t, by rw [hcurr']; exact ht, rfl⟩, hconnected⟩
      new_constraints := fun d hd => by
        rw [hlist]
        exact (hscan.kept d hd).2 }
  exact ⟨hscan.quiet.toCalm.trans (.of_improves rfl himproves rfl rfl hscan.quiet.proper),
    fun d hd => (himproves noLinks).ext.applied (hscan.seen d (hscan.kept d hd).1).applied⟩

end Scanning

/-! ## The edges of a node -/

section Spreading
variable {curr dest : Nat} {done : List Nat} {p : Spread W} {t : State W}

/-- Between two edges: those in `done` have been followed. -/
structure Spreading (s : State W) (curr : Nat) (set : Finset Nat) (done : List Nat)
    (p : Spread W) : Prop where
  quiet : Quiet s p.state
  edges : (p.state.graphNodes curr).edges = (s.graphNodes curr).edges
  toErase : ∀ d ∈ p.toErase, s.view.rep d = curr ∨ ∃ e ∈ p.newEdges, s.view.rep e = s.view.rep d
  newEdges : ∀ e ∈ p.newEdges, (∃ d ∈ (s.graphNodes curr).edges, s.view.rep d = s.view.rep e) ∧
    numberSpecialNodes ≤ s.view.rep e ∧ set ⊆ p.state.view.pointsTo e
  done : ∀ d ∈ done, d ∈ p.toErase ∨ s.view.rep d = curr ∨ set ⊆ p.state.view.pointsTo d

theorem edges_unionPointsTo : ((s.unionPointsTo i set).graphNodes n).edges =
    (s.graphNodes n).edges := by
  unfold State.unionPointsTo
  split
  · rfl
  · by_cases hn : n = i
    · simp [State.insertNext, State.modify, hn]
    · simp [State.insertNext, State.modify, hn]

theorem Spreading.quiet_state (h : Spreading s curr set done p) (ht : Quiet p.state t)
    (hedges : (t.graphNodes curr).edges = (p.state.graphNodes curr).edges) :
    Spreading s curr set done { p with state := t } where
  quiet := h.quiet.trans ht
  edges := hedges.trans h.edges
  toErase := h.toErase
  newEdges e he := by
    obtain ⟨hold, hspecial, hsub⟩ := h.newEdges e he
    exact ⟨hold, hspecial, hsub.trans ((ht.ext noLinks).pointsTo e)⟩
  done d hd := (h.done d hd).imp_right
    (Or.imp_right fun hsub => hsub.trans ((ht.ext noLinks).pointsTo d))

theorem spreadTo_spec {rep : Nat} (hproper : s.view.Proper) (hrep : s.view.rep rep = rep)
    (hspecial : numberSpecialNodes ≤ rep) : Quiet s (spreadTo curr set rep s) ∧
      ((spreadTo curr set rep s).graphNodes curr).edges = (s.graphNodes curr).edges ∧
      set ⊆ (spreadTo curr set rep s).view.pointsTo rep := by
  have hcandidate : Quiet s (candidate curr rep s) ∧
      (candidate curr rep s).graphNodes = s.graphNodes := by
    unfold candidate
    split
    · refine ⟨⟨.of_view rfl rfl (fun x hx => ?_) hproper, fun _ => rfl⟩, rfl⟩
      obtain hx | hx := List.mem_append.mp hx
      · exact .inl hx
      · exact .inr (List.mem_singleton.mp hx ▸ hspecial)
    · exact ⟨.refl hproper, rfl⟩
  obtain ⟨hquiet, hnodes⟩ := hcandidate
  have hrep' : (candidate curr rep s).view.rep rep = rep := by rw [hquiet.rep, hrep]
  have hunion := @quiet_unionPointsTo _ _ _ set hquiet.proper hrep'
  unfold spreadTo
  dsimp only
  rw [if_pos hspecial]
  refine ⟨hquiet.trans hunion, by rw [edges_unionPointsTo, hnodes], ?_⟩
  rw [View.pointsTo, hunion.rep, hrep']
  exact subset_unionPointsTo

theorem spreadEdge_spec (h : Spreading s curr set done p) (hproper : s.view.Proper)
    (hdest : dest ∈ (s.graphNodes curr).edges) :
    Spreading s curr set (dest :: done) (spreadEdge curr set p dest) := by
  have hspread := h.quiet_state (Quiet.findNode h.quiet.proper dest) rfl
  have hedge : spreadEdge curr set p dest =
      if s.view.rep dest = curr ∨ s.view.rep dest ≠ dest ∧ s.view.rep dest ∈ p.newEdges then
        { p with state := (findNode dest p.state).2, toErase := insert dest p.toErase }
      else if s.view.rep dest ≠ dest then
        { state := spreadTo curr set (s.view.rep dest) (findNode dest p.state).2
          toErase := insert dest p.toErase
          newEdges := insert (s.view.rep dest) p.newEdges }
      else { p with state := spreadTo curr set (s.view.rep dest) (findNode dest p.state).2 } := by
    have hrep : s.view.rep dest = (findNode dest p.state).1 := by
      rw [findNode_fst, h.quiet.rep]
    rw [hrep]
    rfl
  rw [hedge]
  generalize (findNode dest p.state).2 = t at hspread
  have hself : t.view.rep (s.view.rep dest) = s.view.rep dest := by
    have hrep : t.view.rep = s.view.rep := hspread.quiet.rep
    rw [hrep, hproper.rep_rep]
  split
  · rename_i hskip
    have herase : s.view.rep dest = curr ∨
        ∃ e ∈ p.newEdges, s.view.rep e = s.view.rep dest :=
      hskip.imp_right fun ⟨_, hmem⟩ => ⟨_, hmem, hproper.rep_rep dest⟩
    refine ⟨hspread.quiet, hspread.edges, fun d hd => ?_, hspread.newEdges, fun d hd => ?_⟩
    · obtain rfl | hd := Finset.mem_insert.mp hd
      · exact herase
      · exact hspread.toErase d hd
    · obtain rfl | hd := List.mem_cons.mp hd
      · exact .inl (Finset.mem_insert_self _ _)
      · exact (hspread.done d hd).imp_left (Finset.mem_insert_of_mem ·)
  · rename_i hskip
    have hspecial : numberSpecialNodes ≤ s.view.rep dest :=
      (hproper.edges hdest).resolve_right fun heq => hskip (.inl heq)
    obtain ⟨hquiet, hedges, hsub⟩ :=
      @spreadTo_spec _ _ set curr _ hspread.quiet.proper hself hspecial
    have hnext := hspread.quiet_state hquiet hedges
    have hmembers : set ⊆ (spreadTo curr set (s.view.rep dest) t).view.pointsTo dest := by
      have hrep : (spreadTo curr set (s.view.rep dest) t).view.rep = s.view.rep :=
        hnext.quiet.rep
      rw [View.pointsTo, hrep, hproper.rep_rep] at hsub
      rwa [View.pointsTo, hrep]
    split
    · refine ⟨hnext.quiet, hnext.edges, fun d hd => ?_, fun e he => ?_, fun d hd => ?_⟩
      · obtain rfl | hd := Finset.mem_insert.mp hd
        · exact .inr ⟨_, Finset.mem_insert_self _ _, hproper.rep_rep d⟩
        · obtain hself | ⟨e, he, heq⟩ := hnext.toErase d hd
          · exact .inl hself
          · exact .inr ⟨e, Finset.mem_insert_of_mem he, heq⟩
      · obtain rfl | he := Finset.mem_insert.mp he
        · refine ⟨⟨dest, hdest, (hproper.rep_rep dest).symm⟩, ?_, hsub⟩
          rwa [hproper.rep_rep]
        · exact hnext.newEdges e he
      · obtain rfl | hd := List.mem_cons.mp hd
        · exact .inl (Finset.mem_insert_self _ _)
        · exact (hnext.done d hd).imp_left (Finset.mem_insert_of_mem ·)
    · refine ⟨hnext.quiet, hnext.edges, hnext.toErase, hnext.newEdges, fun d hd => ?_⟩
      obtain rfl | hd := List.mem_cons.mp hd
      · exact .inr (.inr hmembers)
      · exact hnext.done d hd

theorem foldl_spreadEdge {edges : List Nat} (h : Spreading s curr set done p)
    (hproper : s.view.Proper) (hedges : ∀ e ∈ edges, e ∈ (s.graphNodes curr).edges) :
    Spreading s curr set (edges.reverse ++ done) (edges.foldl (spreadEdge curr set) p) := by
  induction edges generalizing done p with
  | nil => exact h
  | cons e edges ih =>
    rw [List.foldl_cons, List.reverse_cons, List.append_assoc, List.singleton_append]
    exact ih (spreadEdge_spec h hproper (hedges e List.mem_cons_self))
      fun e' he' => hedges e' (List.mem_cons_of_mem e he')

/-- All edges have been followed, and lead to representatives perhaps. -/
theorem spread_spec (hproper : s.view.Proper) (hcurr : s.view.rep curr = curr)
    (hp : (s.graphNodes curr).edges.sort.foldl (spreadEdge curr set) { state := s } = p) :
    Calm s (p.state.modify curr fun node =>
        { node with edges := node.edges \ p.toErase ∪ p.newEdges }) ∧
      (∀ e ∈ (p.state.graphNodes curr).edges \ p.toErase ∪ p.newEdges,
        s.view.rep e = curr ∨ set ⊆ p.state.view.pointsTo e) ∧
      (p.state.graphNodes curr).constraints = (s.graphNodes curr).constraints := by
  have hspread : Spreading s curr set (s.graphNodes curr).edges.sort.reverse p := by
    have hloop := @foldl_spreadEdge _ _ set _ [] { state := s } (s.graphNodes curr).edges.sort
      ⟨.refl hproper, rfl, by simp, by simp, by simp⟩ hproper fun e he =>
      (Finset.mem_sort _).mp he
    rwa [hp, List.append_nil] at hloop
  have hcurr' : p.state.view.rep curr = curr := by rw [hspread.quiet.rep, hcurr]
  have hedges : (p.state.view.nodes curr).edges = (s.graphNodes curr).edges := hspread.edges
  refine ⟨hspread.quiet.toCalm.trans (@Calm.of_improves _ _ _ curr
    { p.state.graphNodes curr with
      edges := (p.state.graphNodes curr).edges \ p.toErase ∪ p.newEdges }
    p.state.view.waiting rfl (fun links => ?_) rfl rfl hspread.quiet.proper),
    fun e he => ?_, hspread.quiet.constraints curr⟩
  · refine improves_edges hcurr' (fun e he => ?_) fun e he => ?_
    · by_cases hd : e ∈ p.toErase
      · obtain hself | ⟨e', he', heq⟩ := hspread.toErase e hd
        · exact .inl (by rw [hspread.quiet.rep, hself])
        · exact .inr ⟨e', Finset.mem_union_right _ he', by rw [hspread.quiet.rep, heq]⟩
      · exact .inr ⟨e, Finset.mem_union_left _ (Finset.mem_sdiff.mpr ⟨he, hd⟩), rfl⟩
    · obtain he | he := Finset.mem_union.mp he
      · have he := (Finset.mem_sdiff.mp he).1
        exact ⟨hspread.quiet.proper.edges he, .inr (.inl ⟨e, he, rfl⟩)⟩
      · obtain ⟨⟨d, hd, heq⟩, hspecial, -⟩ := hspread.newEdges e he
        refine ⟨.inl ?_, .inr (.inl ⟨d, hedges ▸ hd, by rw [hspread.quiet.rep, heq]⟩)⟩
        rwa [hspread.quiet.rep]
  · obtain he | he := Finset.mem_union.mp he
    · obtain ⟨he, hkeep⟩ := Finset.mem_sdiff.mp he
      have hdone : e ∈ (s.graphNodes curr).edges.sort.reverse :=
        List.mem_reverse.mpr ((Finset.mem_sort _).mpr (hspread.edges ▸ he))
      exact (hspread.done e hdone).resolve_left hkeep
    · exact .inr (hspread.newEdges e he).2.2

end Spreading

/-- After its constraints and its edges, a node is settled for the changed members. -/
theorem propagate_spec {curr : Nat} {rsv : Option (List Nat)} (hproper : s.view.Proper)
    (hcurr : s.view.rep curr = curr) (hrsv : ∀ nodes ∈ rsv, Gathered s.view curr set nodes)
    (hcollapsed : ∀ {t}, s.sdt curr = some t →
      ∀ x ∈ set, s.view.rep x = s.view.rep t ∨ s.view.rep x < numberSpecialNodes) :
    Calm s (propagate m a curr set rsv s) ∧
      (propagate m a curr set rsv s).view.Settled m a noLinks set curr := by
  unfold propagate
  dsimp only
  generalize hx : (s.graphNodes curr).constraints.foldl (scanConstraint m a set rsv)
    { state := s } = x
  obtain ⟨hscan, happlied⟩ := scan_spec hproper hcurr hrsv hx
  have hkept : ((x.state.modify curr fun node =>
      { node with constraints := x.kept }).graphNodes curr).constraints = x.kept := by
    simp [State.modify]
  generalize (x.state.modify curr fun node => { node with constraints := x.kept }) = t
    at hscan happlied hkept ⊢
  generalize hp : (t.graphNodes curr).edges.sort.foldl (spreadEdge curr set) { state := t } = p
  have hcurr' : t.view.rep curr = curr := by rw [hscan.rep, hcurr]
  obtain ⟨hspread, hedges, hlist⟩ := spread_spec hscan.proper hcurr' hp
  have hnode : (p.state.modify curr fun node =>
      { node with edges := node.edges \ p.toErase ∪ p.newEdges }).view.nodes curr =
      { p.state.graphNodes curr with
        edges := (p.state.graphNodes curr).edges \ p.toErase ∪ p.newEdges } :=
    Function.update_self ..
  have hpointsTo : ∀ e, (p.state.modify curr fun node =>
      { node with edges := node.edges \ p.toErase ∪ p.newEdges }).view.pointsTo e =
      p.state.view.pointsTo e := by
    intro e
    change (Function.update p.state.graphNodes curr _ (p.state.view.rep e)).pointsTo = _
    by_cases he : p.state.view.rep e = curr
    · rw [he, Function.update_self, View.pointsTo, he]
      rfl
    · rw [Function.update_of_ne he]
      rfl
  have hall := hscan.trans hspread
  refine ⟨hall, fun e he => ?_, fun c hc => ?_, fun {t'} ht' x hx => ?_⟩
  · rw [hnode] at he
    rw [hspread.rep, hpointsTo]
    exact hedges e he
  · rw [hnode] at hc
    refine (hspread.ext noLinks).applied (happlied c ?_)
    rw [← hkept, ← hlist]
    exact hc
  · obtain ⟨t₀, ht₀, heq⟩ | ⟨_, _, hfalse, -⟩ := ht'
    · rw [hall.rep, hcurr, (hall.nodes hcurr).sdt] at ht₀
      rw [hall.rep] at heq ⊢
      rw [← heq]
      exact hcollapsed ht₀ x hx
    · exact hfalse.elim

end Propagation

end Lockout.Andersens.Solver
