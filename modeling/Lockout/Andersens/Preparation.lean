import Lockout.Andersens.Termination

/-! # The state before the loop

The constraint graph has all constraints, uniting pointer equivalent nodes loses none of them,
and every representative that has something to do is on the work list. -/

namespace Lockout.Andersens.Solver
open Lockout.Andersens.Objects Lockout.Andersens.Slots Lockout.Andersens.Progress
open Lockout.Andersens.Progress.View

/-- The node whose data a constraint is put in. -/
def place (c : Constraint) : Nat :=
  match c.type with
  | .addressOf | .store => c.dest
  | .load | .copy => c.src

/-- What `RewriteConstraints` and `HCD` guarantee: constraints are put in representatives, and
the nodes with an entry in `SDT` are stored through. -/
structure Offline.WellFormed (o : Offline) : Prop where
  placed : ∀ c ∈ o.constraints, o.reps.parent (place c) = place c
  sdt : ∀ {n t}, o.sdt n = some t → t < o.reps.size
  stored : ∀ {n t}, o.reps.parent n = n → o.sdt n = some t →
    ∃ c ∈ o.constraints, c.type = .store ∧ c.dest = n

section Preparation
variable {W : WorkList} {m : Module} {a : Graph} {o : Offline} {cs : List Constraint}
  {s s' : State W} {c : Constraint} {i n : Nat}

/-- Nothing has been solved yet. -/
structure Fresh (o : Offline) (s : State W) : Prop where
  inRange : InRange s
  frame : s.frame = ({ reps := o.reps } : State W).frame
  old : ∀ n, (s.graphNodes n).oldPointsTo = ∅
  outside : ∀ n, s.size ≤ n → s.graphNodes n = {}

/-- The constraints in `cs` are in the graph. -/
structure Built (o : Offline) (cs : List Constraint) (s : State W) : Prop
    extends Fresh o s where
  reps : s.reps = o.reps
  sdt : s.sdt = o.sdt
  represented : ∀ c ∈ cs, s.view.Represented noLinks c
  stored : ∀ c ∈ cs, c.type = .store → (s.graphNodes c.dest).constraints ≠ []

/-- More data for one node. -/
structure Adds (node node' : GraphNode) : Prop where
  edges : node.edges ⊆ node'.edges
  pointsTo : node.pointsTo ⊆ node'.pointsTo
  oldPointsTo : node'.oldPointsTo = node.oldPointsTo
  constraints : node.constraints ⊆ node'.constraints

theorem built_modify {f : GraphNode → GraphNode} (h : Built o cs s) (hi : i < s.size)
    (hf : Adds (s.graphNodes i) (f (s.graphNodes i)))
    (hnode : (f (s.graphNodes i)).InRange s.size) : Built o cs (s.modify i f) := by
  have hself : (s.modify i f).graphNodes i = f (s.graphNodes i) := Function.update_self ..
  have hother : ∀ {k}, k ≠ i → (s.modify i f).graphNodes k = s.graphNodes k :=
    fun hk => Function.update_of_ne hk ..
  have hadds : ∀ k, Adds (s.graphNodes k) ((s.modify i f).graphNodes k) := by
    intro k
    by_cases hk : k = i
    · rw [hk, hself]
      exact hf
    · rw [hother hk]
      exact ⟨Finset.Subset.refl _, Finset.Subset.refl _, rfl, List.Subset.refl _⟩
  have hcontains : Contains s.view noLinks (s.modify i f).view noLinks :=
    .of_subset rfl rfl (fun k => (hadds k).edges) fun k => (hadds k).constraints
  refine
    { inRange := (advances_modify h.inRange hnode ⟨hf.pointsTo, hf.oldPointsTo.symm.subset⟩).inRange
      frame := h.frame
      old := fun k => (hadds k).oldPointsTo.trans (h.old k)
      outside := fun k hk => ?_
      reps := h.reps
      sdt := h.sdt
      represented := fun c hc => hcontains.represented
        (fun k => .inl (hadds (s.view.rep k)).pointsTo) (h.represented c hc)
      stored := fun c hc hstore hnil => h.stored c hc hstore ?_ }
  · have hk : s.size ≤ k := hk
    rw [hother (by omega), h.outside k hk]
  · exact List.eq_nil_of_subset_nil (hnil ▸ (hadds c.dest).constraints)

/-- A constraint is added to those in the graph. -/
theorem Built.cons (h : Built o cs s) (hc : s.view.Represented noLinks c)
    (hstored : c.type = .store → (s.graphNodes c.dest).constraints ≠ []) :
    Built o (c :: cs) s where
  toFresh := h.toFresh
  reps := h.reps
  sdt := h.sdt
  represented c' hc' := by
    obtain rfl | hc' := List.mem_cons.mp hc'
    · exact hc
    · exact h.represented c' hc'
  stored c' hc' := by
    obtain rfl | hc' := List.mem_cons.mp hc'
    · exact hstored
    · exact h.stored c' hc'

/-- The node has constraint `c`. -/
def Holds (c : Constraint) (node : GraphNode) : Prop :=
  match c.type with
  | .addressOf => c.src ∈ node.pointsTo
  | .copy => c.offset ≠ 0 ∨ c.dest ∈ node.edges
  | .load | .store => c ∈ node.constraints

theorem represented_of_holds {v : View} {links : Links} (hrep : v.rep (place c) = place c)
    (h : Holds c (v.nodes (place c))) : v.Represented links c := by
  unfold View.Represented
  unfold Holds place at h
  unfold place at hrep
  cases htype : c.type with
  | addressOf =>
    rw [htype] at h hrep
    left
    rwa [View.pointsTo, hrep]
  | copy =>
    rw [htype] at h hrep
    refine h.imp_right fun he => .inr ⟨c.dest, ?_, rfl⟩
    rwa [hrep]
  | load =>
    rw [htype] at h hrep
    refine .inl ⟨c, ?_, .refl⟩
    rwa [hrep]
  | store =>
    rw [htype] at h hrep
    refine .inl ⟨c, ?_, .refl⟩
    rwa [hrep]

theorem built_put {f : GraphNode → GraphNode} (h : Built o cs s)
    (hplace : o.reps.parent (place c) = place c) (hi : place c < s.size)
    (hf : Adds (s.graphNodes (place c)) (f (s.graphNodes (place c))))
    (hnode : (f (s.graphNodes (place c))).InRange s.size)
    (hholds : Holds c (f (s.graphNodes (place c)))) :
    Built o (c :: cs) (s.modify (place c) f) := by
  have hself : (s.modify (place c) f).graphNodes (place c) = f (s.graphNodes (place c)) :=
    Function.update_self ..
  have hrep : s.view.rep (place c) = place c := by
    have hreps : s.view.rep = o.reps.rootD := congrArg Batteries.UnionFind.rootD h.reps
    rw [hreps]
    exact Batteries.UnionFind.rootD_eq_self.mpr hplace
  refine (built_modify h hi hf hnode).cons (represented_of_holds hrep ?_) fun hstore hnil => ?_
  · exact (congrArg (Holds c) hself).mpr hholds
  · unfold Holds place at hholds
    unfold place at hself hnil
    rw [hstore] at hholds hself hnil
    dsimp only at hself hnil hholds
    rw [hself] at hnil
    rw [hnil] at hholds
    exact absurd hholds List.not_mem_nil

theorem built_addConstraint (h : Built o cs s) (hplace : o.reps.parent (place c) = place c)
    (hrun : addConstraint s c = some s') : Built o (c :: cs) s' := by
  unfold addConstraint at hrun
  split at hrun
  swap
  · simp at hrun
  rename_i hrange
  obtain rfl := Option.some.inj hrun
  have hput := @built_put W o cs s c
  have hin := fun k => h.inRange.nodes k
  have hlisted : ∀ k, ({ s.graphNodes k with
      constraints := (s.graphNodes k).constraints ++ [c] } : GraphNode).InRange s.size := by
    intro k
    refine { hin k with constraints := fun c' hc' => ?_ }
    obtain hc' | hc' := List.mem_append.mp hc'
    · exact (hin k).constraints c' hc'
    · exact List.mem_singleton.mp hc' ▸ hrange
  have hadds : ∀ node : GraphNode, Adds node { node with constraints := node.constraints ++ [c] } :=
    fun node => ⟨Finset.Subset.refl _, Finset.Subset.refl _, rfl, List.subset_append_left _ _⟩
  have hlast : ∀ node : GraphNode, c ∈ node.constraints ++ [c] :=
    fun node => List.mem_append_right _ (List.mem_singleton_self c)
  unfold Holds at hput
  cases htype : c.type with
  | addressOf =>
    have hc : place c = c.dest := by rw [place, htype]
    rw [htype, hc] at hput
    refine hput h (hc ▸ hplace) hrange.2 ⟨Finset.Subset.refl _, Finset.subset_insert _ _, rfl,
      List.Subset.refl _⟩ { hin c.dest with pointsTo := fun x hx => ?_ }
      (Finset.mem_insert_self _ _)
    obtain rfl | hx := Finset.mem_insert.mp hx
    · exact hrange.1
    · exact (hin c.dest).pointsTo x hx
  | copy =>
    have hc : place c = c.src := by rw [place, htype]
    rw [htype, hc] at hput
    dsimp only
    split
    · rename_i hoffset
      exact hput h (hc ▸ hplace) hrange.1 (hadds _) (hlisted _) (.inl hoffset)
    · refine hput h (hc ▸ hplace) hrange.1 ⟨Finset.subset_insert _ _, Finset.Subset.refl _, rfl,
        List.Subset.refl _⟩ { hin c.src with edges := fun e he => ?_ }
        (.inr (Finset.mem_insert_self _ _))
      obtain rfl | he := Finset.mem_insert.mp he
      · exact hrange.2
      · exact (hin c.src).edges e he
  | load =>
    have hc : place c = c.src := by rw [place, htype]
    rw [htype, hc] at hput
    exact hput h (hc ▸ hplace) hrange.1 (hadds _) (hlisted _) (hlast _)
  | store =>
    have hc : place c = c.dest := by rw [place, htype]
    rw [htype, hc] at hput
    exact hput h (hc ▸ hplace) hrange.2 (hadds _) (hlisted _) (hlast _)

theorem built_createConstraintGraph {list : List Constraint} (h : Built o cs s)
    (hplaced : ∀ c ∈ list, o.reps.parent (place c) = place c)
    (hrun : createConstraintGraph list s = some s') : Built o (list.reverse ++ cs) s' := by
  induction list generalizing cs s with
  | nil => exact Option.some.inj hrun ▸ h
  | cons c list ih =>
    rw [createConstraintGraph, List.foldlM_cons, Option.bind_eq_bind,
      Option.bind_eq_some_iff] at hrun
    obtain ⟨s₁, hc, hrun⟩ := hrun
    rw [List.reverse_cons, List.append_assoc, List.singleton_append]
    exact ih (built_addConstraint h (hplaced c List.mem_cons_self) hc)
      (fun c' hc' => hplaced c' (List.mem_cons_of_mem c hc')) hrun

/-- The graph before the first constraint. -/
theorem built_nil (ho : o.WellFormed) : Built o [] ({ reps := o.reps, sdt := o.sdt } : State W) where
  inRange := by
    refine ⟨fun i => ⟨by simp, by simp, by simp, by simp⟩, fun ht => ho.sdt ht, fun x hx => ?_,
      by simp, by simp, by simp⟩
    simp [State.view, W.elems_empty] at hx
  frame := rfl
  old _ := rfl
  outside _ _ := rfl
  reps := rfl
  sdt := rfl
  represented := by simp
  stored := by simp

/-! ## Pointer equivalences -/

/-- Nodes were united since. -/
structure Joined (o : Offline) (cs : List Constraint) (s : State W) : Prop
    extends Fresh o s where
  represented : ∀ c ∈ cs, s.view.Represented noLinks c
  listed : Listed s.view
  sdt : (∀ n, o.sdt n = none) → ∀ n, s.sdt n = none

theorem Built.joined (h : Built o cs s) (ho : o.WellFormed) (hcs : ∀ c ∈ o.constraints, c ∈ cs) :
    Joined o cs s where
  toFresh := h.toFresh
  represented := h.represented
  sdt hsdt n := (congrFun h.sdt n).trans (hsdt n)
  listed {n t} hn ht := by
    have hreps : s.view.rep = o.reps.rootD := congrArg Batteries.UnionFind.rootD h.reps
    have hsdt : s.view.sdt = o.sdt := h.sdt
    rw [hreps] at hn
    rw [hsdt] at ht
    obtain ⟨c, hc, hstore, rfl⟩ := ho.stored (Batteries.UnionFind.rootD_eq_self.mp hn) ht
    exact h.stored c (hcs c hc) hstore

theorem joined_unite {j r : Nat} (h : Joined o cs s) (hrun : unite i j s = some (r, s')) :
    Joined o cs s' := by
  have hunited := unite_spec hrun
  exact
    { inRange := (advances_unite hrun h.inRange).inRange
      frame := hunited.frame.trans h.frame
      old := hunited.fresh h.old
      outside := fun n hn => by
        rw [hunited.grows.size] at hn
        rw [hunited.outside hn, h.outside n hn]
      represented := fun c hc => (hunited.contains noLinks).represented hunited.members
        (h.represented c hc)
      listed := hunited.listed h.listed
      sdt := fun hsdt => hunited.grows.sdt (h.sdt hsdt) }

theorem joined_unitePointerEquivalence (h : Joined o cs s)
    (hrun : unitePointerEquivalence o s i = some s') : Joined o cs s' := by
  unfold unitePointerEquivalence at hrun
  split at hrun
  · split at hrun
    · exact Option.some.inj hrun ▸ h
    · split at hrun
      · exact Option.some.inj hrun ▸ h
      · obtain ⟨⟨r, s₁⟩, hunite, rfl⟩ := Option.map_eq_some_iff.mp hrun
        exact joined_unite h hunite
  · exact Option.some.inj hrun ▸ h

theorem joined_unitePointerEquivalences {list : List Nat} (h : Joined o cs s)
    (hrun : list.foldlM (unitePointerEquivalence o) s = some s') : Joined o cs s' := by
  induction list generalizing s with
  | nil => exact Option.some.inj hrun ▸ h
  | cons i list ih =>
    rw [List.foldlM_cons, Option.bind_eq_bind, Option.bind_eq_some_iff] at hrun
    obtain ⟨s₁, hi, hrun⟩ := hrun
    exact ih (joined_unitePointerEquivalence h hi) hrun

/-! ## The first work list -/

/-- The node can contribute right now. -/
def Active (v : View) (i : Nat) : Prop :=
  v.rep i = i ∧ (v.nodes i).pointsTo ≠ ∅ ∧
    ((v.nodes i).edges ≠ ∅ ∨ (v.nodes i).constraints ≠ [])

/-- The nodes in `done` have been put on the work list, if they are active. -/
structure Initial (s : State W) (done : List Nat) (s' : State W) : Prop where
  graph : SameGraph s.view s'.view
  old : ∀ n, (s'.graphNodes n).oldPointsTo = (s.graphNodes n).oldPointsTo
  inRange : InRange s'
  size : s'.size = s.size
  nextWL : s'.nextWL = s.nextWL
  stack : s'.sccStack = s.sccStack
  candidates : s'.tarjanWL = s.tarjanWL
  queued : ∀ i ∈ done, Active s.view i → s'.view.Queued i

theorem initial_insertInitial {done : List Nat} (h : Initial s done s') (hi : i < s.size) :
    Initial s (i :: done) (insertInitial s' i) := by
  have hsize := h.size
  have hactive : Active s.view i ↔ s'.isRep i = true ∧ (s'.graphNodes i).pointsTo ≠ ∅ ∧
      ((s'.graphNodes i).edges ≠ ∅ ∨ (s'.graphNodes i).constraints ≠ []) := by
    obtain ⟨hedges, hpointsTo, hconstraints⟩ := h.graph.nodes i
    unfold Active
    rw [isRep_iff, h.graph.rep, ← hedges, ← hpointsTo, ← hconstraints]
    rfl
  unfold insertInitial
  dsimp only
  by_cases hcond : Active s.view i
  · rw [if_pos (hactive.mp hcond)]
    have hstamp := advances_stamp (i := i) h.inRange
    have hother : ∀ {k}, k ≠ i → (s'.stamp i).graphNodes k = s'.graphNodes k :=
      fun hk => Function.update_of_ne hk ..
    have hself : (s'.stamp i).graphNodes i =
        { s'.graphNodes i with timestamp := s'.counter } := Function.update_self ..
    have hwaiting : ((s'.stamp i).insertCurr i).view.waiting =
        (s'.stamp i).element i ::ₘ s'.view.waiting := by
      simp only [State.view, State.insertCurr, W.elems_push, Multiset.cons_add]
      rfl
    refine ⟨⟨h.graph.rep, h.graph.sdt, fun k => ?_⟩, fun k => ?_, { hstamp.inRange with
      waiting := fun x hx => ?_ }, hsize, h.nextWL, h.stack, h.candidates, fun k hk hk' => ?_⟩
    · by_cases hk : k = i
      · rw [hk]
        have hnode : ((s'.stamp i).insertCurr i).view.nodes i =
          { s'.graphNodes i with timestamp := s'.counter } := hself
        rw [hnode]
        exact h.graph.nodes i
      · have hnode : ((s'.stamp i).insertCurr i).view.nodes k = s'.graphNodes k := hother hk
        rw [hnode]
        exact h.graph.nodes k
    · by_cases hk : k = i
      · rw [hk]
        exact (congrArg GraphNode.oldPointsTo hself).trans (h.old i)
      · exact (congrArg GraphNode.oldPointsTo (hother hk)).trans (h.old k)
    · rw [hwaiting] at hx
      obtain rfl | hx := Multiset.mem_cons.mp hx
      · exact hsize.symm ▸ hi
      · exact h.inRange.waiting x hx
    · rw [View.Queued, hwaiting]
      by_cases hki : k = i
      · rw [hki]
        exact Multiset.mem_cons_self _ _
      · have hqueued := h.queued k ((List.mem_cons.mp hk).resolve_left hki) hk'
        refine Multiset.mem_cons_of_mem ?_
        have hnode : ((s'.stamp i).insertCurr i).view.nodes k = s'.view.nodes k := hother hki
        rw [hnode]
        exact hqueued
  · rw [if_neg fun hcond' => hcond (hactive.mpr hcond')]
    refine { h with queued := fun k hk hk' => ?_ }
    obtain rfl | hk := List.mem_cons.mp hk
    · exact absurd hk' hcond
    · exact h.queued k hk hk'

theorem initial_insertInitials {list done : List Nat} (h : Initial s done s')
    (hlist : ∀ i ∈ list, i < s.size) :
    Initial s (list.reverse ++ done) (list.foldl insertInitial s') := by
  induction list generalizing done s' with
  | nil => exact h
  | cons i list ih =>
    rw [List.foldl_cons, List.reverse_cons, List.append_assoc, List.singleton_append]
    exact ih (initial_insertInitial h (hlist i List.mem_cons_self))
      fun k hk => hlist k (List.mem_cons_of_mem i hk)

/-- The graph leads to no special node, nor does `SDT`. -/
structure Guarded (v : View) : Prop where
  edges : ∀ {n e}, e ∈ (v.nodes n).edges → numberSpecialNodes ≤ v.rep e ∨ v.rep e = n
  loads : ∀ {n c}, c ∈ (v.nodes n).constraints → c.type = .load →
    numberSpecialNodes ≤ v.rep c.dest
  sdt : ∀ {n t}, v.rep n = n → v.sdt n = some t → numberSpecialNodes ≤ v.rep t

/-- What the loop starts with. -/
structure Prepared (m : Module) (a : Graph) (o : Offline) (s : State W) : Prop where
  solving : Guarded s.view → Solving m a o.constraints s
  inRange : InRange s
  size : s.size = o.reps.size
  nextWL : W.elems s.nextWL = 0
  candidates : s.tarjanWL = []
  stack : s.sccStack = []
  sdt : (∀ n, o.sdt n = none) → ∀ n, s.sdt n = none
  outside : ∀ n, s.size ≤ n → (s.graphNodes n).edges = ∅ ∧ (s.graphNodes n).constraints = []

theorem prepared_of_prepare (ho : o.WellFormed) (hrun : prepare W o = some s) :
    Prepared m a o s := by
  unfold prepare at hrun
  rw [Option.bind_eq_bind, Option.bind_eq_some_iff] at hrun
  obtain ⟨s₁, hcreate, hrun⟩ := hrun
  obtain ⟨s₂, hunite, hrun⟩ := Option.bind_eq_some_iff.mp hrun
  have hjoined : Joined o (o.constraints.reverse ++ []) s₂ :=
    joined_unitePointerEquivalences ((built_createConstraintGraph (built_nil ho) ho.placed
      hcreate).joined ho (by simp)) hunite
  have hsize : s₂.size = o.reps.size := congrArg Prod.fst hjoined.frame
  have hinitial : Initial s₂ ((List.range s₂.size).reverse ++ []) s := by
    obtain rfl := Option.some.inj hrun
    exact initial_insertInitials ⟨⟨rfl, rfl, fun _ => ⟨rfl, rfl, rfl⟩⟩, fun _ => rfl,
      hjoined.inRange, rfl, rfl, rfl, rfl, by simp⟩ fun i hi => List.mem_range.mp hi
  have hold : ∀ n, (s.view.nodes n).oldPointsTo = ∅ :=
    fun n => (hinitial.old n).trans (hjoined.old n)
  have hstack : s.sccStack = [] :=
    hinitial.stack.trans (congrArg (fun f => f.2.sccStack) hjoined.frame)
  have hcandidates : s.tarjanWL = [] :=
    hinitial.candidates.trans (congrArg (fun f => f.2.tarjanWL) hjoined.frame)
  have hnextWL : s.nextWL = W.empty :=
    hinitial.nextWL.trans (congrArg (fun f => f.2.nextWL) hjoined.frame)
  refine ⟨fun hguarded => ⟨⟨⟨fun i => Batteries.UnionFind.rootD_rootD, hguarded.edges,
    hguarded.loads, hguarded.sdt, fun n => ?_⟩, fun {n} hn => ?_, fun {n} hn => ?_⟩,
    fun c hc => ?_, ?_, ?_⟩, hinitial.inRange, hinitial.size.trans hsize, ?_, hcandidates,
    hstack, fun hsdt n => (congrFun hinitial.graph.sdt n).trans (hjoined.sdt hsdt n),
    fun n hn => ?_⟩
  · rw [hold n]
    exact Finset.empty_subset _
  · rw [hold n, Finset.empty_sdiff]
    exact .empty
  · by_cases hactive : Active s₂.view n
    · have hlt : n < s₂.size := by
        by_contra hle
        have hnode : s₂.view.nodes n = {} := hjoined.outside n (Nat.le_of_not_lt hle)
        rw [Active, hnode] at hactive
        exact hactive.2.1 rfl
      refine .inl (.queued (hn.symm ▸ hinitial.queued n ?_ hactive))
      rw [List.append_nil, List.mem_reverse, List.mem_range]
      exact hlt
    · obtain ⟨hedges, hpointsTo, hconstraints⟩ := hinitial.graph.nodes n
      have hrep := hinitial.graph.rep
      by_cases hempty : (s.view.nodes n).pointsTo = ∅
      · refine .inl (.empty ?_)
        rwa [View.pointsTo, hn]
      · -- Nothing is to be done for its members.
        have hnothing : (s.view.nodes n).edges = ∅ ∧ (s.view.nodes n).constraints = [] := by
          by_contra hsome
          refine hactive ⟨hrep ▸ hn, hpointsTo ▸ hempty, ?_⟩
          rw [← hedges, ← hconstraints]
          exact not_and_or.mp hsome
        refine .inr ⟨?_, ?_, fun {t} hl => ?_⟩
        · rw [hnothing.1]
          exact fun e he => absurd he (Finset.notMem_empty e)
        · rw [hnothing.2]
          exact fun c hc => absurd hc List.not_mem_nil
        · obtain ⟨t', ht', -⟩ | ⟨_, _, hfalse, -⟩ := hl
          · refine absurd (hconstraints ▸ hnothing.2) (hjoined.listed (hrep ▸ hn) (t := t') ?_)
            rw [← hinitial.graph.sdt, ← hn]
            exact ht'
          · exact hfalse.elim
  · refine hinitial.graph.ext.represented (hjoined.represented c ?_)
    rw [List.append_nil, List.mem_reverse]
    exact hc
  · rw [hstack]
    exact fun x hx => absurd hx List.not_mem_nil
  · rw [hcandidates]
    exact fun x hx => absurd hx List.not_mem_nil
  · rw [hnextWL, W.elems_empty]
  · obtain ⟨hedges, -, hconstraints⟩ := hinitial.graph.nodes n
    have hnode : s₂.view.nodes n = {} := hjoined.outside n (hinitial.size ▸ hn)
    rw [hnode] at hedges hconstraints
    exact ⟨hedges, hconstraints⟩

/-- A graph is guarded if its nodes are. -/
theorem Prepared.guarded (h : Prepared m a o s)
    (hnodes : ∀ n < s.size,
      (∀ e ∈ (s.graphNodes n).edges, numberSpecialNodes ≤ s.reps.rootD e) ∧
      ∀ c ∈ (s.graphNodes n).constraints, c.type = .load →
        numberSpecialNodes ≤ s.reps.rootD c.dest)
    (hsdt : ∀ {n t}, s.sdt n = some t → numberSpecialNodes ≤ s.reps.rootD t) :
    Guarded s.view where
  edges {n e} he := by
    have he : e ∈ (s.graphNodes n).edges := he
    by_cases hn : n < s.size
    · exact .inl ((hnodes n hn).1 e he)
    · rw [(h.outside n (Nat.le_of_not_lt hn)).1] at he
      exact absurd he (Finset.notMem_empty e)
  loads {n c} hc hload := by
    have hc : c ∈ (s.graphNodes n).constraints := hc
    by_cases hn : n < s.size
    · exact (hnodes n hn).2 c hc hload
    · rw [(h.outside n (Nat.le_of_not_lt hn)).2] at hc
      exact absurd hc List.not_mem_nil
  sdt _ ht := hsdt ht

end Preparation

end Lockout.Andersens.Solver
