import Lockout.Andersens.Unification

/-! # No step of the solver shrinks the solution

Whatever a step does, all indices stay those of nodes, and unless nodes are united the sets of
every node only grow. Together with the edges checked for cycles this bounds how often a node
comes on the next work list. -/

namespace Lockout.Andersens.Solver
open Lockout.Andersens.Objects Lockout.Andersens.Slots Lockout.Andersens.Progress

structure GraphNode.InRange (node : GraphNode) (size : Nat) : Prop where
  edges : ∀ e ∈ node.edges, e < size
  pointsTo : ∀ x ∈ node.pointsTo, x < size
  oldPointsTo : ∀ x ∈ node.oldPointsTo, x < size
  constraints : ∀ c ∈ node.constraints, c.src < size ∧ c.dest < size

section Growth
variable {W : WorkList} {m : Module} {a : Graph} {s s' : State W} {i j : Nat}

/-- All indices are those of nodes. -/
structure InRange (s : State W) : Prop where
  nodes : ∀ i, (s.graphNodes i).InRange s.size
  sdt : ∀ {i t}, s.sdt i = some t → t < s.size
  waiting : ∀ x ∈ s.view.waiting, x.node < s.size
  stack : ∀ x ∈ s.sccStack, x < s.size
  candidates : ∀ x ∈ s.tarjanWL, x < s.size
  checked : ∀ e ∈ s.edgesChecked, e.1 < s.size ∧ e.2 < s.size

/-- What is left of the search for cycles: the candidates, and the edges that may still become
candidates. -/
def State.pending (s : State W) : Nat :=
  s.tarjanWL.length + 2 * (s.size ^ 2 - s.edgesChecked.card)

/-- What every step does. -/
structure Advances (s s' : State W) : Prop where
  inRange : InRange s'
  grows : Grows s s'
  pending : s'.pending ≤ s.pending
  candidates : s.tarjanWL.length ≤ s'.tarjanWL.length

theorem Advances.refl (h : InRange s) : Advances s s := ⟨h, .refl, le_rfl, le_rfl⟩

theorem Advances.trans {s'' : State W} (h : Advances s s') (h' : Advances s' s'') :
    Advances s s'' :=
  ⟨h'.inRange, h.grows.trans h'.grows, h'.pending.trans h.pending,
    h.candidates.trans h'.candidates⟩

theorem rep_lt (hi : i < s.size) : s.view.rep i < s.size :=
  Batteries.UnionFind.rootD_lt.mpr hi

theorem findNode_lt (hi : i < s.size) : (findNode i s).1 < s.size := by
  rw [findNode_fst]
  exact rep_lt hi

theorem advances_findNode (h : InRange s) (i : Nat) : Advances s (findNode i s).2 := by
  have hsize : (findNode i s).2.size = s.size := congrArg Prod.fst frame_findNode
  refine ⟨⟨?_, ?_, ?_, ?_, ?_, ?_⟩, .findNode i, ?_, ?_⟩
  · rw [hsize]
    exact h.nodes
  · rw [hsize]
    exact h.sdt
  · rw [hsize]
    exact h.waiting
  · rw [hsize]
    exact h.stack
  · rw [hsize]
    exact h.candidates
  · rw [hsize]
    exact h.checked
  · unfold State.pending
    rw [hsize]
    exact le_rfl
  · exact le_rfl

/-- One node changes, but none of its sets shrinks. -/
theorem advances_modify {f : GraphNode → GraphNode} (h : InRange s)
    (hnode : (f (s.graphNodes i)).InRange s.size)
    (hsets : (s.graphNodes i).pointsTo ⊆ (f (s.graphNodes i)).pointsTo ∧
      (s.graphNodes i).oldPointsTo ⊆ (f (s.graphNodes i)).oldPointsTo) :
    Advances s (s.modify i f) := by
  refine ⟨{ h with nodes := fun k => ?_ }, .of_rep rfl rfl rfl rfl fun k => ?_, le_rfl, le_rfl⟩
  · by_cases hk : k = i
    · subst hk
      simp only [State.modify, Function.update_self]
      exact hnode
    · simp only [State.modify, Function.update_of_ne hk]
      exact h.nodes k
  · by_cases hk : k = i
    · subst hk
      simp only [State.modify, Function.update_self]
      exact hsets
    · simp only [State.modify, Function.update_of_ne hk]
      exact ⟨Finset.Subset.refl _, Finset.Subset.refl _⟩

theorem advances_stamp (h : InRange s) : Advances s (s.stamp i) := by
  have hmodify : Advances s (s.modify i fun node => { node with timestamp := s.counter }) :=
    advances_modify h { h.nodes i with } ⟨Finset.Subset.refl _, Finset.Subset.refl _⟩
  exact ⟨{ hmodify.inRange with },
    .of_rep rfl rfl rfl rfl (hmodify.grows.sets fun _ hi => hi), hmodify.pending, le_rfl⟩

theorem advances_insertNext (h : InRange s) (hi : i < s.size) : Advances s (s.insertNext i) := by
  refine ⟨{ h with waiting := fun x hx => ?_ }, .of_nodes rfl rfl rfl rfl rfl, le_rfl, le_rfl⟩
  simp only [State.view, State.insertNext, W.elems_push, Multiset.add_cons,
    Multiset.mem_cons] at hx
  obtain rfl | hx := hx
  · exact hi
  · exact h.waiting x hx

theorem advances_unionPointsTo {set : Finset Nat} (h : InRange s) (hi : i < s.size)
    (hset : ∀ x ∈ set, x < s.size) : Advances s (s.unionPointsTo i set) := by
  unfold State.unionPointsTo
  split
  · exact .refl h
  · have hmodify : Advances s (s.modify i fun node =>
        { node with pointsTo := node.pointsTo ∪ set }) := by
      refine advances_modify h { h.nodes i with pointsTo := fun x hx => ?_ }
        ⟨Finset.subset_union_left, Finset.Subset.refl _⟩
      exact (Finset.mem_union.mp hx).elim ((h.nodes i).pointsTo x) (hset x)
    exact hmodify.trans (advances_insertNext hmodify.inRange hi)

theorem advances_addEdge {src dest : Nat} (h : InRange s) (hdest : dest < s.size) :
    Advances s (s.addEdge src dest) := by
  unfold State.addEdge
  split
  · exact .refl h
  · split
    · exact .refl h
    · have hmodify : Advances s (s.modify src fun node =>
          { node with edges := insert dest node.edges }) := by
        refine advances_modify h { h.nodes src with edges := fun e he => ?_ }
          ⟨Finset.Subset.refl _, Finset.Subset.refl _⟩
        obtain rfl | he := Finset.mem_insert.mp he
        · exact hdest
        · exact (h.nodes src).edges e he
      exact hmodify.trans (advances_unionPointsTo hmodify.inRange hdest
        (h.nodes src).pointsTo)

/-! ## Unions -/

theorem inRange_mergeNodes {first second : Nat} {s₁ : State W} (h : InRange s)
    (hview : s₁.view = merge s.view first second) (hframe : s₁.frame = s.frame) :
    InRange s₁ := by
  have hsize : s₁.size = s.size := congrArg Prod.fst hframe
  have hwaiting : s₁.view.waiting = s.view.waiting := by
    rw [hview]
    rfl
  refine ⟨fun k => ?_, fun {k t} ht => ?_, ?_, ?_, ?_, ?_⟩
  · have hnode : s₁.graphNodes k = (merge s.view first second).nodes k :=
      congrFun (congrArg View.nodes hview) k
    rw [hnode, hsize]
    by_cases hk : k = first
    · subst hk
      rw [merge_nodes_first]
      have hfirst := h.nodes k
      have hsecond := h.nodes second
      refine ⟨fun e he => ?_, fun x hx => ?_, by simp, fun c hc => ?_⟩
      · exact (Finset.mem_union.mp he).elim (hfirst.edges e) (hsecond.edges e)
      · dsimp only at hx
        split at hx
        · exact (Finset.mem_union.mp hx).elim (hfirst.pointsTo x) (hsecond.pointsTo x)
        · exact hfirst.pointsTo x hx
      · exact (List.mem_append.mp hc).elim (hsecond.constraints c) (hfirst.constraints c)
    · by_cases hk' : k = second
      · have hempty : (merge s.view first second).nodes k =
            { timestamp := (s.graphNodes second).timestamp } := by
          rw [hk']
          exact (Function.update_of_ne (hk' ▸ hk) ..).trans (Function.update_self ..)
        rw [hempty]
        exact ⟨by simp, by simp, by simp, by simp⟩
      · rw [merge_nodes hk hk']
        exact h.nodes k
  · have hsdt : s₁.sdt = s.sdt := congrArg View.sdt hview
    rw [hsize]
    exact h.sdt (hsdt ▸ ht)
  · rw [hsize, hwaiting]
    exact h.waiting
  · have hstack : s₁.sccStack = s.sccStack := congrArg (fun f => f.2.sccStack) hframe
    rw [hsize, hstack]
    exact h.stack
  · have hcandidates : s₁.tarjanWL = s.tarjanWL := congrArg (fun f => f.2.tarjanWL) hframe
    rw [hsize, hcandidates]
    exact h.candidates
  · have hchecked : s₁.edgesChecked = s.edgesChecked :=
      congrArg (fun f => f.2.edgesChecked) hframe
    rw [hsize, hchecked]
    exact h.checked

theorem inRange_uniteNodes {fuel r : Nat} (h : uniteNodes fuel i j s = some (r, s'))
    (hs : InRange s) : InRange s' := by
  induction fuel generalizing i j r s s' with
  | zero => simp [uniteNodes] at h
  | succ fuel ih =>
    rw [uniteNodes, Option.bind_eq_bind, Option.bind_eq_some_iff] at h
    obtain ⟨reps, hreps, h⟩ := h
    obtain ⟨-, -, -, hsize⟩ := linkReps_spec hreps
    by_cases hne : i = j
    · rw [if_pos hne] at h
      obtain ⟨-, rfl⟩ := Prod.mk.inj (Option.some.inj h)
      exact hs
    · rw [if_neg hne] at h
      obtain ⟨first, second, hrank⟩ : ∃ first second, byRank s.reps i j = (first, second) :=
        ⟨_, _, rfl⟩
      rw [hrank] at h
      dsimp only at h
      have hmerged := inRange_mergeNodes hs (view_mergeNodes hreps hne hrank)
        (Prod.ext hsize rfl)
      generalize mergeNodes first second { s with reps } = s₁ at h hmerged
      cases hsecond : s₁.sdt second with
      | none =>
        rw [hsecond] at h
        obtain ⟨-, rfl⟩ := Prod.mk.inj (Option.some.inj h)
        exact hmerged
      | some t =>
        rw [hsecond] at h
        cases hfirst : s₁.sdt first with
        | none =>
          rw [hfirst] at h
          obtain ⟨-, rfl⟩ := Prod.mk.inj (Option.some.inj h)
          refine { hmerged with sdt := fun {k u} hu => ?_ }
          have hu : Function.update s₁.sdt first (some t) k = some u := hu
          by_cases hk : k = first
          · rw [hk, Function.update_self] at hu
            obtain rfl := Option.some.inj hu
            exact hmerged.sdt hsecond
          · rw [Function.update_of_ne hk] at hu
            exact hmerged.sdt hu
        | some t' =>
          rw [hfirst] at h
          dsimp only at h
          rw [Option.bind_eq_bind, Option.bind_eq_some_iff] at h
          obtain ⟨⟨r', s₂⟩, hnested, h⟩ := h
          obtain rfl : (findNode first s₂).2 = s' := congrArg Prod.snd (Option.some.inj h)
          have hfound := advances_findNode (advances_findNode hmerged t').inRange t
          exact (advances_findNode (ih hnested hfound.inRange) first).inRange

theorem advances_unite {r : Nat} (h : unite i j s = some (r, s')) (hs : InRange s) :
    Advances s s' := by
  have hunited := unite_spec h
  have hsize := hunited.grows.size
  have htarjan : s'.tarjanWL = s.tarjanWL := congrArg (fun f => f.2.tarjanWL) hunited.frame
  have hchecked : s'.edgesChecked = s.edgesChecked :=
    congrArg (fun f => f.2.edgesChecked) hunited.frame
  refine ⟨inRange_uniteNodes h hs, hunited.grows, ?_, ?_⟩
  · unfold State.pending
    rw [hsize, htarjan, hchecked]
  · rw [htarjan]

/-- Both nodes and the representative are nodes. -/
theorem unite_lt {r : Nat} (h : unite i j s = some (r, s')) : i < s.size ∧ r < s'.size := by
  have hrange : i < s.size := by
    unfold unite at h
    cases hsize : s.size with
    | zero =>
      rw [hsize] at h
      simp [uniteNodes] at h
    | succ n =>
      rw [hsize, uniteNodes, Option.bind_eq_bind, Option.bind_eq_some_iff] at h
      obtain ⟨reps, hreps, -⟩ := h
      exact hsize ▸ (linkReps_spec hreps).1.1
  have hunited := unite_spec h
  refine ⟨hrange, ?_⟩
  rw [← hunited.left]
  exact rep_lt (hunited.grows.size.symm ▸ hrange)

/-! ## The cycle search -/

section Search
variable {query : Nat → State W → Option (Bool × State W)}
  (hquery : ∀ {n s b s'}, query n s = some (b, s') → InRange s → n < s.size → Advances s s')

theorem advances_lower {node rep : Nat} (h : InRange s) : Advances s (lower node rep s) := by
  unfold lower
  split
  · exact ⟨{ h with }, .of_nodes rfl rfl rfl rfl rfl, le_rfl, le_rfl⟩
  · exact .refl h

theorem advances_uniteStack {ourDFS node r : Nat} {stack : List Nat} {merged merged' : Bool}
    (h : uniteStack ourDFS stack node merged s = some (r, merged', s')) (hs : InRange s)
    (hnode : node < s.size) (hstack : ∀ x ∈ stack, x < s.size) :
    Advances s s' ∧ r < s'.size := by
  induction stack generalizing node merged s with
  | nil =>
    obtain ⟨rfl, -, rfl⟩ : node = r ∧ merged = merged' ∧ { s with sccStack := [] } = s' := by
      simpa [uniteStack] using h
    exact ⟨⟨{ hs with stack := by simp }, .of_nodes rfl rfl rfl rfl rfl, le_rfl, le_rfl⟩, hnode⟩
  | cons top stack ih =>
    rw [uniteStack] at h
    split at h
    · rw [Option.bind_eq_bind, Option.bind_eq_some_iff] at h
      obtain ⟨⟨r₁, s₁⟩, hunite, h⟩ := h
      have hadvances := advances_unite hunite hs
      obtain ⟨hrest, hr⟩ := ih h hadvances.inRange (unite_lt hunite).2 fun x hx => by
        rw [hadvances.grows.size]
        exact hstack x (List.mem_cons_of_mem top hx)
      exact ⟨hadvances.trans hrest, hr⟩
    · obtain ⟨rfl, -, rfl⟩ : node = r ∧ merged = merged' ∧
          { s with sccStack := top :: stack } = s' := by
        simpa using h
      exact ⟨⟨{ hs with stack := hstack }, .of_nodes rfl rfl rfl rfl rfl, le_rfl, le_rfl⟩, hnode⟩

theorem advances_closeQuery {ourDFS node : Nat} {q : Query W} {b : Bool}
    (h : closeQuery node ourDFS q = some (b, s')) (hs : InRange q.state)
    (hnode : node < q.state.size) (hnew : ∀ e ∈ q.newEdges, e < q.state.size) :
    Advances q.state s' := by
  unfold closeQuery at h
  split at h
  swap
  · simp at h
  have hmodify : Advances q.state (q.state.modify node fun n =>
      { n with edges := n.edges \ q.toErase ∪ q.newEdges }) := by
    refine advances_modify hs { hs.nodes node with edges := fun e he => ?_ }
      ⟨Finset.Subset.refl _, Finset.Subset.refl _⟩
    obtain he | he := Finset.mem_union.mp he
    · exact (hs.nodes node).edges e (Finset.mem_sdiff.mp he).1
    · exact hnew e he
  have hnode₁ : node < (q.state.modify node fun n =>
      { n with edges := n.edges \ q.toErase ∪ q.newEdges }).size := hnode
  generalize q.state.modify node _ = s₁ at h hmodify hnode₁
  dsimp only at h
  split at h
  · rw [Option.bind_eq_bind, Option.bind_eq_some_iff] at h
    obtain ⟨⟨r, merged, s₂⟩, hunite, h⟩ := h
    obtain ⟨hunited, hr⟩ := advances_uniteStack hunite hmodify.inRange hnode₁
      hmodify.inRange.stack
    obtain rfl := congrArg Prod.snd (Option.some.inj h)
    have hdeleted : Advances s₂ { s₂ with
        tarjan2Deleted := Function.update s₂.tarjan2Deleted r true } :=
      ⟨{ hunited.inRange with }, .of_nodes rfl rfl rfl rfl rfl, le_rfl, le_rfl⟩
    refine hmodify.trans (hunited.trans (hdeleted.trans ?_))
    dsimp only
    split
    · exact advances_insertNext hdeleted.inRange hr
    · exact .refl hdeleted.inRange
  · obtain rfl := congrArg Prod.snd (Option.some.inj h)
    refine hmodify.trans ⟨{ hmodify.inRange with stack := fun x hx => ?_ }, .of_nodes rfl rfl rfl rfl rfl,
      le_rfl, le_rfl⟩
    obtain rfl | hx := List.mem_cons.mp hx
    · exact hnode₁
    · exact hmodify.inRange.stack x hx

include hquery in
theorem advances_visit {node rep r : Nat} {changed changed' : Bool}
    (h : visit query node rep changed s = some (r, changed', s')) (hs : InRange s)
    (hrep : rep < s.size) : Advances s s' ∧ r < s'.size := by
  unfold visit at h
  split at h
  · obtain ⟨rfl, -, rfl⟩ := by simpa using h
    exact ⟨.refl hs, hrep⟩
  · split at h
    · rw [Option.bind_eq_bind, Option.bind_eq_some_iff] at h
      obtain ⟨⟨below, s₁⟩, hbelow, h⟩ := h
      have hqueried := hquery hbelow hs hrep
      obtain rfl : (findNode rep s₁).1 = r := congrArg Prod.fst (Option.some.inj h)
      obtain rfl : lower node (findNode rep s₁).1 (findNode rep s₁).2 = s' :=
        congrArg (fun x => x.2.2) (Option.some.inj h)
      have hfound := advances_findNode hqueried.inRange rep
      have hlower := @advances_lower _ _ node (findNode rep s₁).1 hfound.inRange
      have hall := hqueried.trans (hfound.trans hlower)
      refine ⟨hall, ?_⟩
      rw [hall.grows.size, ← hqueried.grows.size]
      exact findNode_lt (hqueried.grows.size.symm ▸ hrep)
    · obtain ⟨rfl, -, rfl⟩ := by simpa using h
      have hlower := @advances_lower _ _ node rep hs
      exact ⟨hlower, hlower.grows.size.symm ▸ hrep⟩

include hquery in
theorem advances_queryEdge {node dest : Nat} {q q' : Query W}
    (h : queryEdge query node q dest = some q') (hs : InRange q.state)
    (hdest : dest < q.state.size) (hnew : ∀ e ∈ q.newEdges, e < q.state.size) :
    Advances q.state q'.state ∧ ∀ e ∈ q'.newEdges, e < q'.state.size := by
  have hfound := advances_findNode hs dest
  have hrep : (findNode dest q.state).1 < (findNode dest q.state).2.size := by
    rw [hfound.grows.size]
    exact findNode_lt hdest
  unfold queryEdge at h
  dsimp only at h
  split at h
  · obtain rfl := Option.some.inj h
    refine ⟨hfound, ?_⟩
    rw [hfound.grows.size]
    exact hnew
  · rw [Option.bind_eq_bind, Option.bind_eq_some_iff] at h
    obtain ⟨⟨r, changed, s₁⟩, hvisit, h⟩ := h
    obtain ⟨hvisited, hr⟩ := advances_visit hquery hvisit hfound.inRange hrep
    have hall := hfound.trans hvisited
    dsimp only at h
    split at h
    · obtain rfl := Option.some.inj h
      refine ⟨hall, fun e he => ?_⟩
      obtain rfl | he := Finset.mem_insert.mp he
      · exact hr
      · exact hall.grows.size.symm ▸ hnew e he
    · obtain rfl := Option.some.inj h
      refine ⟨hall, fun e he => ?_⟩
      exact hall.grows.size.symm ▸ hnew e he

include hquery in
theorem advances_queryEdges {node : Nat} {q q' : Query W} {edges : List Nat}
    (h : edges.foldlM (queryEdge query node) q = some q') (hs : InRange q.state)
    (hedges : ∀ e ∈ edges, e < q.state.size) (hnew : ∀ e ∈ q.newEdges, e < q.state.size) :
    Advances q.state q'.state ∧ ∀ e ∈ q'.newEdges, e < q'.state.size := by
  induction edges generalizing q with
  | nil =>
    obtain rfl := Option.some.inj h
    exact ⟨.refl hs, hnew⟩
  | cons e edges ih =>
    rw [List.foldlM_cons, Option.bind_eq_bind, Option.bind_eq_some_iff] at h
    obtain ⟨q₁, he, h⟩ := h
    obtain ⟨hedge, hnew₁⟩ := advances_queryEdge hquery he hs (hedges e List.mem_cons_self) hnew
    obtain ⟨hrest, hnew'⟩ := ih h hedge.inRange (fun e' he' => by
      rw [hedge.grows.size]
      exact hedges e' (List.mem_cons_of_mem e he')) hnew₁
    exact ⟨hedge.trans hrest, hnew'⟩

end Search

theorem advances_queryNode {fuel node : Nat} {b : Bool}
    (h : queryNode fuel node s = some (b, s')) (hs : InRange s) (hnode : node < s.size) :
    Advances s s' := by
  induction fuel generalizing node s b s' with
  | zero => simp [queryNode] at h
  | succ fuel ih =>
    rw [queryNode] at h
    split at h
    swap
    · simp at h
    rw [Option.bind_eq_bind, Option.bind_eq_some_iff] at h
    obtain ⟨q, hloop, h⟩ := h
    split at h
    swap
    · simp at h
    have hstart : Advances s { s with
        dfsNumber := s.dfsNumber + 1
        tarjan2DFS := Function.update s.tarjan2DFS node (s.dfsNumber + 1) } :=
      ⟨{ hs with }, .of_nodes rfl rfl rfl rfl rfl, le_rfl, le_rfl⟩
    obtain ⟨hedges, hnew⟩ := advances_queryEdges ih hloop hstart.inRange
      (fun e he => (hs.nodes node).edges e ((Finset.mem_sort _).mp he)) (by simp)
    refine hstart.trans (hedges.trans (advances_closeQuery h hedges.inRange ?_ hnew))
    rw [hedges.grows.size]
    exact hnode

/-- The candidates are used up. -/
theorem advances_queryCandidates {nodes : List Nat} (h : queryCandidates nodes s = some s')
    (hs : InRange s) (hnodes : ∀ n ∈ nodes, n < s.size) :
    InRange s' ∧ Grows s s' ∧ s'.tarjanWL = [] ∧
      s.tarjanWL.length + s'.pending ≤ s.pending := by
  induction nodes generalizing s with
  | nil =>
    obtain rfl := Option.some.inj h
    refine ⟨{ hs with candidates := by simp }, .of_nodes rfl rfl rfl rfl rfl, rfl, ?_⟩
    simp [State.pending, State.size]
  | cons n nodes ih =>
    have hrest := fun x hx => hnodes x (List.mem_cons_of_mem n hx)
    rw [queryCandidates] at h
    split at h
    · rw [Option.bind_eq_bind, Option.bind_eq_some_iff] at h
      obtain ⟨⟨b, s₁⟩, hquery, h⟩ := h
      have hadvances := advances_queryNode hquery hs (hnodes n List.mem_cons_self)
      obtain ⟨hinRange, hgrows, hempty, hpending⟩ := ih h hadvances.inRange fun x hx => by
        rw [hadvances.grows.size]
        exact hrest x hx
      exact ⟨hinRange, hadvances.grows.trans hgrows, hempty,
        (Nat.add_le_add_right hadvances.candidates _).trans (hpending.trans hadvances.pending)⟩
    · exact ih h hs hrest

/-! ## Propagation -/

/-- The offsets of the constraints lead to nodes only. -/
def Fits (m : Module) (a : Graph) (size : Nat) : Prop :=
  ∀ {c x y}, x < size → slot m a c x = some y → y < size

section Propagation
variable {curr : Nat} {set : Finset Nat} {li : Constraint} {rsv : Option (List Nat)}

theorem advances_applyMember {node : Nat} (h : InRange s) (hnode : node < s.size)
    (hli : li.dest < s.size) : Advances s (applyMember li s node) := by
  unfold applyMember
  split
  · exact advances_addEdge h hli
  · exact advances_addEdge h hnode

theorem advances_applyMembers {nodes : List Nat} (h : InRange s)
    (hnodes : ∀ n ∈ nodes, n < s.size) (hli : li.dest < s.size) :
    Advances s (nodes.foldl (applyMember li) s) := by
  induction nodes generalizing s with
  | nil => exact .refl h
  | cons n nodes ih =>
    have hstep := advances_applyMember h (hnodes n List.mem_cons_self) hli
    refine hstep.trans (ih hstep.inRange (fun n' hn' => ?_) (hstep.grows.size.symm ▸ hli))
    rw [hstep.grows.size]
    exact hnodes n' (List.mem_cons_of_mem n hn')

theorem advances_applyOffset {x : Nat} (hfits : Fits m a s.size) (h : InRange s)
    (hx : x < s.size) (hli : li.dest < s.size) : Advances s (applyOffset m a li s x) := by
  unfold applyOffset
  split
  · exact .refl h
  · rename_i y hy
    have hfound := advances_findNode h y
    exact hfound.trans (advances_applyMember hfound.inRange
      (hfound.grows.size.symm ▸ findNode_lt (hfits hx hy)) (hfound.grows.size.symm ▸ hli))

theorem advances_applyOffsets {members : List Nat} (hfits : Fits m a s.size) (h : InRange s)
    (hmembers : ∀ x ∈ members, x < s.size) (hli : li.dest < s.size) :
    Advances s (members.foldl (applyOffset m a li) s) := by
  induction members generalizing s with
  | nil => exact .refl h
  | cons x members ih =>
    have hstep := advances_applyOffset hfits h (hmembers x List.mem_cons_self) hli
    have hsize := hstep.grows.size
    refine hstep.trans (ih (hsize.symm ▸ hfits) hstep.inRange (fun x' hx' => ?_) (hsize.symm ▸ hli))
    rw [hsize]
    exact hmembers x' (List.mem_cons_of_mem x hx')

/-- All indices of a constraint are those of nodes. -/
def Between (size : Nat) (li : Constraint) : Prop := li.src < size ∧ li.dest < size

theorem advances_scanRewritten {c : Scan W} (hfits : Fits m a c.state.size)
    (h : InRange c.state) (hset : ∀ x ∈ set, x < c.state.size)
    (hrsv : ∀ nodes ∈ rsv, ∀ n ∈ nodes, n < c.state.size) (hli : Between c.state.size li)
    (hkept : ∀ li' ∈ c.kept, Between c.state.size li') :
    Advances c.state (scanRewritten m a set rsv c li).state ∧
      ∀ li' ∈ (scanRewritten m a set rsv c li).kept, Between c.state.size li' := by
  have hadd : ∀ li' ∈ c.kept ++ [li], Between c.state.size li' := by
    intro li' hli'
    obtain hli' | hli' := List.mem_append.mp hli'
    · exact hkept li' hli'
    · exact List.mem_singleton.mp hli' ▸ hli
  have hoffset : Advances c.state (set.sort.foldl (applyOffset m a li) c.state) :=
    advances_applyOffsets hfits h (fun x hx => hset x ((Finset.mem_sort _).mp hx)) hli.2
  unfold scanRewritten
  split
  · exact ⟨.refl h, hkept⟩
  · dsimp only
    split
    · split
      · rename_i nodes
        split
        · refine ⟨advances_applyMembers h (hrsv nodes rfl) hli.2, ?_⟩
          dsimp only
          split
          · exact hadd
          · exact hkept
        · exact ⟨hoffset, hadd⟩
      · exact ⟨hoffset, hadd⟩
    · exact ⟨.refl h, hadd⟩

theorem advances_scanConstraint {c : Scan W} (hfits : Fits m a c.state.size)
    (h : InRange c.state) (hset : ∀ x ∈ set, x < c.state.size)
    (hrsv : ∀ nodes ∈ rsv, ∀ n ∈ nodes, n < c.state.size) (hli : Between c.state.size li)
    (hkept : ∀ li' ∈ c.kept, Between c.state.size li') :
    Advances c.state (scanConstraint m a set rsv c li).state ∧
      ∀ li' ∈ (scanConstraint m a set rsv c li).kept, Between c.state.size li' := by
  have hfound : Advances c.state (findNode li.dest (findNode li.src c.state).2).2 :=
    (advances_findNode h _).trans (advances_findNode (advances_findNode h _).inRange _)
  have hsize := hfound.grows.size
  have hsrc := findNode_lt (s := c.state) hli.1
  have hdest : (findNode li.dest (findNode li.src c.state).2).1 < c.state.size := by
    have hmiddle := (advances_findNode h li.src).grows.size
    rw [← hmiddle]
    exact findNode_lt (hmiddle.symm ▸ hli.2)
  have hscan : scanConstraint m a set rsv c li = scanRewritten m a set rsv
      { c with state := (findNode li.dest (findNode li.src c.state).2).2 }
      { li with
        src := (findNode li.src c.state).1
        dest := (findNode li.dest (findNode li.src c.state).2).1 } := rfl
  rw [hscan]
  generalize (findNode li.dest (findNode li.src c.state).2).2 = t at hfound hsize
  generalize (findNode li.dest (findNode li.src c.state).2).1 = dest at hdest
  generalize (findNode li.src c.state).1 = src at hsrc
  obtain ⟨hadvances, hkept'⟩ := @advances_scanRewritten _ _ _ set { li with src, dest } rsv
    { c with state := t } (hsize.symm ▸ hfits) hfound.inRange (hsize.symm ▸ hset)
    (hsize.symm ▸ hrsv) (hsize.symm ▸ ⟨hsrc, hdest⟩) (hsize.symm ▸ hkept)
  exact ⟨hfound.trans hadvances, hsize ▸ hkept'⟩

theorem advances_scanConstraints {c : Scan W} {list : List Constraint}
    (hfits : Fits m a c.state.size) (h : InRange c.state) (hset : ∀ x ∈ set, x < c.state.size)
    (hrsv : ∀ nodes ∈ rsv, ∀ n ∈ nodes, n < c.state.size)
    (hlist : ∀ li ∈ list, Between c.state.size li)
    (hkept : ∀ li' ∈ c.kept, Between c.state.size li') :
    Advances c.state (list.foldl (scanConstraint m a set rsv) c).state ∧
      ∀ li' ∈ (list.foldl (scanConstraint m a set rsv) c).kept, Between c.state.size li' := by
  induction list generalizing c with
  | nil => exact ⟨.refl h, hkept⟩
  | cons li list ih =>
    obtain ⟨hstep, hkept₁⟩ :=
      advances_scanConstraint hfits h hset hrsv (hlist li List.mem_cons_self) hkept
    have hsize := hstep.grows.size
    obtain ⟨hrest, hkept'⟩ := ih (hsize.symm ▸ hfits) hstep.inRange (hsize.symm ▸ hset)
      (hsize.symm ▸ hrsv) (fun li' hli' => hsize.symm ▸ hlist li' (List.mem_cons_of_mem li hli'))
      (hsize.symm ▸ hkept₁)
    exact ⟨hstep.trans hrest, hsize ▸ hkept'⟩

/-- A new candidate uses up one of the edges. -/
theorem advances_candidate {rep : Nat} (h : InRange s) (hcurr : curr < s.size)
    (hrep : rep < s.size) : Advances s (candidate curr rep s) := by
  unfold candidate
  split
  · rename_i hnew
    have hchecked : ∀ e ∈ insert (curr, rep) s.edgesChecked, e.1 < s.size ∧ e.2 < s.size := by
      intro e he
      obtain rfl | he := Finset.mem_insert.mp he
      · exact ⟨hcurr, hrep⟩
      · exact h.checked e he
    have hcard : (insert (curr, rep) s.edgesChecked).card ≤ s.size ^ 2 := by
      have hsubset : insert (curr, rep) s.edgesChecked ⊆
          Finset.range s.size ×ˢ Finset.range s.size := fun e he =>
        Finset.mem_product.mpr ⟨Finset.mem_range.mpr (hchecked e he).1,
          Finset.mem_range.mpr (hchecked e he).2⟩
      calc (insert (curr, rep) s.edgesChecked).card
          ≤ (Finset.range s.size ×ˢ Finset.range s.size).card := Finset.card_le_card hsubset
        _ = s.size ^ 2 := by rw [Finset.card_product, Finset.card_range, sq]
    refine ⟨{ h with checked := hchecked, candidates := fun x hx => ?_ },
      .of_nodes rfl rfl rfl rfl rfl, ?_, by simp⟩
    · obtain hx | hx := List.mem_append.mp hx
      · exact h.candidates x hx
      · exact List.mem_singleton.mp hx ▸ hrep
    · have hcard' := Finset.card_insert_of_notMem hnew.1
      simp only [State.pending, State.size, List.length_append, List.length_singleton] at hcard ⊢
      omega
  · exact .refl h

theorem advances_spreadTo {rep : Nat} (h : InRange s) (hcurr : curr < s.size)
    (hrep : rep < s.size) (hset : ∀ x ∈ set, x < s.size) :
    Advances s (spreadTo curr set rep s) := by
  have hcandidate := advances_candidate h hcurr hrep
  have hsize := hcandidate.grows.size
  unfold spreadTo
  dsimp only
  split
  · exact hcandidate.trans
      (advances_unionPointsTo hcandidate.inRange (hsize.symm ▸ hrep) (hsize.symm ▸ hset))
  · exact hcandidate

theorem advances_spreadEdge {p : Spread W} {dest : Nat} (h : InRange p.state)
    (hcurr : curr < p.state.size) (hset : ∀ x ∈ set, x < p.state.size)
    (hdest : dest < p.state.size) (hnew : ∀ e ∈ p.newEdges, e < p.state.size) :
    Advances p.state (spreadEdge curr set p dest).state ∧
      ∀ e ∈ (spreadEdge curr set p dest).newEdges, e < p.state.size := by
  have hfound := advances_findNode h dest
  have hsize := hfound.grows.size
  have hrep := findNode_lt (s := p.state) hdest
  have hspread := @advances_spreadTo _ _ curr set _ hfound.inRange (hsize.symm ▸ hcurr)
    (hsize.symm ▸ hrep) (hsize.symm ▸ hset)
  unfold spreadEdge
  dsimp only
  split
  · exact ⟨hfound, hnew⟩
  · split
    · refine ⟨hfound.trans hspread, fun e he => ?_⟩
      obtain rfl | he := Finset.mem_insert.mp he
      · exact hrep
      · exact hnew e he
    · exact ⟨hfound.trans hspread, hnew⟩

theorem advances_spreadEdges {p : Spread W} {edges : List Nat} (h : InRange p.state)
    (hcurr : curr < p.state.size) (hset : ∀ x ∈ set, x < p.state.size)
    (hedges : ∀ e ∈ edges, e < p.state.size) (hnew : ∀ e ∈ p.newEdges, e < p.state.size) :
    Advances p.state (edges.foldl (spreadEdge curr set) p).state ∧
      ∀ e ∈ (edges.foldl (spreadEdge curr set) p).newEdges, e < p.state.size := by
  induction edges generalizing p with
  | nil => exact ⟨.refl h, hnew⟩
  | cons e edges ih =>
    obtain ⟨hstep, hnew₁⟩ :=
      advances_spreadEdge h hcurr hset (hedges e List.mem_cons_self) hnew
    have hsize := hstep.grows.size
    obtain ⟨hrest, hnew'⟩ := ih hstep.inRange (hsize.symm ▸ hcurr) (hsize.symm ▸ hset)
      (fun e' he' => hsize.symm ▸ hedges e' (List.mem_cons_of_mem e he')) (hsize.symm ▸ hnew₁)
    exact ⟨hstep.trans hrest, hsize ▸ hnew'⟩

theorem advances_propagate (hfits : Fits m a s.size) (h : InRange s) (hcurr : curr < s.size)
    (hset : ∀ x ∈ set, x < s.size) (hrsv : ∀ nodes ∈ rsv, ∀ n ∈ nodes, n < s.size) :
    Advances s (propagate m a curr set rsv s) := by
  unfold propagate
  dsimp only
  generalize hc : (s.graphNodes curr).constraints.foldl (scanConstraint m a set rsv)
    { state := s } = c
  obtain ⟨hscan, hkept⟩ := advances_scanConstraints (c := { state := s }) hfits h hset hrsv
    (h.nodes curr).constraints (by simp)
  rw [hc] at hscan hkept
  have hsize := hscan.grows.size
  have hmodify : Advances c.state (c.state.modify curr fun node =>
      { node with constraints := c.kept }) :=
    advances_modify hscan.inRange
      { hscan.inRange.nodes curr with constraints := hsize.symm ▸ hkept }
      ⟨Finset.Subset.refl _, Finset.Subset.refl _⟩
  have hbefore := hscan.trans hmodify
  generalize (c.state.modify curr fun node => { node with constraints := c.kept }) = t at hbefore
  have hsize := hbefore.grows.size
  generalize hp : (t.graphNodes curr).edges.sort.foldl (spreadEdge curr set) { state := t } = p
  obtain ⟨hspread, hnew⟩ := @advances_spreadEdges _ curr set { state := t }
    (t.graphNodes curr).edges.sort hbefore.inRange (hsize.symm ▸ hcurr) (hsize.symm ▸ hset)
    (fun e he => (hbefore.inRange.nodes curr).edges e ((Finset.mem_sort _).mp he)) (by simp)
  rw [hp] at hspread hnew
  have hsize' := hspread.grows.size
  refine hbefore.trans (hspread.trans (advances_modify hspread.inRange
    { hspread.inRange.nodes curr with edges := fun e he => ?_ }
    ⟨Finset.Subset.refl _, Finset.Subset.refl _⟩))
  obtain he | he := Finset.mem_union.mp he
  · exact (hspread.inRange.nodes curr).edges e (Finset.mem_sdiff.mp he).1
  · exact hsize'.symm ▸ hnew e he

theorem advances_collapse {members : List Nat} {x x' : Collapse}
    (h : collapse members x s = some (x', s')) (hs : InRange s)
    (hmembers : ∀ y ∈ members, y < s.size) (hrep : x.rep < s.size)
    (hspecial : ∀ n ∈ x.special, n < s.size) :
    Advances s s' ∧ x'.rep < s.size ∧ ∀ n ∈ x'.special, n < s.size := by
  induction members generalizing x s with
  | nil =>
    obtain ⟨rfl, rfl⟩ : x = x' ∧ s = s' := by simpa [collapse] using h
    exact ⟨.refl hs, hrep, hspecial⟩
  | cons y members ih =>
    have hfound := advances_findNode hs y
    have hsize := hfound.grows.size
    have hnode := findNode_lt (s := s) (hmembers y List.mem_cons_self)
    have hrest := fun z hz => hmembers z (List.mem_cons_of_mem y hz)
    rw [collapse] at h
    dsimp only at h
    split at h
    · have hspecial₁ : ∀ n ∈ x.special ++ [(findNode y s).1], n < s.size := by
        intro n hn
        obtain hn | hn := List.mem_append.mp hn
        · exact hspecial n hn
        · exact List.mem_singleton.mp hn ▸ hnode
      obtain ⟨hadvances, hrep', hspecial'⟩ := ih h hfound.inRange (hsize.symm ▸ hrest)
        (hsize.symm ▸ hrep) (hsize.symm ▸ hspecial₁)
      exact ⟨hfound.trans hadvances, hsize ▸ hrep', hsize ▸ hspecial'⟩
    · rw [Option.bind_eq_bind, Option.bind_eq_some_iff] at h
      obtain ⟨⟨r, s₁⟩, hunite, h⟩ := h
      have hunited := hfound.trans (advances_unite hunite hfound.inRange)
      have hsize₁ := hunited.grows.size
      obtain ⟨hadvances, hrep', hspecial'⟩ := ih h hunited.inRange (hsize₁.symm ▸ hrest)
        (unite_lt hunite).2 (hsize₁.symm ▸ hspecial)
      exact ⟨hunited.trans hadvances, hsize₁ ▸ hrep', hsize₁ ▸ hspecial'⟩

end Propagation

end Growth

end Lockout.Andersens.Solver
