import Lockout.Andersens.Unification

/-! # The cycle search keeps the graph

`QueryNode` unites nodes and replaces edges by edges to their representatives. Whatever it
finds, every path of the graph is still there, and what it resets is on a work list. -/

namespace Lockout.Andersens.Solver
open Lockout.Andersens.Objects Lockout.Andersens.Progress
open Lockout.Andersens.Progress.View

section Queries
variable {W : WorkList} {s s' s'' : State W} {q q' : Query W} {i n node rep : Nat}
  {links : Links}

/-- Nothing is owed. -/
def Nobody (_ : Nat) : Prop := False

/-- The special nodes never come on the stack. -/
structure Searchable (s : State W) : Prop where
  proper : s.view.Proper
  stack : ∀ x ∈ s.sccStack, numberSpecialNodes ≤ x

/-- What a part of the search does. -/
structure Searched (s s' : State W) : Prop where
  step : ∀ links, Step Nobody links s.view s'.view
  stack : ∀ x ∈ s'.sccStack, numberSpecialNodes ≤ x

theorem Searched.searchable (h : Searched s s') : Searchable s' :=
  ⟨(h.step noLinks).proper, h.stack⟩

theorem Searched.of_view (hview : s'.view = s.view) (hstack : s'.sccStack = s.sccStack)
    (hs : Searchable s) : Searched s s' where
  step links := by
    rw [hview]
    exact .refl hs.proper
  stack := hstack ▸ hs.stack

theorem Searched.trans (h : Searched s s') (h' : Searched s' s'') : Searched s s'' where
  step links := (h.step links).trans (h'.step links)
  stack := h'.stack

theorem step_insertNext {owed : Nat → Prop} (hproper : s.view.Proper) :
    Step owed links s.view (s.insertNext i).view ∧ (s.insertNext i).view.Queued i := by
  have hview : (s.insertNext i).view =
      { s.view with waiting := s.element i ::ₘ s.view.waiting } := by
    simp only [State.view, State.insertNext, W.elems_push, Multiset.add_cons]
  rw [hview]
  exact ⟨step_waiting hproper (Multiset.subset_cons _ _), Multiset.mem_cons_self _ _⟩

theorem uniteStack_spec {ourDFS r : Nat} {stack : List Nat} {merged merged' : Bool}
    (h : uniteStack ourDFS stack node merged s = some (r, merged', s')) (hproper : s.view.Proper)
    (hrep : s.view.rep node = node) (hnode : numberSpecialNodes ≤ node)
    (hstack : ∀ x ∈ stack, numberSpecialNodes ≤ x) :
    (∀ links, Step (· = node) links s.view s'.view) ∧ s'.view.rep node = r ∧
      (merged' = true ∨ merged = false ∧ s'.view = s.view) ∧
      ∀ x ∈ s'.sccStack, numberSpecialNodes ≤ x := by
  induction stack generalizing node merged s with
  | nil =>
    obtain ⟨rfl, rfl, rfl⟩ : node = r ∧ merged = merged' ∧ { s with sccStack := [] } = s' := by
      simpa [uniteStack] using h
    refine ⟨fun _ => .refl hproper, hrep, ?_, by simp⟩
    cases merged
    · exact .inr ⟨rfl, rfl⟩
    · exact .inl rfl
  | cons top stack ih =>
    rw [uniteStack] at h
    split at h
    · rw [Option.bind_eq_bind, Option.bind_eq_some_iff] at h
      obtain ⟨⟨r₁, s₁⟩, hunite, h⟩ := h
      have hunited := unite_spec hunite
      have hstep₁ := hunited.step hproper hnode (hstack top List.mem_cons_self)
      have hproper₁ := (hstep₁ noLinks).proper
      have hspecial : numberSpecialNodes ≤ r₁ := by
        rw [← hunited.left]
        exact (hstep₁ noLinks).ext.le (by rwa [hrep])
      have hrep₁ : s₁.view.rep r₁ = r₁ := by
        rw [← hunited.left, hproper₁.rep_rep]
      obtain ⟨hstep, hr, hmerged, hs'⟩ := ih h hproper₁ hrep₁ hspecial
        fun x hx => hstack x (List.mem_cons_of_mem top hx)
      have hnode' : s'.view.rep node = s'.view.rep r₁ :=
        (hstep noLinks).ext.rep (hunited.left.trans hrep₁.symm)
      refine ⟨fun links => (hstep₁ links).trans ((hstep links).mono fun ho => ?_),
        hnode'.trans hr, .inl (hmerged.resolve_right nofun), hs'⟩
      exact .owed rfl (by rw [ho]; exact hnode')
    · obtain ⟨rfl, rfl, rfl⟩ : node = r ∧ merged = merged' ∧
          { s with sccStack := top :: stack } = s' := by
        simpa using h
      refine ⟨fun _ => .refl hproper, hrep, ?_, hstack⟩
      cases merged
      · exact .inr ⟨rfl, rfl⟩
      · exact .inl rfl

/-- When the edges are replaced and the stack is popped, what was united is on the work
list. -/
theorem closeQuery_spec {ourDFS : Nat} {b : Bool} (h : closeQuery node ourDFS q = some (b, s'))
    (hs : Searchable q.state) (hnode : numberSpecialNodes ≤ node)
    (herase : ∀ d ∈ q.toErase, ∃ e ∈ q.newEdges, q.state.view.rep e = q.state.view.rep d)
    (hnew : ∀ e ∈ q.newEdges,
      numberSpecialNodes ≤ q.state.view.rep e ∧ q.state.view.Connected node e) :
    Searched q.state s' := by
  unfold closeQuery at h
  split at h
  swap
  · simp at h
  rename_i hisRep
  have hrep := isRep_iff.mp hisRep
  have hconnected : ∀ e ∈ q.newEdges, q.state.view.rep e = node ∨
      ∃ e' ∈ (q.state.view.nodes node).edges, q.state.view.rep e' = q.state.view.rep e := by
    intro e he
    obtain heq | ⟨e', he', heq⟩ := (hnew e he).2
    · exact .inl (heq.symm.trans hrep)
    · exact .inr ⟨e', hrep ▸ he', heq⟩
  have himproves : ∀ links, Improves q.state.view links node
      { q.state.view.nodes node with
        edges := (q.state.view.nodes node).edges \ q.toErase ∪ q.newEdges }
      q.state.view.waiting := by
    intro links
    refine improves_edges hrep (fun e he => ?_) (fun e he => ?_)
    · by_cases hd : e ∈ q.toErase
      · obtain ⟨e', he', heq⟩ := herase e hd
        exact .inr ⟨e', Finset.mem_union_right _ he', heq⟩
      · exact .inr ⟨e, Finset.mem_union_left _ (Finset.mem_sdiff.mpr ⟨he, hd⟩), rfl⟩
    · obtain he | he := Finset.mem_union.mp he
      · have he := (Finset.mem_sdiff.mp he).1
        exact ⟨hs.proper.edges he, .inr (.inl ⟨e, he, rfl⟩)⟩
      · exact ⟨.inl (hnew e he).1, (hconnected e he).imp_right .inl⟩
  have hstep : ∀ {owed : Nat → Prop} links, Step owed links q.state.view
      (q.state.modify node fun n => { n with edges := n.edges \ q.toErase ∪ q.newEdges }).view :=
    fun links => (himproves links).step hs.proper
  have hrep₁ : (q.state.modify node fun n =>
      { n with edges := n.edges \ q.toErase ∪ q.newEdges }).view.rep node = node := hrep
  have hstack₁ : ∀ x ∈ (q.state.modify node fun n =>
      { n with edges := n.edges \ q.toErase ∪ q.newEdges }).sccStack,
      numberSpecialNodes ≤ x := hs.stack
  generalize q.state.modify node _ = s₁ at h hstep hrep₁ hstack₁
  have hproper₁ : s₁.view.Proper := (@hstep Nobody noLinks).proper
  dsimp only at h
  split at h
  · rw [Option.bind_eq_bind, Option.bind_eq_some_iff] at h
    obtain ⟨⟨r, merged, s₂⟩, hunite, h⟩ := h
    obtain ⟨hunited, hr, hmerged, hstack₂⟩ :=
      uniteStack_spec hunite hproper₁ hrep₁ hnode hstack₁
    have hproper₂ := (hunited noLinks).proper
    obtain rfl := congrArg Prod.snd (Option.some.inj h)
    cases merged with
    | false =>
      obtain ⟨-, hview⟩ := hmerged.resolve_left nofun
      refine ⟨fun links => (hstep links).trans ?_, hstack₂⟩
      change Step Nobody links s₁.view s₂.view
      rw [hview]
      exact .refl hproper₁
    | true =>
      -- The united node is on the next work list, so that it is not owed any more.
      refine ⟨fun links => ?_, hstack₂⟩
      obtain ⟨hinsert, hqueued⟩ := @step_insertNext _ { s₂ with
        tarjan2Deleted := Function.update s₂.tarjan2Deleted r true } r links
        (· = node) hproper₂
      refine (hstep links).trans (((hunited links).trans hinsert).mono fun {o} ho => .queued ?_)
      have hro : s₂.view.rep o = r := by rw [ho]; exact hr
      exact (congrArg _ hro).mpr hqueued
  · obtain rfl := congrArg Prod.snd (Option.some.inj h)
    refine ⟨hstep, fun x hx => ?_⟩
    obtain rfl | hx := List.mem_cons.mp hx
    · exact hnode
    · exact hstack₁ x hx

theorem lower_view : (lower node rep s).view = s.view ∧ (lower node rep s).sccStack = s.sccStack := by
  unfold lower
  split <;> exact ⟨rfl, rfl⟩

section Recursion
variable {query : Nat → State W → Option (Bool × State W)}
  (hquery : ∀ {n s b s'}, query n s = some (b, s') → Searchable s → numberSpecialNodes ≤ n →
    Searched s s')
include hquery

theorem visit_spec {changed changed' : Bool} {r : Nat}
    (h : visit query node rep changed s = some (r, changed', s')) (hs : Searchable s)
    (hrep : s.view.rep rep = rep) (hspecial : numberSpecialNodes ≤ rep) :
    Searched s s' ∧ s'.view.rep rep = r := by
  have hsame : ∀ {t : State W}, t.view = s.view → t.sccStack = s.sccStack → t = s' → rep = r →
      Searched s s' ∧ s'.view.rep rep = r := by
    rintro t hview hstack rfl hr
    exact ⟨.of_view hview hstack hs, by rw [hview]; exact hrep.trans hr⟩
  unfold visit at h
  split at h
  · obtain ⟨hr, -, rfl⟩ := by simpa using h
    exact hsame rfl rfl rfl hr
  · split at h
    · rw [Option.bind_eq_bind, Option.bind_eq_some_iff] at h
      obtain ⟨⟨below, s₁⟩, hbelow, h⟩ := h
      have hsearched := hquery hbelow hs hspecial
      have hr : (findNode rep s₁).1 = r := congrArg Prod.fst (Option.some.inj h)
      obtain rfl : lower node (findNode rep s₁).1 (findNode rep s₁).2 = s' :=
        congrArg (fun x => x.2.2) (Option.some.inj h)
      have hview : (lower node (findNode rep s₁).1 (findNode rep s₁).2).view = s₁.view :=
        lower_view.1.trans view_findNode
      refine ⟨hsearched.trans (.of_view hview lower_view.2 hsearched.searchable), ?_⟩
      rw [hview, ← hr, findNode_fst]
    · obtain ⟨hr, -, rfl⟩ := by simpa using h
      exact hsame lower_view.1 lower_view.2 rfl hr

/-- The loop over the edges of `node`, between two of them. -/
structure Scanned (s : State W) (node : Nat) (q : Query W) : Prop where
  searched : Searched s q.state
  toErase : ∀ d ∈ q.toErase, ∃ e ∈ q.newEdges, q.state.view.rep e = q.state.view.rep d
  newEdges : ∀ e ∈ q.newEdges,
    numberSpecialNodes ≤ q.state.view.rep e ∧ q.state.view.Connected node e

omit hquery in
theorem Scanned.step {t : State W} (h : Scanned s node q) (ht : Searched q.state t) :
    Scanned s node { q with state := t } where
  searched := h.searched.trans ht
  toErase d hd := by
    obtain ⟨e, he, heq⟩ := h.toErase d hd
    exact ⟨e, he, (ht.step noLinks).ext.rep heq⟩
  newEdges e he := (h.newEdges e he).imp (ht.step noLinks).ext.le
    (ht.step noLinks).ext.connected

theorem queryEdge_spec {dest : Nat} (h : queryEdge query node q dest = some q')
    (hq : Scanned s node q) (hdest : numberSpecialNodes ≤ s.view.rep dest)
    (hconnected : s.view.Connected node dest) : Scanned s node q' := by
  have hproper : q.state.view.Proper := hq.searched.searchable.proper
  have hfind : Searched q.state (findNode dest q.state).2 :=
    .of_view view_findNode rfl hq.searched.searchable
  have hspecial : numberSpecialNodes ≤ (findNode dest q.state).1 := by
    rw [findNode_fst]
    exact (hq.searched.step noLinks).ext.le hdest
  unfold queryEdge at h
  dsimp only at h
  split at h
  · rename_i hseen
    obtain rfl := Option.some.inj h
    refine { hq.step hfind with toErase := fun d hd => ?_ }
    obtain rfl | hd := Finset.mem_insert.mp hd
    · refine ⟨_, hseen.2, ?_⟩
      rw [view_findNode, findNode_fst, hproper.rep_rep]
    · exact (hq.step hfind).toErase d hd
  · rw [Option.bind_eq_bind, Option.bind_eq_some_iff] at h
    obtain ⟨⟨r, changed, s₁⟩, hvisit, h⟩ := h
    have hrep : (findNode dest q.state).2.view.rep (findNode dest q.state).1 =
        (findNode dest q.state).1 := by
      rw [view_findNode, findNode_fst, hproper.rep_rep]
    obtain ⟨hvisited, hr⟩ := visit_spec hquery hvisit hfind.searchable hrep hspecial
    have hnext := hq.step (hfind.trans hvisited)
    have hproper₁ := hvisited.searchable.proper
    have hdest₁ : s₁.view.rep r = s₁.view.rep dest := by
      rw [← hr, hproper₁.rep_rep]
      refine (hvisited.step noLinks).ext.rep ?_
      rw [view_findNode, findNode_fst, hproper.rep_rep]
    dsimp only at h
    split at h
    · obtain rfl := Option.some.inj h
      refine ⟨hnext.searched, fun d hd => ?_, fun e he => ?_⟩
      · obtain rfl | hd := Finset.mem_insert.mp hd
        · exact ⟨r, Finset.mem_insert_self _ _, hdest₁⟩
        · obtain ⟨e, he, heq⟩ := hnext.toErase d hd
          exact ⟨e, Finset.mem_insert_of_mem he, heq⟩
      · obtain rfl | he := Finset.mem_insert.mp he
        · refine ⟨?_, ?_⟩
          · change numberSpecialNodes ≤ s₁.view.rep e
            rw [hdest₁]
            exact (hnext.searched.step noLinks).ext.le hdest
          · exact ((hnext.searched.step noLinks).ext.connected hconnected).congr_right
              hdest₁.symm
        · exact hnext.newEdges e he
    · obtain rfl := Option.some.inj h
      exact ⟨hnext.searched, hnext.toErase, hnext.newEdges⟩

end Recursion

theorem foldlM_queryEdge {query : Nat → State W → Option (Bool × State W)}
    (hquery : ∀ {n s b s'}, query n s = some (b, s') → Searchable s → numberSpecialNodes ≤ n →
      Searched s s') {edges : List Nat}
    (h : edges.foldlM (queryEdge query node) q = some q') (hq : Scanned s node q)
    (hedges : ∀ e ∈ edges, numberSpecialNodes ≤ s.view.rep e ∧ s.view.Connected node e) :
    Scanned s node q' := by
  induction edges generalizing q with
  | nil =>
    obtain rfl := Option.some.inj h
    exact hq
  | cons e edges ih =>
    rw [List.foldlM_cons, Option.bind_eq_bind, Option.bind_eq_some_iff] at h
    obtain ⟨q₁, he, h⟩ := h
    obtain ⟨hspecial, hconnected⟩ := hedges e List.mem_cons_self
    exact ih h (queryEdge_spec hquery he hq hspecial hconnected)
      fun e' he' => hedges e' (List.mem_cons_of_mem e he')

theorem queryNode_spec {fuel : Nat} {b : Bool} (h : queryNode fuel node s = some (b, s'))
    (hs : Searchable s) (hnode : numberSpecialNodes ≤ node) : Searched s s' := by
  induction fuel generalizing node s b s' with
  | zero => simp [queryNode] at h
  | succ fuel ih =>
    rw [queryNode] at h
    split at h
    swap
    · simp at h
    rename_i hisRep
    have hrep := isRep_iff.mp hisRep
    rw [Option.bind_eq_bind, Option.bind_eq_some_iff] at h
    obtain ⟨q, hloop, h⟩ := h
    split at h
    swap
    · simp at h
    have hscanned : Scanned s node q := by
      refine foldlM_queryEdge ih hloop ⟨.of_view rfl rfl hs, by simp, by simp⟩ fun e he => ?_
      have he : e ∈ (s.graphNodes node).edges := (Finset.mem_sort _).mp he
      refine ⟨(hs.proper.edges he).elim id fun heq => ?_, .inr ⟨e, hrep.symm ▸ he, rfl⟩⟩
      rwa [heq]
    exact hscanned.searched.trans (closeQuery_spec h hscanned.searched.searchable hnode
      hscanned.toErase hscanned.newEdges)

theorem queryCandidates_spec {nodes : List Nat} (h : queryCandidates nodes s = some s')
    (hs : Searchable s) (hnodes : ∀ n ∈ nodes, numberSpecialNodes ≤ n) : Searched s s' := by
  induction nodes generalizing s with
  | nil =>
    obtain rfl := Option.some.inj h
    exact .of_view rfl rfl hs
  | cons n nodes ih =>
    have hrest := fun x hx => hnodes x (List.mem_cons_of_mem n hx)
    rw [queryCandidates] at h
    split at h
    · rw [Option.bind_eq_bind, Option.bind_eq_some_iff] at h
      obtain ⟨⟨b, s₁⟩, hquery, h⟩ := h
      have hsearched := queryNode_spec hquery hs (hnodes n List.mem_cons_self)
      exact hsearched.trans (ih h hsearched.searchable hrest)
    · exact ih h hs hrest

/-- All candidates of one iteration. -/
theorem detectCycles_spec (h : detectCycles s = some s') (hs : Searchable s)
    (hcandidates : ∀ n ∈ s.tarjanWL, numberSpecialNodes ≤ n) : Searched s s' := by
  unfold detectCycles at h
  split at h
  · obtain rfl := Option.some.inj h
    exact .of_view rfl rfl hs
  · have hsearched := queryCandidates_spec h ⟨hs.proper, hs.stack⟩ hcandidates
    exact ⟨hsearched.step, hsearched.stack⟩

theorem tarjanWL_detectCycles (h : detectCycles s = some s') : s'.tarjanWL = [] := by
  have hcandidates : ∀ {nodes : List Nat} {t : State W}, queryCandidates nodes t = some s' →
      s'.tarjanWL = [] := by
    intro nodes
    induction nodes with
    | nil =>
      intro t ht
      obtain rfl := Option.some.inj ht
      rfl
    | cons n nodes ih =>
      intro t ht
      rw [queryCandidates] at ht
      split at ht
      · rw [Option.bind_eq_bind, Option.bind_eq_some_iff] at ht
        obtain ⟨_, _, ht⟩ := ht
        exact ih ht
      · exact ih ht
  unfold detectCycles at h
  split at h
  · rename_i hempty
    obtain rfl := Option.some.inj h
    exact hempty
  · exact hcandidates h

end Queries

end Lockout.Andersens.Solver
