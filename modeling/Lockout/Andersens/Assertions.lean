import Lockout.Andersens.Solution

/-! # Assertions that never fail

As long as `SDT` is empty, the solver unites representatives only: the nodes on the path of the
cycle search and on its stack are representatives, and different ones, and the stack is empty
after every search. With entries in `SDT`, a union may take another away from under the
search. -/

namespace Lockout.Andersens.Solver
open Lockout.Andersens.Objects Lockout.Andersens.Slots Lockout.Andersens.Progress

section Assertions
variable {W : WorkList} {m : Module} {a : Graph} {s s' : State W} {i j node : Nat}

/-- Two representatives are united, and nothing else. -/
theorem unite_total (hsdt : ∀ k, s.sdt k = none) (hi : i < s.size) (hj : j < s.size)
    (hrep_i : s.view.rep i = i) (hrep_j : s.view.rep j = j) :
    ∃ r s', unite i j s = some (r, s') ∧ (r = i ∨ r = j) ∧ s'.frame = s.frame ∧
      (∀ k, s'.view.rep k = if s.view.rep k = i ∨ s.view.rep k = j then r else s.view.rep k) ∧
      ∀ k, k ≠ i → k ≠ j → s'.graphNodes k = s.graphNodes k := by
  obtain ⟨n, hn⟩ : ∃ n, s.size = n + 1 := ⟨s.size - 1, by omega⟩
  obtain ⟨reps, hreps⟩ : ∃ reps, linkReps s.reps i j = some reps := by
    unfold linkReps
    rw [dif_pos ⟨⟨hi, hj⟩, Batteries.UnionFind.rootD_eq_self.mp hrep_i,
      Batteries.UnionFind.rootD_eq_self.mp hrep_j⟩]
    exact ⟨_, rfl⟩
  obtain ⟨first, second, hrank⟩ : ∃ first second, byRank s.reps i j = (first, second) :=
    ⟨_, _, rfl⟩
  have hends := byRank_cases hrank
  unfold unite
  rw [hn, uniteNodes, hreps]
  dsimp only [Option.bind_eq_bind, Option.bind_some]
  by_cases hne : i = j
  · rw [if_pos hne]
    refine ⟨i, s, rfl, .inl rfl, rfl, fun k => ?_, fun _ _ _ => rfl⟩
    split
    · rename_i hk
      exact hk.elim id (·.trans hne.symm)
    · rfl
  · rw [if_neg hne, hrank]
    dsimp only
    have hview := view_mergeNodes hreps hne hrank
    have hframe : (mergeNodes first second { s with reps }).frame = s.frame :=
      Prod.ext (linkReps_spec hreps).2.2.2 rfl
    have hnone : (mergeNodes first second { s with reps }).sdt second = none := hsdt second
    rw [hnone]
    refine ⟨first, _, rfl, hends.imp And.left And.left, hframe, fun k => ?_, fun k hki hkj => ?_⟩
    swap
    · have hfirst : k ≠ first := hends.elim (fun h => h.1 ▸ hki) fun h => h.1 ▸ hkj
      have hsecond : k ≠ second := hends.elim (fun h => h.2 ▸ hkj) fun h => h.2 ▸ hki
      exact (Function.update_of_ne hfirst ..).trans (Function.update_of_ne hsecond ..)
    rw [hview]
    have hmerge : (merge s.view first second).rep k =
        if s.view.rep k = second then first else s.view.rep k := rfl
    rw [hmerge]
    by_cases hsecond : s.view.rep k = second
    · rw [if_pos hsecond, if_pos (hends.elim (fun h => .inr (hsecond.trans h.2))
        fun h => .inl (hsecond.trans h.2))]
    · rw [if_neg hsecond]
      split
      · rename_i hk
        obtain ⟨hfirst, hsecond'⟩ | ⟨hfirst, hsecond'⟩ := hends
        · exact (hk.resolve_right (hsecond' ▸ hsecond)).trans hfirst.symm
        · exact (hk.resolve_left (hsecond' ▸ hsecond)).trans hfirst.symm
      · rfl

/-! ## The cycle search -/

/-- The search that began with number `base`, with unfinished calls for the nodes on `path`. -/
structure Searching (base : Nat) (path : Nat → Prop) (s : State W) : Prop where
  sdt : ∀ i, s.sdt i = none
  onPath : ∀ {p}, path p → s.view.rep p = p ∧ p ∉ s.sccStack
  stack : ∀ x ∈ s.sccStack, s.view.rep x = x
  nodup : s.sccStack.Nodup
  numbered : ∀ {p}, path p ∨ p ∈ s.sccStack → base ≤ s.tarjan2DFS p
  /-- A representative that has been visited is finished, or still there. -/
  visited : ∀ {i}, s.tarjan2DFS i ≠ 0 → s.view.rep i = i →
    s.tarjan2Deleted i = true ∨ path i ∨ i ∈ s.sccStack
  positive : 0 < base
  number : base ≤ s.dfsNumber + 1

/-- The nodes that have not been visited. -/
def State.unvisited (s : State W) : Finset Nat :=
  (Finset.range s.size).filter fun i => s.tarjan2DFS i = 0

theorem Searching.congr {base : Nat} {path : Nat → Prop} (h : Searching base path s)
    (hrep : s'.view.rep = s.view.rep) (hsdt : s'.sdt = s.sdt)
    (hframe : s'.sccStack = s.sccStack ∧ s'.tarjan2DFS = s.tarjan2DFS ∧
      s'.tarjan2Deleted = s.tarjan2Deleted ∧ s'.dfsNumber = s.dfsNumber) :
    Searching base path s' := by
  obtain ⟨hstack, hdfs, hdeleted, hnumber⟩ := hframe
  constructor
  · rw [hsdt]
    exact h.sdt
  · rw [hrep, hstack]
    exact h.onPath
  · rw [hrep, hstack]
    exact h.stack
  · rw [hstack]
    exact h.nodup
  · rw [hdfs, hstack]
    exact h.numbered
  · rw [hdfs, hrep, hdeleted, hstack]
    exact h.visited
  · exact h.positive
  · rw [hnumber]
    exact h.number

theorem searching_findNode {base : Nat} {path : Nat → Prop} (h : Searching base path s) :
    Searching base path (findNode i s).2 :=
  h.congr (congrArg View.rep view_findNode) rfl ⟨rfl, rfl, rfl, rfl⟩

/-- After a union with the top of the stack, the node that results is the current one. -/
theorem searching_unite {base r top : Nat} {path : Nat → Prop} {stack : List Nat}
    (h : Searching base (fun p => path p ∨ p = node) { s with sccStack := top :: stack })
    (hpath : ¬path node) (hr : r = node ∨ r = top) (hsdt : ∀ i, s'.sdt i = none)
    (hframe : s'.frame = s.frame) (hrep : ∀ k, s'.view.rep k =
      if s.view.rep k = node ∨ s.view.rep k = top then r else s.view.rep k) :
    Searching base (fun p => path p ∨ p = r) { s' with sccStack := stack } ∧ ¬path r := by
  have hdfs : s'.tarjan2DFS = s.tarjan2DFS := congrArg (fun f => f.2.tarjan2DFS) hframe
  have hdeleted : s'.tarjan2Deleted = s.tarjan2Deleted :=
    congrArg (fun f => f.2.tarjan2Deleted) hframe
  have hnumber : s'.dfsNumber = s.dfsNumber := congrArg (fun f => f.2.dfsNumber) hframe
  obtain ⟨hrep_node, hnode⟩ : s.view.rep node = node ∧ node ∉ top :: stack := h.onPath (.inr rfl)
  have hrep_top : s.view.rep top = top := h.stack top List.mem_cons_self
  have htop : top ∉ stack := (List.nodup_cons.mp h.nodup).1
  -- What the invariant says about each of the two, it says about the one that stays.
  obtain ⟨hpath_r, hstack_r, hbase_r⟩ : ¬path r ∧ r ∉ stack ∧ base ≤ s.tarjan2DFS r := by
    obtain heq | heq := hr
    · rw [heq]
      exact ⟨hpath, fun hmem => hnode (List.mem_cons_of_mem top hmem), h.numbered (.inl (.inr rfl))⟩
    · rw [heq]
      exact ⟨fun hp => (h.onPath (.inl hp)).2 List.mem_cons_self, htop,
        h.numbered (.inr List.mem_cons_self)⟩
  have hrep_r : s'.view.rep r = r := by
    rw [hrep]
    exact if_pos (hr.imp (fun heq => by rw [heq, hrep_node]) fun heq => by rw [heq, hrep_top])
  -- A representative that is neither of the two still is one.
  have hother : ∀ {k}, s.view.rep k = k → k ≠ node → k ≠ top → s'.view.rep k = k := by
    intro k hk hne hne'
    rw [hrep, if_neg (by rw [hk]; exact not_or.mpr ⟨hne, hne'⟩), hk]
  refine ⟨⟨hsdt, fun {p} hp => ?_, fun x hx => ?_, (List.nodup_cons.mp h.nodup).2,
    fun {p} hp => ?_, fun {k} hk hrep_k => ?_, h.positive, ?_⟩, hpath_r⟩
  · obtain hp | rfl := hp
    · obtain ⟨hrep_p, hmem⟩ := h.onPath (.inl hp)
      have hmem : p ∉ top :: stack := hmem
      refine ⟨hother hrep_p (fun heq => hpath (heq ▸ hp)) fun heq => hmem ?_,
        fun hx => hmem (List.mem_cons_of_mem top hx)⟩
      rw [heq]
      exact List.mem_cons_self
    · exact ⟨hrep_r, hstack_r⟩
  · have hx : x ∈ stack := hx
    refine hother (h.stack x (List.mem_cons_of_mem top hx)) (fun heq => hnode ?_)
      fun heq => htop (heq ▸ hx)
    exact heq ▸ List.mem_cons_of_mem top hx
  · change base ≤ s'.tarjan2DFS p
    rw [hdfs]
    obtain (hp | rfl) | hp := hp
    · exact h.numbered (.inl (.inl hp))
    · exact hbase_r
    · exact h.numbered (.inr (List.mem_cons_of_mem top hp))
  · have hrep_k : s'.view.rep k = k := hrep_k
    change s'.tarjan2DFS k ≠ 0 at hk
    change s'.tarjan2Deleted k = true ∨ _ ∨ k ∈ stack
    rw [hdfs] at hk
    rw [hdeleted]
    by_cases hkr : k = r
    · exact .inr (.inl (.inr hkr))
    · have hne : ¬(s.view.rep k = node ∨ s.view.rep k = top) := fun hboth =>
        hkr (hrep_k.symm.trans ((hrep k).trans (if_pos hboth)))
      have hk' : s.view.rep k = k := by
        rw [hrep, if_neg hne] at hrep_k
        exact hrep_k
      rw [hk', not_or] at hne
      obtain hdel | (hp | hnode') | hmem := h.visited hk hk'
      · exact .inl hdel
      · exact .inr (.inl (.inl hp))
      · exact absurd hnode' hne.1
      · exact .inr (.inr ((List.mem_cons.mp hmem).resolve_left hne.2))
  · change base ≤ s'.dfsNumber + 1
    rw [hnumber]
    exact h.number

/-- The nodes of the component can be united. -/
theorem uniteStack_total {base ourDFS : Nat} {path : Nat → Prop} {stack : List Nat}
    {merged : Bool}
    (h : Searching base (fun p => path p ∨ p = node) { s with sccStack := stack })
    (hpath : ¬path node) (hnode : node < s.size) (hstack : ∀ x ∈ stack, x < s.size) :
    ∃ r merged' s', uniteStack ourDFS stack node merged s = some (r, merged', s') ∧
      Searching base (fun p => path p ∨ p = r) s' ∧ ¬path r ∧
      s'.tarjan2DFS = s.tarjan2DFS ∧ s'.dfsNumber = s.dfsNumber ∧
      (∃ f : Nat → Nat, ∀ k, s'.view.rep k = f (s.view.rep k)) ∧ s'.view.rep node = r ∧
      ((∀ x ∈ stack, ourDFS ≤ s.tarjan2DFS x) → s'.sccStack = []) ∧
      ∀ p, path p → s'.graphNodes p = s.graphNodes p := by
  induction stack generalizing node merged s with
  | nil =>
    exact ⟨node, merged, _, rfl, h, hpath, rfl, rfl, ⟨id, fun _ => rfl⟩, (h.onPath (.inr rfl)).1,
      fun _ => rfl, fun _ _ => rfl⟩
  | cons top stack ih =>
    rw [uniteStack]
    by_cases hle : ourDFS ≤ s.tarjan2DFS top
    · rw [if_pos hle]
      have hrep_node : s.view.rep node = node := (h.onPath (.inr rfl)).1
      have hrep_top : s.view.rep top = top := h.stack top List.mem_cons_self
      have hsdt : ∀ k, s.sdt k = none := h.sdt
      obtain ⟨r₁, s₁, hunite, hr₁, hframe, hrep, hnodes⟩ := unite_total hsdt hnode
        (hstack top List.mem_cons_self) hrep_node hrep_top
      have hdfs : s₁.tarjan2DFS = s.tarjan2DFS := congrArg (fun f => f.2.tarjan2DFS) hframe
      have hnumber : s₁.dfsNumber = s.dfsNumber := congrArg (fun f => f.2.dfsNumber) hframe
      have hsize : s₁.size = s.size := congrArg Prod.fst hframe
      obtain ⟨hsearching, hpath₁⟩ := searching_unite h hpath hr₁
        ((unite_spec hunite).grows.sdt hsdt) hframe hrep
      obtain ⟨r, merged', s', hrun, hs', hpath', hdfs', hnumber', ⟨f, hf⟩, hr, hempty, hnodes'⟩ :=
        @ih s₁ r₁ true hsearching hpath₁ (hsize.symm ▸ (unite_lt hunite).2)
          fun x hx => hsize.symm ▸ hstack x (List.mem_cons_of_mem top hx)
      have hnode₁ : s₁.view.rep node = r₁ := by
        rw [hrep, if_pos (.inl hrep_node)]
      have hr₁' : s₁.view.rep r₁ = r₁ := (hsearching.onPath (.inr rfl)).1
      refine ⟨r, merged', s', ?_, hs', hpath', hdfs'.trans hdfs, hnumber'.trans hnumber,
        ⟨fun k => f (if k = node ∨ k = top then r₁ else k), fun k => by rw [hf, hrep]⟩, ?_,
        fun hall => hempty fun x hx => ?_, fun p hp => ?_⟩
      · rw [hunite]
        exact hrun
      · rw [hf, hnode₁, ← hr₁', ← hf, hr]
      · rw [hdfs]
        exact hall x (List.mem_cons_of_mem top hx)
      · refine (hnodes' p hp).trans (hnodes p (fun heq => hpath (heq ▸ hp)) fun heq => ?_)
        exact (h.onPath (.inl hp)).2 (heq ▸ List.mem_cons_self)
    · rw [if_neg hle]
      exact ⟨node, merged, _, rfl, h, hpath, rfl, rfl, ⟨id, fun _ => rfl⟩,
        (h.onPath (.inr rfl)).1, fun hall => absurd (hall top List.mem_cons_self) hle,
        fun _ _ => rfl⟩

/-- What a part of the search leaves, while the call for `node` is not finished. -/
structure Continues (base : Nat) (path : Nat → Prop) (node : Nat) (s s' : State W) : Prop where
  searching : Searching base (fun p => path p ∨ p = node) s'
  kept : ∀ {i}, s.tarjan2DFS i ≠ 0 → i ≠ node → s'.tarjan2DFS i = s.tarjan2DFS i
  low : s'.tarjan2DFS node ≤ s.tarjan2DFS node
  number : s.dfsNumber ≤ s'.dfsNumber
  nodes : ∀ {p}, path p ∨ p = node → s'.graphNodes p = s.graphNodes p

/-- What a call for `node` leaves. -/
structure Queried (base : Nat) (path : Nat → Prop) (node : Nat) (s s' : State W) : Prop where
  searching : Searching base path s'
  kept : ∀ {i}, s.tarjan2DFS i ≠ 0 → s'.tarjan2DFS i = s.tarjan2DFS i
  low : base ≤ s'.tarjan2DFS (s'.view.rep node)
  number : s.dfsNumber ≤ s'.dfsNumber
  emptied : base = s.dfsNumber + 1 → s'.sccStack = []
  nodes : ∀ {p}, path p → s'.graphNodes p = s.graphNodes p

/-- The component of `r` is finished. -/
theorem searching_finish {base r : Nat} {path : Nat → Prop}
    (h : Searching base (fun p => path p ∨ p = r) s) : Searching base path { s with
      tarjan2Deleted := Function.update s.tarjan2Deleted r true } := by
  refine ⟨h.sdt, fun hp => h.onPath (.inl hp), h.stack, h.nodup,
    fun hp => h.numbered (hp.imp_left .inl), fun {k} hk hrep => ?_, h.positive, h.number⟩
  change Function.update s.tarjan2Deleted r true k = true ∨ path k ∨ k ∈ s.sccStack
  by_cases hkr : k = r
  · rw [hkr]
    exact .inl (Function.update_self ..)
  · rw [Function.update_of_ne hkr]
    obtain hdeleted | (hp | heq) | hmem := h.visited hk hrep
    · exact .inl hdeleted
    · exact .inr (.inl hp)
    · exact absurd heq hkr
    · exact .inr (.inr hmem)

/-- The node stays on the stack. -/
theorem searching_push {base : Nat} {path : Nat → Prop}
    (h : Searching base (fun p => path p ∨ p = node) s) (hpath : ¬path node) :
    Searching base path { s with sccStack := node :: s.sccStack } := by
  obtain ⟨hrep, hnotMem⟩ := h.onPath (.inr rfl)
  refine ⟨h.sdt, fun {p} hp => ⟨(h.onPath (.inl hp)).1, fun hmem => ?_⟩, fun x hx => ?_,
    List.nodup_cons.mpr ⟨hnotMem, h.nodup⟩, fun {p} hp => ?_, fun {k} hk hrep_k => ?_,
    h.positive, h.number⟩
  · obtain rfl | hmem := List.mem_cons.mp hmem
    · exact hpath hp
    · exact (h.onPath (.inl hp)).2 hmem
  · obtain rfl | hx := List.mem_cons.mp hx
    · exact hrep
    · exact h.stack x hx
  · obtain hp | hp := hp
    · exact h.numbered (.inl (.inl hp))
    · obtain rfl | hp := List.mem_cons.mp hp
      · exact h.numbered (.inl (.inr rfl))
      · exact h.numbered (.inr hp)
  · obtain hdeleted | (hp | rfl) | hmem := h.visited hk hrep_k
    · exact .inl hdeleted
    · exact .inr (.inl hp)
    · exact .inr (.inr List.mem_cons_self)
    · exact .inr (.inr (List.mem_cons_of_mem node hmem))

/-- The call for `node` ends: the node stays on the stack, or its component is finished. -/
theorem closeQuery_total {base ourDFS : Nat} {path : Nat → Prop} {q : Query W}
    (h : Searching base (fun p => path p ∨ p = node) q.state) (hpath : ¬path node)
    (hnode : node < q.state.size) (hstack : ∀ x ∈ q.state.sccStack, x < q.state.size) :
    ∃ b s', closeQuery node ourDFS q = some (b, s') ∧ Searching base path s' ∧
      s'.tarjan2DFS = q.state.tarjan2DFS ∧ s'.dfsNumber = q.state.dfsNumber ∧
      base ≤ s'.tarjan2DFS (s'.view.rep node) ∧
      (ourDFS = q.state.tarjan2DFS node →
        (∀ x ∈ q.state.sccStack, ourDFS ≤ q.state.tarjan2DFS x) → s'.sccStack = []) ∧
      ∀ p, path p → s'.graphNodes p = q.state.graphNodes p := by
  have hrep : q.state.view.rep node = node := (h.onPath (.inr rfl)).1
  have hmodify : Searching base (fun p => path p ∨ p = node) (q.state.modify node fun n =>
      { n with edges := n.edges \ q.toErase ∪ q.newEdges }) :=
    h.congr rfl rfl ⟨rfl, rfl, rfl, rfl⟩
  have hothers : ∀ p, path p → (q.state.modify node fun n =>
      { n with edges := n.edges \ q.toErase ∪ q.newEdges }).graphNodes p =
        q.state.graphNodes p := by
    intro p hp
    have hne : p ≠ node := fun heq => hpath (heq ▸ hp)
    exact Function.update_of_ne hne ..
  unfold closeQuery
  rw [if_pos (isRep_iff.mpr hrep)]
  dsimp only
  split
  · obtain ⟨r, merged, s₂, hrun, hs₂, hpath_r, hdfs, hnumber, -, hr, hempty, hnodes⟩ :=
      @uniteStack_total _ (q.state.modify node fun n =>
        { n with edges := n.edges \ q.toErase ∪ q.newEdges }) node base ourDFS path
        q.state.sccStack false hmodify hpath hnode hstack
    have hfinished := searching_finish hs₂
    have hlow : base ≤ s₂.tarjan2DFS (s₂.view.rep node) := by
      rw [hr]
      exact hs₂.numbered (.inl (.inr rfl))
    refine ⟨q.changed || merged, if merged then State.insertNext { s₂ with
      tarjan2Deleted := Function.update s₂.tarjan2Deleted r true } r else { s₂ with
      tarjan2Deleted := Function.update s₂.tarjan2Deleted r true }, ?_, ?_⟩
    · change (uniteStack ourDFS q.state.sccStack node false _).bind _ = _
      rw [hrun]
      rfl
    · cases merged with
      | true =>
        exact ⟨hfinished.congr rfl rfl ⟨rfl, rfl, rfl, rfl⟩, hdfs, hnumber, hlow, fun _ => hempty,
          fun p hp => (hnodes p hp).trans (hothers p hp)⟩
      | false =>
        exact ⟨hfinished, hdfs, hnumber, hlow, fun _ => hempty,
          fun p hp => (hnodes p hp).trans (hothers p hp)⟩
  · rename_i hlower
    refine ⟨q.changed, _, rfl, searching_push hmodify hpath, rfl, rfl, ?_,
      fun heq => absurd heq hlower, hothers⟩
    change base ≤ q.state.tarjan2DFS (q.state.view.rep node)
    rw [hrep]
    exact h.numbered (.inl (.inr rfl))

section Frames
variable {base fuel : Nat} {path : Nat → Prop}

theorem Continues.refl (h : Searching base (fun p => path p ∨ p = node) s) :
    Continues base path node s s := ⟨h, fun _ _ => rfl, le_rfl, le_rfl, fun _ => rfl⟩

theorem Continues.trans {s'' : State W} (h : Continues base path node s s')
    (h' : Continues base path node s' s'') : Continues base path node s s'' where
  searching := h'.searching
  kept hi hne := by
    have hkept := h.kept hi hne
    rw [h'.kept (hkept.symm ▸ hi) hne, hkept]
  low := h'.low.trans h.low
  number := h.number.trans h'.number
  nodes hp := (h'.nodes hp).trans (h.nodes hp)

/-- What has been visited stays so. -/
theorem Continues.unvisited (h : Continues base path node s s') (hsize : s'.size = s.size) :
    s'.unvisited.card ≤ s.unvisited.card := by
  refine Finset.card_le_card fun i hi => ?_
  obtain ⟨hrange, hzero⟩ := Finset.mem_filter.mp hi
  refine Finset.mem_filter.mpr ⟨hsize ▸ hrange, ?_⟩
  by_contra hne
  by_cases heq : i = node
  · have hbase : base ≤ s'.tarjan2DFS i := h.searching.numbered (.inl (.inr heq))
    exact absurd h.searching.positive (by omega)
  · exact hne ((h.kept hne heq).symm.trans hzero)

theorem continues_findNode (h : Searching base (fun p => path p ∨ p = node) s) :
    Continues base path node s (findNode i s).2 :=
  ⟨searching_findNode h, fun _ _ => rfl, le_rfl, le_rfl, fun _ => rfl⟩

theorem continues_lower {rep : Nat} (h : Searching base (fun p => path p ∨ p = node) s)
    (hrep : base ≤ s.tarjan2DFS rep) : Continues base path node s (lower node rep s) := by
  unfold lower
  split
  · rename_i hlt
    refine ⟨⟨h.sdt, h.onPath, h.stack, h.nodup, fun {p} hp => ?_, fun {k} hk => ?_, h.positive,
      h.number⟩, fun _ hne => Function.update_of_ne hne .., ?_, le_rfl, fun _ => rfl⟩
    · change base ≤ Function.update s.tarjan2DFS node (s.tarjan2DFS rep) p
      by_cases heq : p = node
      · rwa [heq, Function.update_self]
      · rw [Function.update_of_ne heq]
        exact h.numbered hp
    · by_cases heq : k = node
      · refine h.visited ?_
        rw [heq]
        omega
      · exact h.visited (by rwa [← Function.update_of_ne heq (s.tarjan2DFS rep) s.tarjan2DFS])
    · change Function.update s.tarjan2DFS node (s.tarjan2DFS rep) node ≤ _
      rw [Function.update_self]
      exact hlt.le
  · exact .refl h

/-- A call for another node is part of the call for `node`. -/
theorem Queried.continues {n : Nat} (h : Queried base (fun p => path p ∨ p = node) n s s')
    (hs : Searching base (fun p => path p ∨ p = node) s) : Continues base path node s s' := by
  have hbase : base ≤ s.tarjan2DFS node := hs.numbered (.inl (.inr rfl))
  have hpositive := hs.positive
  exact ⟨h.searching, fun hi _ => h.kept hi, (h.kept (by omega)).le, h.number, h.nodes⟩

variable {query : Nat → State W → Option (Bool × State W)}
  (hadvances : ∀ {n s b s'}, query n s = some (b, s') → InRange s → n < s.size → Advances s s')
  (hquery : ∀ {n : Nat} {s : State W}, Searching base (fun p => path p ∨ p = node) s →
    InRange s → n < s.size → s.view.rep n = n → s.tarjan2DFS n = 0 → s.unvisited.card < fuel →
    ∃ b s', query n s = some (b, s') ∧ Queried base (fun p => path p ∨ p = node) n s s')

include hquery in
theorem visit_total {rep : Nat} {changed : Bool}
    (h : Searching base (fun p => path p ∨ p = node) s) (hs : InRange s) (hrange : rep < s.size)
    (hrep : s.view.rep rep = rep) (hfuel : s.unvisited.card < fuel) :
    ∃ r changed' s', visit query node rep changed s = some (r, changed', s') ∧
      Continues base path node s s' := by
  unfold visit
  by_cases hdeleted : s.tarjan2Deleted rep = true
  · rw [if_pos hdeleted]
    exact ⟨_, _, _, rfl, .refl h⟩
  · rw [if_neg hdeleted]
    by_cases hzero : s.tarjan2DFS rep = 0
    · rw [if_pos hzero]
      obtain ⟨b, s₁, hrun, hqueried⟩ := hquery h hs hrange hrep hzero hfuel
      refine ⟨(findNode rep s₁).1, changed || b, lower node (findNode rep s₁).1
        (findNode rep s₁).2, ?_, ?_⟩
      · rw [hrun]
        rfl
      · have hcontinues := hqueried.continues h
        refine hcontinues.trans ((continues_findNode hcontinues.searching).trans
          (continues_lower (searching_findNode hcontinues.searching) ?_))
        rw [findNode_fst]
        exact hqueried.low
    · rw [if_neg hzero]
      refine ⟨_, _, _, rfl, continues_lower h (h.numbered ?_)⟩
      exact (h.visited hzero hrep).resolve_left hdeleted

include hquery in
theorem queryEdge_total {q : Query W} {dest : Nat}
    (h : Searching base (fun p => path p ∨ p = node) q.state) (hs : InRange q.state)
    (hdest : dest < q.state.size) (hfuel : q.state.unvisited.card < fuel) :
    ∃ q', queryEdge query node q dest = some q' ∧ Continues base path node q.state q'.state := by
  have hfound := continues_findNode (i := dest) h
  have hinRange := advances_findNode hs dest
  have hsize := hinRange.grows.size
  have hrep : (findNode dest q.state).2.view.rep (findNode dest q.state).1 =
      (findNode dest q.state).1 := by
    rw [view_findNode, findNode_fst]
    exact Batteries.UnionFind.rootD_rootD
  obtain ⟨r, changed, s₁, hvisit, hcontinues⟩ := @visit_total _ _ node base fuel path query hquery
    (findNode dest q.state).1 q.changed hfound.searching hinRange.inRange
    (hsize.symm ▸ findNode_lt hdest) hrep ((hfound.unvisited hsize).trans_lt hfuel)
  unfold queryEdge
  dsimp only
  split
  · exact ⟨_, rfl, hfound⟩
  · rw [hvisit]
    dsimp only [Option.bind_eq_bind, Option.bind_some]
    split
    · exact ⟨_, rfl, hfound.trans hcontinues⟩
    · exact ⟨_, rfl, hfound.trans hcontinues⟩

include hadvances hquery in
theorem queryEdges_total {q : Query W} {edges : List Nat}
    (h : Searching base (fun p => path p ∨ p = node) q.state) (hs : InRange q.state)
    (hedges : ∀ e ∈ edges, e < q.state.size) (hnew : ∀ e ∈ q.newEdges, e < q.state.size)
    (hfuel : q.state.unvisited.card < fuel) :
    ∃ q', edges.foldlM (queryEdge query node) q = some q' ∧
      Continues base path node q.state q'.state := by
  induction edges generalizing q with
  | nil => exact ⟨q, rfl, .refl h⟩
  | cons e edges ih =>
    obtain ⟨q₁, hrun, hcontinues⟩ :=
      queryEdge_total hquery h hs (hedges e List.mem_cons_self) hfuel
    obtain ⟨hedge, hnew₁⟩ :=
      advances_queryEdge hadvances hrun hs (hedges e List.mem_cons_self) hnew
    have hsize := hedge.grows.size
    obtain ⟨q', hrest, hcontinues'⟩ := ih hcontinues.searching hedge.inRange
      (fun e' he' => hsize.symm ▸ hedges e' (List.mem_cons_of_mem e he')) hnew₁
      ((hcontinues.unvisited hsize).trans_lt hfuel)
    refine ⟨q', ?_, hcontinues.trans hcontinues'⟩
    rw [List.foldlM_cons, hrun]
    exact hrest

end Frames

/-! ## A call of `QueryNode` -/

/-- The call for `node` begins. -/
def State.enter (s : State W) (node : Nat) : State W :=
  { s with
    dfsNumber := s.dfsNumber + 1
    tarjan2DFS := Function.update s.tarjan2DFS node (s.dfsNumber + 1) }

theorem enter_self : (s.enter node).tarjan2DFS node = s.dfsNumber + 1 := Function.update_self ..

theorem enter_of_ne (h : i ≠ node) : (s.enter node).tarjan2DFS i = s.tarjan2DFS i :=
  Function.update_of_ne h ..

theorem queryNode_succ {fuel : Nat} {q : Query W} (hrep : s.view.rep node = node)
    (hloop : (s.graphNodes node).edges.sort.foldlM (queryEdge (queryNode fuel) node)
      { state := s.enter node } = some q)
    (hnode : q.state.graphNodes node = s.graphNodes node) :
    queryNode (fuel + 1) node s = closeQuery node (s.dfsNumber + 1) q := by
  rw [queryNode, if_pos (isRep_iff.mpr hrep)]
  refine (congrArg (Option.bind · _) hloop).trans ?_
  exact if_pos (congrArg GraphNode.edges hnode)

theorem advances_enter (hs : InRange s) : Advances s (s.enter node) :=
  ⟨{ hs with }, .of_nodes rfl rfl rfl rfl rfl, le_rfl, le_rfl⟩

/-- A node that has not been visited is neither on the path nor on the stack. -/
theorem Searching.unvisited {base : Nat} {path : Nat → Prop} (h : Searching base path s)
    (hzero : s.tarjan2DFS node = 0) : ¬path node ∧ node ∉ s.sccStack := by
  have hpositive := h.positive
  refine not_or.mp fun hp => ?_
  have hbase := h.numbered hp
  omega

theorem searching_enter {base : Nat} {path : Nat → Prop} (h : Searching base path s)
    (hrep : s.view.rep node = node) (hzero : s.tarjan2DFS node = 0) :
    Searching base (fun p => path p ∨ p = node) (s.enter node) := by
  refine ⟨h.sdt, fun {p} hp => ?_, h.stack, h.nodup, fun {p} hp => ?_, fun {k} hk hrep_k => ?_,
    h.positive, h.number.trans (Nat.le_succ _)⟩
  · obtain hp | rfl := hp
    · exact h.onPath hp
    · exact ⟨hrep, (h.unvisited hzero).2⟩
  · by_cases heq : p = node
    · rw [heq, enter_self]
      exact h.number
    · rw [enter_of_ne heq]
      exact h.numbered (hp.imp_left fun hp => hp.resolve_right heq)
  · by_cases heq : k = node
    · exact .inr (.inl (.inr heq))
    · rw [enter_of_ne heq] at hk
      exact (h.visited hk hrep_k).imp_right (Or.imp_left .inl)

theorem unvisited_enter (hnode : node < s.size) (hzero : s.tarjan2DFS node = 0) :
    (s.enter node).unvisited.card < s.unvisited.card := by
  refine Finset.card_lt_card (Finset.ssubset_iff.mpr ⟨node, fun hmem => ?_, fun i hi => ?_⟩)
  · have hnumbered := (Finset.mem_filter.mp hmem).2
    rw [enter_self] at hnumbered
    omega
  · obtain rfl | hi := Finset.mem_insert.mp hi
    · exact Finset.mem_filter.mpr ⟨Finset.mem_range.mpr hnode, hzero⟩
    · obtain ⟨hrange, hi⟩ := Finset.mem_filter.mp hi
      refine Finset.mem_filter.mpr ⟨hrange, ?_⟩
      by_cases heq : i = node
      · rwa [heq]
      · rwa [enter_of_ne heq] at hi

/-- The search from `node` fails no assertion. -/
theorem queryNode_total {base fuel : Nat} {path : Nat → Prop} (h : Searching base path s)
    (hs : InRange s) (hnode : node < s.size) (hrep : s.view.rep node = node)
    (hzero : s.tarjan2DFS node = 0) (hfuel : s.unvisited.card < fuel) :
    ∃ b s', queryNode fuel node s = some (b, s') ∧ Queried base path node s s' := by
  induction fuel generalizing path node s with
  | zero => exact absurd hfuel (Nat.not_lt_zero _)
  | succ fuel ih =>
    have hpath := (h.unvisited hzero).1
    have henter : InRange (s.enter node) := (advances_enter hs).inRange
    have hedges : ∀ e ∈ (s.graphNodes node).edges.sort, e < s.size :=
      fun e he => (hs.nodes node).edges e ((Finset.mem_sort _).mp he)
    have hlt := unvisited_enter hnode hzero
    obtain ⟨q, hloop, hcontinues⟩ := @queryEdges_total _ node base fuel path (queryNode fuel)
      advances_queryNode ih { state := s.enter node } (s.graphNodes node).edges.sort
      (searching_enter h hrep hzero) henter hedges (by simp) (by dsimp only; omega)
    obtain ⟨hadvances, -⟩ := advances_queryEdges (fun h => advances_queryNode h) hloop henter
      hedges (by simp)
    have hsize : q.state.size = s.size := hadvances.grows.size
    obtain ⟨b, s', hclose, hs', hdfs, hnumber, hlow, hempty, hnodes⟩ :=
      @closeQuery_total _ node base (s.dfsNumber + 1) path q hcontinues.searching hpath
        (hsize.symm ▸ hnode) hadvances.inRange.stack
    refine ⟨b, s', ?_, hs', fun {i} hi => ?_, hlow, ?_, fun hbase => ?_, fun {p} hp => ?_⟩
    · rw [queryNode_succ hrep hloop (hcontinues.nodes (.inr rfl))]
      exact hclose
    · have hne : i ≠ node := fun heq => hi (heq ▸ hzero)
      rw [hdfs, hcontinues.kept (by rwa [enter_of_ne hne]) hne, enter_of_ne hne]
    · rw [hnumber]
      exact (Nat.le_succ _).trans hcontinues.number
    · refine hempty ?_ fun x hx => ?_
      · -- The number of the node is not lower than `base`, and has not been raised.
        have hle := hcontinues.low
        have hge := hcontinues.searching.numbered (.inl (.inr rfl))
        rw [enter_self] at hle
        omega
      · exact hbase ▸ hcontinues.searching.numbered (.inr hx)
    · exact (hnodes p hp).trans (hcontinues.nodes (.inl hp))

/-! ## Between two searches -/

/-- No search is going on. -/
structure Idle (s : State W) : Prop where
  sdt : ∀ i, s.sdt i = none
  stack : s.sccStack = []
  visited : ∀ {i}, s.tarjan2DFS i ≠ 0 → s.view.rep i = i → s.tarjan2Deleted i = true

theorem queryCandidates_total {nodes : List Nat} (h : Idle s) (hs : InRange s)
    (hnodes : ∀ n ∈ nodes, n < s.size) :
    ∃ s', queryCandidates nodes s = some s' ∧ (∀ i, s'.sdt i = none) ∧ s'.sccStack = [] := by
  induction nodes generalizing s with
  | nil => exact ⟨_, rfl, h.sdt, h.stack⟩
  | cons n nodes ih =>
    have hrest := fun x hx => hnodes x (List.mem_cons_of_mem n hx)
    rw [queryCandidates]
    split
    · rename_i hcandidate
      obtain ⟨-, hisRep, hzero⟩ := hcandidate
      have hsearching : Searching (s.dfsNumber + 1) (fun _ => False) s := by
        refine ⟨h.sdt, False.elim, ?_, ?_, ?_, fun hk hrep => .inl (h.visited hk hrep),
          Nat.succ_pos _, le_rfl⟩
        · simp [h.stack]
        · simp [h.stack]
        · simp [h.stack]
      have hcard : s.unvisited.card < s.size + 1 := by
        refine Nat.lt_succ_of_le ((Finset.card_le_card (Finset.filter_subset _ _)).trans ?_)
        rw [Finset.card_range]
      obtain ⟨b, s₁, hquery, hqueried⟩ := queryNode_total hsearching hs
        (hnodes n List.mem_cons_self) (isRep_iff.mp hisRep) hzero hcard
      have hadvances := advances_queryNode hquery hs (hnodes n List.mem_cons_self)
      have hempty := hqueried.emptied rfl
      have hidle : Idle s₁ := by
        refine ⟨hqueried.searching.sdt, hempty, fun hk hrep => ?_⟩
        obtain hdeleted | hpath | hmem := hqueried.searching.visited hk hrep
        · exact hdeleted
        · exact hpath.elim
        · rw [hempty] at hmem
          exact absurd hmem List.not_mem_nil
      rw [hquery]
      exact ih hidle hadvances.inRange fun x hx => hadvances.grows.size.symm ▸ hrest x hx
    · exact ih h hs hrest

theorem detectCycles_total (hsdt : ∀ i, s.sdt i = none) (hstack : s.sccStack = [])
    (hs : InRange s) :
    ∃ s', detectCycles s = some s' ∧ (∀ i, s'.sdt i = none) ∧ s'.sccStack = [] := by
  unfold detectCycles
  split
  · exact ⟨s, rfl, hsdt, hstack⟩
  · exact @queryCandidates_total _ { s with
      dfsNumber := 0, tarjan2DFS := fun _ => 0, tarjan2Deleted := fun _ => false } s.tarjanWL
      ⟨hsdt, hstack, fun hk => absurd rfl hk⟩ { hs with } hs.candidates

/-! ## The loops -/

section Loops
variable {cs : List Constraint}

theorem processNode_total {x : WorkListElement} {queue : W.Queue} (h : Solving m a cs s)
    (hpop : W.pop s.currWL = some (x, queue)) (hcurr : s.view.rep x.node = x.node)
    (hsdt : ∀ i, s.sdt i = none) :
    ∃ s', processNode m a x.node { s with currWL := queue } = some s' ∧
      s'.sccStack = s.sccStack := by
  obtain ⟨set, hset⟩ : ∃ set, (s.graphNodes x.node).pointsTo \
    (s.graphNodes x.node).oldPointsTo = set := ⟨_, rfl⟩
  have hsub : set ⊆ (s.graphNodes x.node).pointsTo := hset ▸ Finset.sdiff_subset
  have htaken := @taken_spec _ m a _ _ _ _ (· = x.node) h.stable hpop hsub rfl
    fun _ t ht => absurd ((hsdt x.node).symm.trans ht) nofun
  rw [processNode_eq { s with currWL := queue } hset]
  split
  · exact ⟨_, rfl, rfl⟩
  · have hnone : ({ s with currWL := queue } : State W).sdt x.node = none := hsdt x.node
    rw [hnone]
    have hpropagate := @propagate_spec _ m a (taken x.node set { s with currWL := queue }) set
      x.node none htaken.proper hcurr (by simp) fun ht => absurd ((hsdt x.node).symm.trans ht) nofun
    exact ⟨_, rfl, hpropagate.1.stack⟩

theorem drain_total {elements : Nat} (h : Solving m a cs s) (hfits : Fits m a s.size)
    (hs : InRange s) (hsdt : ∀ i, s.sdt i = none) (hstack : s.sccStack = []) :
    ∃ s', drain m a elements s = some s' ∧ (∀ i, s'.sdt i = none) ∧ s'.sccStack = [] := by
  induction elements generalizing s with
  | zero => exact ⟨s, rfl, hsdt, hstack⟩
  | succ elements ih =>
    rw [drain]
    cases hpop : W.pop s.currWL with
    | none => exact ⟨s, rfl, hsdt, hstack⟩
    | some popped =>
      obtain ⟨x, queue⟩ := popped
      obtain ⟨hpopped, hx⟩ := hs.popped hpop
      dsimp only
      split
      · rename_i hvalid
        have hcurr := rep_of_valid (s := s) hvalid
        obtain ⟨s₁, hprocess, hstack₁⟩ := processNode_total h hpop hcurr hsdt
        obtain ⟨hadvances, -⟩ := closer_processNode (s := { s with currWL := queue }) hfits hpopped
          hx hprocess
        have hsize : s₁.size = s.size := hadvances.grows.size
        rw [hprocess]
        exact ih (processNode_spec h hpop hcurr hprocess) (hsize.symm ▸ hfits) hadvances.inRange
          (hadvances.grows.sdt hsdt) (hstack₁.trans hstack)
      · rename_i hvalid
        exact ih (s := { s with currWL := queue }) (h.drop hpop hvalid) hfits hpopped hsdt hstack

theorem iterate_total {iterations : Nat} (h : Solving m a cs s) (hfits : Fits m a s.size)
    (hs : InRange s) (hsdt : ∀ i, s.sdt i = none) (hstack : s.sccStack = []) :
    ∃ s', iterate m a iterations s = some s' ∧ ∀ i, s'.sdt i = none := by
  induction iterations generalizing s with
  | zero => exact ⟨s, rfl, hsdt⟩
  | succ iterations ih =>
    rw [iterate]
    split
    · exact ⟨s, rfl, hsdt⟩
    · obtain ⟨s₁, hdetect, hsdt₁, hstack₁⟩ := detectCycles_total hsdt hstack hs
      obtain ⟨hs₁, hgrows, -⟩ := closer_detectCycles hdetect hs
      have hsolving₁ := solving_detectCycles h hdetect
      obtain ⟨s₂, hdrain, hsdt₂, hstack₂⟩ := @drain_total _ m a s₁ cs (W.elems s₁.currWL).card
        hsolving₁ (hgrows.size.symm ▸ hfits) hs₁ hsdt₁ hstack₁
      obtain ⟨hs₂, hsize, -⟩ := iteration_ends hfits hs hdetect hdrain
      have hsolving₂ := solving_drain hsolving₁ hdrain
      rw [hdetect, Option.bind_eq_bind, Option.bind_some, hdrain, Option.bind_some]
      refine ih (s := { s₂ with currWL := s₂.nextWL, nextWL := s₂.currWL })
        hsolving₂.switch (hsize.symm ▸ hfits) hs₂ hsdt₂ hstack₂

/-- The loop that begins with `s₀` fails no assertion. -/
theorem Prepared.total {o : Offline} {s₀ : State W} (h : Prepared m a o s₀)
    (hfits : Fits m a o.reps.size) (hguarded : Guarded s₀.view) (hsdt : ∀ n, o.sdt n = none)
    (iterations : Nat) :
    ∃ s, iterate m a iterations s₀ = some s ∧ ∀ i, s.sdt i = none :=
  iterate_total (h.solving hguarded) (h.size.symm ▸ hfits) h.inRange (h.sdt hsdt) h.stack

end Loops

end Assertions

end Lockout.Andersens.Solver
