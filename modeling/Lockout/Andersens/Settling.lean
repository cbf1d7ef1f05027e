import Lockout.Andersens.Propagation

/-! # A node from the work list

A node is taken from the work list, its changed members are counted among those it has passed
on, the members are united where `SDT` says so, and then the node is settled for them. -/

namespace Lockout.Andersens.Solver
open Lockout.Andersens.Objects Lockout.Andersens.Slots Lockout.Andersens.Progress
open Lockout.Andersens.Progress.View

/-! ## Views of one graph -/

section Graphs
variable {m : Module} {a : Graph} {v v' : View} {links : Links} {i j n : Nat} {set : Finset Nat}
  {c : Constraint}

/-- The graphs are the same; work lists, timestamps and old sets may differ. -/
structure SameGraph (v v' : View) : Prop where
  rep : v'.rep = v.rep
  sdt : v'.sdt = v.sdt
  nodes : ∀ n, (v'.nodes n).edges = (v.nodes n).edges ∧
    (v'.nodes n).pointsTo = (v.nodes n).pointsTo ∧
    (v'.nodes n).constraints = (v.nodes n).constraints

namespace SameGraph
variable (h : SameGraph v v')
include h

theorem pointsTo (i : Nat) : v'.pointsTo i = v.pointsTo i := by
  rw [View.pointsTo, View.pointsTo, h.rep]
  exact (h.nodes _).2.1

theorem connected : v'.Connected i j ↔ v.Connected i j := by
  unfold View.Connected
  rw [h.rep, (h.nodes _).1]

theorem link : v'.Link links i j ↔ v.Link links i j := by
  unfold View.Link
  rw [h.rep, h.sdt]

theorem applied : v'.Applied m a set c ↔ v.Applied m a set c := by
  unfold View.Applied
  simp only [h.connected, h.rep]

theorem settled (hs : v.Settled m a links set n) : v'.Settled m a links set n where
  edges e he := by
    rw [h.rep, h.pointsTo]
    exact hs.edges e ((h.nodes n).1 ▸ he)
  constraints c hc := h.applied.mpr (hs.constraints c ((h.nodes n).2.2 ▸ hc))
  collapsed ht x hx := by
    rw [h.rep]
    exact hs.collapsed (h.link.mp ht) x hx

theorem ext : Extends v links v' links where
  rep hij := by rwa [h.rep]
  pointsTo i := (h.pointsTo i).symm.subset
  special _ := .inl (congrFun h.rep _)
  connected hij := h.connected.mpr hij
  link hij := h.link.mpr hij
  kept {i c} hc := by
    refine .inl ⟨c, ?_, .refl⟩
    rw [h.rep, (h.nodes _).2.2]
    exact hc

theorem proper (hv : v.Proper) (hold : ∀ n, (v'.nodes n).oldPointsTo ⊆ (v.nodes n).pointsTo) :
    v'.Proper where
  rep_rep := by
    rw [h.rep]
    exact hv.rep_rep
  edges {n e} he := by
    rw [h.rep]
    exact hv.edges ((h.nodes n).1 ▸ he)
  loads {n c} hc := by
    rw [h.rep]
    exact hv.loads ((h.nodes n).2.2 ▸ hc)
  sdt := by
    rw [h.sdt, h.rep]
    exact hv.sdt
  old n := by
    rw [(h.nodes n).2.1]
    exact hold n

end SameGraph

end Graphs

/-! ## Taking a node -/

section Taking
variable {m : Module} {a : Graph} {v v' : View} {curr i n : Nat} {set : Finset Nat}
  {x : WorkListElement} {owed : Nat → Prop}

/-- Nothing is left to do for members that a node has not passed on. -/
def noSlack (_ : Nat) : Finset Nat := ∅

/-- The invariant between two nodes. -/
abbrev Stable (m : Module) (a : Graph) (v : View) : Prop :=
  Invariant m a Nobody noLinks noSlack v

/-- What is covered in a view is in another of the same graph, if what was on a work list and
what was linked with it is. -/
theorem covered_transfer (hv : v.Proper) (hgraph : SameGraph v v')
    (h : v.Covered Nobody noLinks n)
    (hqueued : ∀ {k}, v.rep k = k → v.Queued k → v'.Covered owed noLinks k)
    (hlink : ∀ {f k}, (v.nodes (v.rep f)).oldPointsTo = ∅ → v'.Covered owed noLinks f →
      v.Link noLinks f k → v'.Covered owed noLinks k) : v'.Covered owed noLinks n := by
  induction h with
  | owed ho => exact ho.elim
  | @queued n hq =>
    refine (hqueued (hv.rep_rep n) hq).congr ?_
    rw [hgraph.rep, hv.rep_rep]
  | @empty n he =>
    refine .empty ?_
    rwa [hgraph.pointsTo]
  | link _ hold hl ih => exact hlink hold ih hl

/-- An element that does not count is dropped. -/
theorem Stable.drop (h : Stable m a v) (hgraph : SameGraph v v')
    (hnodes : v'.nodes = v.nodes) (hwaiting : ∀ y ∈ v.waiting, y = x ∨ y ∈ v'.waiting)
    (hx : (v.nodes x.node).timestamp ≠ x.timestamp ∨ v.rep x.node ≠ x.node) :
    Stable m a v' where
  proper := hgraph.proper h.proper fun n => by
    rw [hnodes]
    exact h.proper.old n
  settled {n} hn := by
    rw [hnodes]
    exact hgraph.settled (h.settled (hgraph.rep ▸ hn))
  covered {n} hn := by
    rw [hgraph.rep] at hn
    obtain hc | hs := h.covered hn
    · refine .inl (covered_transfer h.proper hgraph hc (fun {k} hk hq => ?_) fun hold hf hl => ?_)
      · refine .queued ?_
        rw [hgraph.rep, hk, View.Queued, hnodes]
        refine (hwaiting _ hq).resolve_left fun heq => ?_
        obtain rfl := congrArg WorkListElement.node heq
        exact hx.elim (· (congrArg WorkListElement.timestamp heq)) (· hk)
      · refine .link hf ?_ (hgraph.link.mpr hl)
        rw [hgraph.rep, hnodes]
        exact hold
    · rw [hnodes]
      exact .inr (hgraph.settled hs)

/-- A node has been taken from the work list, and counts the members in `set` as passed on. -/
theorem Stable.take (h : Stable m a v) (hgraph : SameGraph v v')
    (hwaiting : ∀ y ∈ v.waiting, y.node ≠ curr → y ∈ v'.waiting)
    (hothers : ∀ n, n ≠ curr → (v'.nodes n).oldPointsTo = (v.nodes n).oldPointsTo ∧
      (v'.nodes n).timestamp = (v.nodes n).timestamp)
    (hold : (v'.nodes curr).oldPointsTo = (v.nodes curr).oldPointsTo ∪ set)
    (hset : set ⊆ (v.nodes curr).pointsTo) (howed : owed curr)
    (hlinks : set ≠ ∅ → ∀ t, v.sdt curr = some t → owed t) :
    Invariant m a owed noLinks (fun n => if n = curr then set else ∅) v' where
  proper := hgraph.proper h.proper fun n => by
    by_cases hn : n = curr
    · rw [hn, hold]
      exact Finset.union_subset (h.proper.old curr) hset
    · rw [(hothers n hn).1]
      exact h.proper.old n
  settled {n} hn := by
    rw [hgraph.rep] at hn
    have hsettled := hgraph.settled (h.settled hn)
    by_cases hne : n = curr
    · subst hne
      rw [if_pos rfl, hold]
      refine hsettled.subset fun x hx => ?_
      obtain ⟨hx, hout⟩ := Finset.mem_sdiff.mp hx
      exact Finset.mem_sdiff.mpr ⟨(Finset.mem_union.mp hx).resolve_right hout,
        Finset.notMem_empty x⟩
    · rw [if_neg hne, (hothers n hne).1]
      exact hsettled
  covered {n} hn := by
    rw [hgraph.rep] at hn
    obtain hc | hs := h.covered hn
    · refine .inl (covered_transfer h.proper hgraph hc (fun {k} hrep hq => ?_) fun {f k} hf hc hl => ?_)
      · by_cases hk : k = curr
        · exact .owed howed (congrArg _ hk.symm)
        · refine .queued ?_
          rw [hgraph.rep, hrep, View.Queued, (hothers k hk).2]
          exact hwaiting _ hq hk
      · by_cases hf' : v.rep f = curr ∧ set ≠ ∅
        · obtain ⟨t, ht, heq⟩ | ⟨_, _, hfalse, -⟩ := hl
          · refine .owed (hlinks hf'.2 t (hf'.1 ▸ ht)) ?_
            rwa [hgraph.rep]
          · exact hfalse.elim
        · refine .link hc ?_ (hgraph.link.mpr hl)
          rw [hgraph.rep]
          by_cases hcurr : v.rep f = curr
          · rw [hcurr] at hf ⊢
            rw [hold, hf, not_not.mp fun hne => hf' ⟨hcurr, hne⟩, Finset.empty_union]
          · rw [(hothers _ hcurr).1]
            exact hf
    · rw [(hgraph.nodes n).2.1]
      exact .inr (hgraph.settled hs)

theorem settled_old
    (h : Invariant m a owed noLinks (fun n => if n = curr then set else ∅) v)
    (hsettled : v.Settled m a noLinks set curr) (hn : v.rep n = n) :
    v.Settled m a noLinks (v.nodes n).oldPointsTo n := by
  have hslack := h.settled hn
  by_cases hne : n = curr
  · subst hne
    rw [if_pos rfl] at hslack
    exact (hslack.union hsettled).subset fun x hx => by
      by_cases hxs : x ∈ set
      · exact Finset.mem_union_right _ hxs
      · exact Finset.mem_union_left _ (Finset.mem_sdiff.mpr ⟨hx, hxs⟩)
  · rwa [if_neg hne, Finset.sdiff_empty] at hslack

/-- Only the node itself depends on its being processed. -/
theorem covered_or_rep (hcurr : v.rep curr = curr)
    (hold : (v.nodes curr).oldPointsTo = ∅ → (v.nodes curr).pointsTo = ∅)
    (h : v.Covered (· = curr) noLinks n) : v.Covered Nobody noLinks n ∨ v.rep n = curr := by
  induction h with
  | owed ho heq =>
    right
    rw [← heq, ho, hcurr]
  | queued hq => exact .inl (.queued hq)
  | empty he => exact .inl (.empty he)
  | @link f n _ hempty hl ih =>
    left
    obtain hf | hf := ih
    · exact .link hf hempty hl
    · refine .link (.empty ?_) hempty hl
      rw [hf] at hempty
      rw [View.pointsTo, hf]
      exact hold hempty

/-- Once it is settled for the members, nothing is owed any more. -/
theorem discharge (h : Invariant m a (· = curr) noLinks (fun n => if n = curr then set else ∅) v)
    (hcurr : v.rep curr = curr) (hsettled : v.Settled m a noLinks set curr)
    (hpointsTo : (v.nodes curr).pointsTo = (v.nodes curr).oldPointsTo ∨ v.Queued curr)
    (hold : (v.nodes curr).oldPointsTo = ∅ → (v.nodes curr).pointsTo = ∅) : Stable m a v where
  proper := h.proper
  settled {n} hn := by
    refine View.Settled.subset ?_ (Finset.sdiff_subset (t := noSlack n))
    exact settled_old h hsettled hn
  covered {n} hn := by
    obtain hc | hs := h.covered hn
    · obtain hc | heq := covered_or_rep hcurr hold hc
      · exact .inl hc
      · obtain rfl : n = curr := hn.symm.trans heq
        obtain hold | hq := hpointsTo
        · right
          rw [hold]
          exact settled_old h hsettled hn
        · exact .inl (.queued (hcurr.symm ▸ hq))
    · exact .inr hs

/-- The node was united with another, which covers it. -/
theorem abandon (h : Invariant m a (· = curr) noLinks (fun n => if n = curr then set else ∅) v)
    (hold : v.rep curr = curr → (v.nodes curr).oldPointsTo = ∅)
    (hc : v.Covered Nobody noLinks curr) : Stable m a v where
  proper := h.proper
  settled {n} hn := by
    have hslack := h.settled hn
    by_cases hne : n = curr
    · subst hne
      rw [hold hn, Finset.empty_sdiff]
      exact .empty
    · rwa [if_neg hne] at hslack
  covered {n} hn := by
    refine (h.covered hn).imp_left fun hcovered => hcovered.mono (fun ho => ?_) id
    rw [ho]
    exact hc

end Taking

/-! ## Uniting the members -/

section Collapsing
variable {W : WorkList} {m : Module} {a : Graph} {s s' : State W} {x : Collapse} {t : Nat}

/-- The state while the members are united with the node that stands for `t`. -/
structure Collapsing (s : State W) (t : Nat) (done : List Nat) (x : Collapse) (s' : State W) :
    Prop where
  step : Step (· = t) noLinks s.view s'.view
  frame : s'.frame = s.frame
  rep : s'.view.rep t = x.rep
  special : ∀ n ∈ x.special, n < numberSpecialNodes ∧ s'.view.rep n = n
  members : ∀ y ∈ done, s'.view.rep y = x.rep ∨
    s'.view.rep y < numberSpecialNodes ∧ s'.view.rep y ∈ x.special

theorem collapse_spec {members done : List Nat} {x' : Collapse} {s₁ : State W}
    (h : collapse members x s₁ = some (x', s')) (hx : Collapsing s t done x s₁)
    (ht : numberSpecialNodes ≤ s.view.rep t) :
    Collapsing s t (members.reverse ++ done) x' s' := by
  induction members generalizing done x s₁ with
  | nil =>
    obtain ⟨rfl, rfl⟩ : x = x' ∧ s₁ = s' := by simpa [collapse] using h
    exact hx
  | cons y members ih =>
    have hproper := hx.step.proper
    have hfst : (findNode y s₁).1 = s₁.view.rep y := findNode_fst
    rw [List.reverse_cons, List.append_assoc, List.singleton_append]
    rw [collapse] at h
    dsimp only at h
    rw [hfst] at h
    split at h
    · rename_i hlt
      refine ih h ⟨by rw [view_findNode]; exact hx.step, frame_findNode.trans hx.frame,
        by rw [view_findNode]; exact hx.rep, fun n hn => ?_, fun z hz => ?_⟩
      · rw [view_findNode]
        obtain hn | hn := List.mem_append.mp hn
        · exact hx.special n hn
        · rw [List.mem_singleton.mp hn]
          exact ⟨hlt, hproper.rep_rep y⟩
      · rw [view_findNode]
        obtain rfl | hz := List.mem_cons.mp hz
        · exact .inr ⟨hlt, List.mem_append_right _ (List.mem_singleton_self _)⟩
        · exact (hx.members z hz).imp_right fun ⟨hlt, hmem⟩ => ⟨hlt, List.mem_append_left _ hmem⟩
    · rename_i hle
      rw [Option.bind_eq_bind, Option.bind_eq_some_iff] at h
      obtain ⟨⟨r, s₂⟩, hunite, h⟩ := h
      have hrep : numberSpecialNodes ≤ x.rep := by
        rw [← hx.rep]
        exact hx.step.ext.le ht
      have hunited := unite_spec hunite
      have hstep : Step (· = x.rep) noLinks s₁.view s₂.view := by
        have hstep := hunited.step (by rwa [view_findNode]) hrep (Nat.le_of_not_lt hle) noLinks
        rwa [view_findNode] at hstep
      have hself : ∀ {z}, s₁.view.rep z = x.rep → s₂.view.rep z = r := by
        intro z hz
        rw [← hunited.left]
        refine hstep.ext.rep ?_
        rw [hz, ← hx.rep, hproper.rep_rep]
      -- A special node stays where it is.
      have hstays : ∀ {z}, s₁.view.rep z < numberSpecialNodes → s₂.view.rep z = s₁.view.rep z :=
        fun {z} hz => (hstep.ext.special z).resolve_right fun hle =>
          absurd hz (Nat.not_lt.mpr hle.1)
      refine ih h ⟨hx.step.trans (hstep.mono fun {o} ho => .owed rfl ?_),
        hunited.frame.trans (frame_findNode.trans hx.frame), hself hx.rep, fun n hn => ?_,
        fun z hz => ?_⟩
      · rw [ho, hself hx.rep, hunited.left]
      · obtain ⟨hlt, hn⟩ := hx.special n hn
        exact ⟨hlt, (hstays (by rwa [hn])).trans hn⟩
      · obtain rfl | hz := List.mem_cons.mp hz
        · left
          rw [← hunited.right]
          refine hstep.ext.rep ?_
          rw [hproper.rep_rep]
        · obtain heq | ⟨hlt, hmem⟩ := hx.members z hz
          · exact .inl (hself heq)
          · right
            rw [hstays hlt]
            exact ⟨hlt, hmem⟩

/-- The members and the node they were united with, as the constraints need them. -/
theorem Collapsing.gathered {curr : Nat} {set : Finset Nat} {done : List Nat}
    (h : Collapsing s t done x s') (ht : numberSpecialNodes ≤ s.view.rep t)
    (hset : ∀ y ∈ set, y ∈ done)
    (hsdt : ∃ t', s'.sdt curr = some t' ∧ s'.view.rep t' = s'.view.rep t) :
    Gathered s'.view curr set x.rsv := by
  obtain ⟨t', ht', heq⟩ := hsdt
  have hproper := h.step.proper
  have hrep : s'.view.rep x.rep = x.rep := by
    rw [← h.rep, hproper.rep_rep]
  have hmem : x.rep ∈ x.rsv := List.mem_append_right _ (List.mem_singleton_self _)
  refine ⟨fun n hn => ?_, fun y hy => ?_, t', ht', ⟨x.rep, hmem, ?_, ?_⟩, fun y hy => ?_⟩
  · obtain hn | hn := List.mem_append.mp hn
    · exact (h.special n hn).2
    · rw [List.mem_singleton.mp hn, hrep]
  · obtain hy | ⟨-, hy⟩ := h.members y (hset y hy)
    · exact ⟨x.rep, hmem, hrep.trans hy.symm⟩
    · exact ⟨_, List.mem_append_left _ hy, hproper.rep_rep y⟩
  · rw [← h.rep]
    exact h.step.ext.le ht
  · rw [hrep, heq, h.rep]
  · exact (h.members y (hset y hy)).imp (fun hy => by rw [hy, heq, h.rep]) And.left

end Collapsing

/-! ## The whole step -/

section Processing
variable {W : WorkList} {m : Module} {a : Graph} {cs : List Constraint} {s s' : State W}
  {x : WorkListElement} {queue : W.Queue} {curr t : Nat} {set : Finset Nat}

/-- The invariant of the loops. -/
structure Solving (m : Module) (a : Graph) (cs : List Constraint) (s : State W) : Prop where
  stable : Stable m a s.view
  represented : ∀ c ∈ cs, s.view.Represented noLinks c
  stack : ∀ x ∈ s.sccStack, numberSpecialNodes ≤ x
  candidates : ∀ x ∈ s.tarjanWL, numberSpecialNodes ≤ x

/-- The node counts the changed members as passed on. -/
def taken (curr : Nat) (set : Finset Nat) (s : State W) : State W :=
  (s.stamp curr).modify curr fun node => { node with oldPointsTo := node.oldPointsTo ∪ set }

theorem taken_view (hpop : W.pop s.currWL = some (x, queue)) :
    SameGraph s.view (taken curr set { s with currWL := queue }).view ∧
      (∀ y ∈ s.view.waiting, y = x ∨
        y ∈ (taken curr set { s with currWL := queue }).view.waiting) ∧
      (∀ n, n ≠ curr → (taken curr set { s with currWL := queue }).graphNodes n =
        s.graphNodes n) ∧
      ((taken curr set { s with currWL := queue }).graphNodes curr).oldPointsTo =
        (s.graphNodes curr).oldPointsTo ∪ set := by
  have hothers : ∀ n, n ≠ curr →
      (taken curr set { s with currWL := queue }).graphNodes n = s.graphNodes n := by
    intro n hn
    simp [taken, State.modify, State.stamp, hn]
  refine ⟨⟨rfl, rfl, fun n => ?_⟩, fun y hy => ?_, hothers, ?_⟩
  · by_cases hn : n = curr
    · subst hn
      simp [State.view, taken, State.modify, State.stamp]
    · have hnodes := hothers n hn
      exact ⟨congrArg GraphNode.edges hnodes, congrArg GraphNode.pointsTo hnodes,
        congrArg GraphNode.constraints hnodes⟩
  · obtain hy | hy := Multiset.mem_add.mp hy
    · exact (W.mem_of_pop hpop hy).imp_right fun hy => Multiset.mem_add.mpr (.inl hy)
    · exact .inr (Multiset.mem_add.mpr (.inr hy))
  · simp [taken, State.modify, State.stamp]

/-- A node that has passed on all its members is settled when its changed members are. -/
theorem finish {v v' : View}
    (h : Invariant m a (· = curr) noLinks (fun n => if n = curr then set else ∅) v')
    (hsame : SameNode v v' curr) (hcurr : v'.rep curr = curr)
    (hall : (v.nodes curr).pointsTo = (v.nodes curr).oldPointsTo)
    (hne : (v.nodes curr).oldPointsTo ≠ ∅) (hsettled : v'.Settled m a noLinks set curr) :
    Stable m a v' := by
  refine discharge h hcurr hsettled ?_ fun hempty => absurd (hsame.old.symm.trans hempty) hne
  exact hsame.pointsTo.imp_left fun heq => by rw [heq, hall, hsame.old]

/-- The invariant when a node has been taken, and owes what its changed members demand. -/
theorem taken_spec {owed : Nat → Prop} (h : Stable m a s.view)
    (hpop : W.pop s.currWL = some (x, queue)) (hset : set ⊆ (s.graphNodes x.node).pointsTo)
    (howed : owed x.node) (hlinks : set ≠ ∅ → ∀ t, s.sdt x.node = some t → owed t) :
    Invariant m a owed noLinks (fun n => if n = x.node then set else ∅)
      (taken x.node set { s with currWL := queue }).view := by
  obtain ⟨hgraph, hwaiting, hothers, hold⟩ := @taken_view _ _ _ _ x.node set hpop
  refine Stable.take h hgraph (fun y hy hne => ?_) (fun n hn => ?_) hold hset howed hlinks
  · exact (hwaiting y hy).resolve_left fun heq => hne (congrArg WorkListElement.node heq)
  · exact ⟨congrArg GraphNode.oldPointsTo (hothers n hn),
      congrArg GraphNode.timestamp (hothers n hn)⟩

theorem taken_empty (s : State W) : taken curr ∅ s = s.stamp curr := by
  simp [taken, State.modify, State.stamp]

/-- The loop body, with what it changes first put together. -/
theorem processNode_eq (s : State W) (hset : (s.graphNodes curr).pointsTo \
    (s.graphNodes curr).oldPointsTo = set) :
    processNode m a curr s =
      if set = ∅ then some (taken curr set s)
      else match s.sdt curr with
        | none => some (propagate m a curr set none (taken curr set s))
        | some t =>
          (collapse set.sort { rep := (findNode t (taken curr set s)).1 }
            (findNode t (taken curr set s)).2).bind fun (c, s) =>
            some (if (s.insertNext c.rep).isRep curr then
              propagate m a curr set (some c.rsv) (s.insertNext c.rep)
              else s.insertNext c.rep) := by
  have hnode : (((s.stamp curr).graphNodes curr).pointsTo \
      ((s.stamp curr).graphNodes curr).oldPointsTo) = set := by
    rw [← hset]
    simp [State.stamp, State.modify]
  unfold processNode
  dsimp only
  rw [hnode]
  by_cases hempty : set = ∅
  · rw [if_pos hempty, if_pos hempty, hempty, taken_empty]
  · rw [if_neg hempty, if_neg hempty]
    rfl

/-- What stays of the invariant when nodes are united and settled. -/
theorem Solving.of_ext (h : Solving m a cs s) (hstable : Stable m a s'.view)
    (hext : Extends s.view noLinks s'.view noLinks)
    (hstack : ∀ x ∈ s'.sccStack, x ∈ s.sccStack ∨ numberSpecialNodes ≤ x)
    (hcandidates : ∀ x ∈ s'.tarjanWL, x ∈ s.tarjanWL ∨ numberSpecialNodes ≤ x) :
    Solving m a cs s' where
  stable := hstable
  represented c hc := hext.represented (h.represented c hc)
  stack x hx := (hstack x hx).elim (h.stack x) id
  candidates x hx := (hcandidates x hx).elim (h.candidates x) id

/-- The state when the members are united, and the node that stands for them is queued. -/
structure Collapsed (m : Module) (a : Graph) (s : State W) (curr : Nat) (set : Finset Nat)
    (nodes : List Nat) (s' : State W) : Prop where
  step : Step Nobody noLinks s.view s'.view
  invariant : Invariant m a (· = curr) noLinks (fun n => if n = curr then set else ∅) s'.view
  gathered : s'.view.rep curr = curr → Gathered s'.view curr set nodes
  stack : s'.sccStack = s.sccStack
  candidates : s'.tarjanWL = s.tarjanWL

theorem collapsed_of_collapse {c : Collapse}
    (h : Invariant m a (fun o => o = curr ∨ s.sdt curr = some o) noLinks
      (fun n => if n = curr then set else ∅) s.view)
    (hcurr : s.view.rep curr = curr) (hsdt : s.sdt curr = some t)
    (hcollapse : collapse set.sort { rep := (findNode t s).1 } (findNode t s).2 = some (c, s')) :
    Collapsed m a s curr set c.rsv (s'.insertNext c.rep) := by
  have ht : numberSpecialNodes ≤ s.view.rep t := h.proper.sdt hcurr hsdt
  have hcollapsing : Collapsing s t (set.sort.reverse ++ []) c s' := by
    refine collapse_spec hcollapse ⟨?_, frame_findNode, ?_, by simp, by simp⟩ ht
    · rw [view_findNode]
      exact .refl h.proper
    · rw [view_findNode, findNode_fst]
  obtain ⟨hqueue, hqueued⟩ := @step_insertNext _ _ c.rep noLinks (· = t) hcollapsing.step.proper
  have hrep : (s'.insertNext c.rep).view.rep t = c.rep := hcollapsing.rep
  have hcovered : (s'.insertNext c.rep).view.Covered (· = curr) noLinks t :=
    .queued (by rwa [hrep])
  have hstep : Step Nobody noLinks s.view (s'.insertNext c.rep).view := by
    refine (hcollapsing.step.trans hqueue).mono fun {o} ho => .queued ?_
    rwa [ho, hrep]
  refine ⟨hstep, (h.step hstep False.elim).mono fun {o} ho => ?_, fun hcurr' => ?_,
    congrArg (fun f => f.2.sccStack) hcollapsing.frame,
    congrArg (fun f => f.2.tarjanWL) hcollapsing.frame⟩
  · obtain rfl | ho := ho
    · exact .owed rfl rfl
    · exact Option.some.inj (hsdt.symm.trans ho) ▸ hcovered
  · have hlink : (s'.insertNext c.rep).view.Link noLinks curr t :=
      hstep.ext.link (.inl ⟨t, hcurr.symm ▸ hsdt, rfl⟩)
    obtain ⟨t', ht', heq⟩ | ⟨_, _, hfalse, -⟩ := hlink
    · rw [hcurr'] at ht'
      have hdone : ∀ y ∈ set, y ∈ set.sort.reverse ++ [] := fun y hy =>
        List.mem_append_left _ (List.mem_reverse.mpr ((Finset.mem_sort _).mpr hy))
      obtain ⟨hreps, hmembers, hlinked⟩ := hcollapsing.gathered ht hdone ⟨t', ht', heq⟩
      exact ⟨hreps, hmembers, hlinked⟩
    · exact hfalse.elim

/-- What the step of one node keeps. -/
structure Processed (m : Module) (a : Graph) (s s' : State W) : Prop where
  stable : Stable m a s'.view
  ext : Extends s.view noLinks s'.view noLinks
  stack : s'.sccStack = s.sccStack
  candidates : ∀ y ∈ s'.tarjanWL, y ∈ s.tarjanWL ∨ numberSpecialNodes ≤ y

/-- If the node still is a representative, it is settled like any other. -/
theorem Collapsed.propagate {nodes : List Nat} {s₁ : State W}
    (h : Collapsed m a s curr set nodes s₁) (hcurr : s₁.view.rep curr = curr)
    (hall : (s.graphNodes curr).pointsTo = (s.graphNodes curr).oldPointsTo)
    (hne : (s.graphNodes curr).oldPointsTo ≠ ∅)
    (hrun : propagate m a curr set (some nodes) s₁ = s') : Processed m a s s' := by
  have hgathered := h.gathered hcurr
  have hcollapsed : ∀ {u}, s₁.sdt curr = some u →
      ∀ y ∈ set, s₁.view.rep y = s₁.view.rep u ∨ s₁.view.rep y < numberSpecialNodes := by
    intro u hu y hy
    obtain ⟨t, ht, -, hmembers⟩ := hgathered.linked
    obtain rfl : t = u := Option.some.inj (ht.symm.trans hu)
    exact hmembers y hy
  obtain ⟨hcalm, hsettled⟩ := @propagate_spec _ m a _ set _ (some nodes) h.step.proper hcurr
    (by simpa using hgathered) hcollapsed
  rw [hrun] at hcalm hsettled
  refine ⟨?_, h.step.ext.trans (hcalm.ext noLinks), hcalm.stack.trans h.stack, ?_⟩
  · have hcurr' : s'.view.rep curr = curr := by rw [hcalm.rep, hcurr]
    obtain hsame | ⟨hold, hcovered⟩ := h.step.nodes hcurr
    · exact finish (h.invariant.step hcalm.step id)
        (hsame.trans (hcalm.nodes hcurr) hcurr h.step.ext (hcalm.ext noLinks) hcurr'
          hcalm.waiting) hcurr' hall hne hsettled
    · exact (abandon h.invariant (fun _ => hold) hcovered).step hcalm.step id
  · rw [← h.candidates]
    exact hcalm.candidates

/-- If it was united with another, that node covers it. -/
theorem Collapsed.skip {nodes : List Nat} (h : Collapsed m a s curr set nodes s')
    (hcurr : s.view.rep curr = curr) (hne : s'.view.rep curr ≠ curr) : Processed m a s s' := by
  refine ⟨abandon h.invariant (fun heq => absurd heq hne) ?_, h.step.ext, h.stack, ?_⟩
  · obtain hsame | ⟨-, hcovered⟩ := h.step.nodes (h.step.proper.rep_rep curr)
    · exact absurd (hcurr.symm.trans (hsame.members rfl)).symm hne
    · exact hcovered.congr (h.step.proper.rep_rep curr)
  · rw [h.candidates]
    exact fun y => .inl

/-- Without an entry in `SDT`. -/
theorem propagate_none
    (h : Invariant m a (· = curr) noLinks (fun n => if n = curr then set else ∅) s.view)
    (hcurr : s.view.rep curr = curr) (hsdt : s.sdt curr = none)
    (hall : (s.graphNodes curr).pointsTo = (s.graphNodes curr).oldPointsTo)
    (hne : (s.graphNodes curr).oldPointsTo ≠ ∅)
    (hrun : propagate m a curr set none s = s') : Processed m a s s' := by
  obtain ⟨hcalm, hsettled⟩ := @propagate_spec _ m a _ set _ none h.proper hcurr (by simp)
    fun ht => absurd (hsdt.symm.trans ht) nofun
  rw [hrun] at hcalm hsettled
  have hcurr' : s'.view.rep curr = curr := by rw [hcalm.rep, hcurr]
  exact ⟨finish (h.step hcalm.step id) (hcalm.nodes hcurr) hcurr' hall hne hsettled,
    hcalm.ext noLinks, hcalm.stack, hcalm.candidates⟩

/-- One turn of the inner loop. -/
theorem processNode_spec (h : Solving m a cs s) (hpop : W.pop s.currWL = some (x, queue))
    (hcurr : s.view.rep x.node = x.node)
    (hrun : processNode m a x.node { s with currWL := queue } = some s') :
    Solving m a cs s' := by
  obtain ⟨set, hset⟩ : ∃ set, (s.graphNodes x.node).pointsTo \
    (s.graphNodes x.node).oldPointsTo = set := ⟨_, rfl⟩
  rw [processNode_eq { s with currWL := queue } hset] at hrun
  obtain ⟨hgraph, -, -, hold⟩ := @taken_view _ _ _ _ x.node set hpop
  have hsub : set ⊆ (s.graphNodes x.node).pointsTo := hset ▸ Finset.sdiff_subset
  have hall : ((taken x.node set { s with currWL := queue }).graphNodes x.node).pointsTo =
      ((taken x.node set { s with currWL := queue }).graphNodes x.node).oldPointsTo := by
    refine (hgraph.nodes x.node).2.1.trans ?_
    rw [hold, ← hset]
    exact (Finset.union_sdiff_of_subset (h.stable.proper.old x.node)).symm
  have hne : set ≠ ∅ →
      ((taken x.node set { s with currWL := queue }).graphNodes x.node).oldPointsTo ≠ ∅ := by
    rw [hold]
    exact fun hne hempty => hne (Finset.union_eq_empty.mp hempty).2
  have hprocessed : Processed m a (taken x.node set { s with currWL := queue }) s' := by
    split at hrun
    · rename_i hempty
      obtain rfl := Option.some.inj hrun
      refine ⟨?_, .refl, rfl, fun y => .inl⟩
      have htaken := @taken_spec _ m a _ _ _ _ (· = x.node) h.stable hpop hsub rfl
        fun hne => absurd hempty hne
      refine discharge htaken hcurr (hempty ▸ .empty) (.inl hall) fun hempty => ?_
      exact hall.trans hempty
    · rename_i hnonempty
      cases hsdt : s.sdt x.node with
      | none =>
        rw [hsdt] at hrun
        have htaken := @taken_spec _ m a _ _ _ _ (· = x.node) h.stable hpop hsub rfl
          fun _ t ht => absurd (hsdt.symm.trans ht) nofun
        exact propagate_none htaken hcurr hsdt hall (hne hnonempty) (Option.some.inj hrun)
      | some t =>
        rw [hsdt] at hrun
        obtain ⟨⟨c, s₁⟩, hcollapse, hrun⟩ := Option.bind_eq_some_iff.mp hrun
        have htaken := @taken_spec _ m a _ _ _ _ (fun o => o = x.node ∨ s.sdt x.node = some o)
          h.stable hpop hsub (.inl rfl) fun _ t ht => .inr ht
        have hcollapsed := collapsed_of_collapse
          (s := taken x.node set { s with currWL := queue }) htaken hcurr hsdt hcollapse
        obtain rfl := Option.some.inj hrun
        split
        · rename_i hisRep
          exact hcollapsed.propagate (isRep_iff.mp hisRep) hall (hne hnonempty) rfl
        · rename_i hisRep
          exact hcollapsed.skip hcurr fun heq => hisRep (isRep_iff.mpr heq)
  exact h.of_ext hprocessed.stable (hgraph.ext.trans hprocessed.ext)
    (fun y hy => .inl (hprocessed.stack ▸ hy)) hprocessed.candidates

end Processing

end Lockout.Andersens.Solver
