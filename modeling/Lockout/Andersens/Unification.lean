import Lockout.Andersens.Progress

/-! # Union-find while the constraints are solved

`FindNode` changes nothing that the representatives show. `UniteNodes` gives one of two nodes
the data of the other, and may go on with the nodes that `SDT` links them with: those are
reset without being put on a work list, and wait for the first node. -/

namespace Lockout.Andersens.Solver
open Batteries (UnionFind)
open Lockout.Andersens.Objects Lockout.Andersens.Slots Lockout.Andersens.Progress
open Lockout.Andersens.Progress.View

/-! ## Union-find -/

section Reps
variable {u u' : UnionFind} {i j a b first second : Nat}

theorem findD_spec (u : UnionFind) (i : Nat) : (u.findD i).2 = u.rootD i ∧
    (u.findD i).1.size = u.size ∧ ∀ j, (u.findD i).1.rootD j = u.rootD j := by
  unfold UnionFind.findD
  split
  · rename_i hi
    exact ⟨u.find_root_2 ⟨i, hi⟩, u.find_size ⟨i, hi⟩, u.find_root_1 ⟨i, hi⟩⟩
  · rename_i hi
    refine ⟨?_, rfl, fun _ => rfl⟩
    rw [UnionFind.rootD, dif_neg hi]

theorem byRank_cases (h : byRank u a b = (first, second)) :
    first = a ∧ second = b ∨ first = b ∧ second = a := by
  unfold byRank at h
  split at h
  · obtain ⟨rfl, rfl⟩ := Prod.mk.inj h
    exact .inr ⟨rfl, rfl⟩
  · obtain ⟨rfl, rfl⟩ := Prod.mk.inj h
    exact .inl ⟨rfl, rfl⟩

theorem linkReps_spec (h : linkReps u a b = some u') :
    (a < u.size ∧ b < u.size) ∧ u.rootD a = a ∧ u.rootD b = b ∧ u'.size = u.size := by
  unfold linkReps at h
  split at h
  · rename_i hroots
    obtain ⟨hsize, ha, hb⟩ := hroots
    obtain rfl := Option.some.inj h
    exact ⟨hsize, UnionFind.rootD_eq_self.mpr ha, UnionFind.rootD_eq_self.mpr hb,
      UnionFind.linkAux_size⟩
  · simp at h

/-- The node of the lower rank gets the other as its representative. -/
theorem rootD_linkReps (h : linkReps u a b = some u') (hne : a ≠ b)
    (hrank : byRank u a b = (first, second)) :
    u'.rootD i = if u.rootD i = second then first else u.rootD i := by
  unfold linkReps at h
  split at h
  · rename_i hroots
    obtain ⟨⟨hsa, hsb⟩, ha, hb⟩ := hroots
    obtain rfl := Option.some.inj h
    obtain ⟨r, -, hr⟩ := @UnionFind.root_link u ⟨b, hsb⟩ ⟨a, hsa⟩ hb ha
    have hfirst : (u.link ⟨b, hsb⟩ ⟨a, hsa⟩ ha).rootD first = first := by
      rw [UnionFind.rootD_eq_self, UnionFind.parent_link, if_neg hne.symm]
      unfold byRank at hrank
      split at hrank
      · rename_i hlt
        obtain ⟨rfl, rfl⟩ := Prod.mk.inj hrank
        rw [if_pos hlt, if_neg hne]
        exact hb
      · rename_i hle
        obtain ⟨rfl, rfl⟩ := Prod.mk.inj hrank
        rw [if_neg hle, if_neg hne.symm]
        exact ha
    have hroot : u.rootD first = first := by
      obtain ⟨rfl, -⟩ | ⟨rfl, -⟩ := byRank_cases hrank
      · exact UnionFind.rootD_eq_self.mpr ha
      · exact UnionFind.rootD_eq_self.mpr hb
    have hends : ∀ k, (k = b ∨ k = a) ↔ (k = second ∨ k = first) := by
      obtain ⟨rfl, rfl⟩ | ⟨rfl, rfl⟩ := byRank_cases hrank
      · exact fun k => Iff.rfl
      · exact fun k => or_comm
    rw [hr, hroot, if_pos ((hends first).mpr (.inr rfl))] at hfirst
    rw [hr, hfirst]
    simp only [hends]
    by_cases hsecond : u.rootD i = second
    · rw [if_pos (.inl hsecond), if_pos hsecond]
    · rw [if_neg hsecond]
      by_cases heq : u.rootD i = first
      · rw [if_pos (.inr heq), heq]
      · rw [if_neg (by simp [hsecond, heq])]
  · simp at h

end Reps

/-! ## States up to the representatives -/

section Views
variable {W : WorkList} {s s' : State W} {v : View} {links : Links} {i j n first second : Nat}

def State.view (s : State W) : View where
  rep := s.reps.rootD
  nodes := s.graphNodes
  sdt := s.sdt
  waiting := W.elems s.currWL + W.elems s.nextWL

theorem isRep_iff : s.isRep i = true ↔ s.view.rep i = i := by
  rw [State.isRep, decide_eq_true_eq]
  exact UnionFind.rootD_eq_self.symm

theorem findNode_fst : (findNode i s).1 = s.view.rep i := (findD_spec s.reps i).1

theorem view_findNode : (findNode i s).2.view = s.view := by
  have hreps : (s.reps.findD i).1.rootD = s.reps.rootD := funext (findD_spec s.reps i).2.2
  simp only [findNode, State.view, hreps]

/-- All but the nodes, their representatives and `SDT`. -/
def State.frame (s : State W) : Nat × State W :=
  (s.size, { s with graphNodes := fun _ => {}, reps := .empty, sdt := fun _ => none })

theorem frame_findNode : (findNode i s).2.frame = s.frame := by
  have hsize : (findNode i s).2.size = s.size := (findD_spec s.reps i).2.1
  unfold State.frame
  rw [hsize]
  rfl

/-- As long as no nodes are united, no set shrinks. -/
structure Grows (s s' : State W) : Prop where
  size : s'.size = s.size
  currWL : s'.currWL = s.currWL
  reps : ∀ {i}, s'.view.rep i = i → s.view.rep i = i
  sets : (∀ i, s.view.rep i = i → s'.view.rep i = i) → ∀ i,
    (s.graphNodes i).pointsTo ⊆ (s'.graphNodes i).pointsTo ∧
      (s.graphNodes i).oldPointsTo ⊆ (s'.graphNodes i).oldPointsTo
  sdt : (∀ i, s.sdt i = none) → ∀ i, s'.sdt i = none

namespace Grows

theorem of_rep (hsize : s'.size = s.size) (hcurrWL : s'.currWL = s.currWL)
    (hrep : s'.view.rep = s.view.rep) (hsdt : s'.sdt = s.sdt) (hsets : ∀ i,
      (s.graphNodes i).pointsTo ⊆ (s'.graphNodes i).pointsTo ∧
        (s.graphNodes i).oldPointsTo ⊆ (s'.graphNodes i).oldPointsTo) : Grows s s' where
  size := hsize
  currWL := hcurrWL
  reps hi := by rwa [hrep] at hi
  sets _ := hsets
  sdt hnone := by rwa [hsdt]

theorem of_nodes (hsize : s'.size = s.size) (hcurrWL : s'.currWL = s.currWL)
    (hrep : s'.view.rep = s.view.rep) (hsdt : s'.sdt = s.sdt)
    (hnodes : s'.graphNodes = s.graphNodes) : Grows s s' :=
  .of_rep hsize hcurrWL hrep hsdt fun i => by
    rw [hnodes]
    exact ⟨Finset.Subset.refl _, Finset.Subset.refl _⟩

theorem of_frame (hframe : s'.frame = s.frame) (hview : s'.view = s.view) : Grows s s' :=
  .of_nodes (congrArg Prod.fst hframe) (congrArg (fun f => f.2.currWL) hframe)
    (congrArg View.rep hview) (congrArg View.sdt hview) (congrArg View.nodes hview)

theorem refl : Grows s s := .of_nodes rfl rfl rfl rfl rfl

theorem trans {s'' : State W} (h : Grows s s') (h' : Grows s' s'') : Grows s s'' where
  size := h'.size.trans h.size
  currWL := h'.currWL.trans h.currWL
  reps hi := h.reps (h'.reps hi)
  sets hreps i := by
    have hsets := h.sets (fun k hk => h'.reps (hreps k hk)) i
    have hsets' := h'.sets (fun k hk => hreps k (h.reps hk)) i
    exact ⟨hsets.1.trans hsets'.1, hsets.2.trans hsets'.2⟩
  sdt hnone := h'.sdt (h.sdt hnone)

theorem findNode (i : Nat) : Grows s (findNode i s).2 :=
  .of_frame frame_findNode view_findNode

end Grows

/-- `second` is united with `first`. -/
def merge (v : View) (first second : Nat) : View where
  rep i := if v.rep i = second then first else v.rep i
  nodes := Function.update
    (Function.update v.nodes second { timestamp := (v.nodes second).timestamp }) first
    { edges := (v.nodes first).edges ∪ (v.nodes second).edges
      pointsTo := if numberSpecialNodes ≤ first then
        (v.nodes first).pointsTo ∪ (v.nodes second).pointsTo else (v.nodes first).pointsTo
      constraints := (v.nodes second).constraints ++ (v.nodes first).constraints
      timestamp := (v.nodes first).timestamp }
  sdt := v.sdt
  waiting := v.waiting

/-- Two representatives. -/
structure Mergeable (v : View) (first second : Nat) : Prop where
  rep_rep : ∀ i, v.rep (v.rep i) = v.rep i
  rep_first : v.rep first = first
  rep_second : v.rep second = second
  ne : first ≠ second

/-- The link of the second node, which may have to be given to the first. -/
def pending (links : Links) (v : View) (first second : Nat) : Links := fun x y =>
  links x y ∨ x = first ∧ v.sdt second = some y

section Merging

theorem merge_rep (hij : v.rep i = v.rep j) :
    (merge v first second).rep i = (merge v first second).rep j := by
  simp only [merge, hij]

theorem merge_nodes_first : (merge v first second).nodes first =
    { edges := (v.nodes first).edges ∪ (v.nodes second).edges
      pointsTo := if numberSpecialNodes ≤ first then
        (v.nodes first).pointsTo ∪ (v.nodes second).pointsTo else (v.nodes first).pointsTo
      constraints := (v.nodes second).constraints ++ (v.nodes first).constraints
      timestamp := (v.nodes first).timestamp } :=
  Function.update_self ..

theorem merge_nodes (hn : n ≠ first) (hn' : n ≠ second) :
    (merge v first second).nodes n = v.nodes n :=
  (Function.update_of_ne hn ..).trans (Function.update_of_ne hn' ..)

/-- Where the data of a node goes. -/
theorem merge_nodes_rep (i : Nat) :
    (v.nodes (v.rep i)).edges ⊆
        ((merge v first second).nodes ((merge v first second).rep i)).edges ∧
      (v.nodes (v.rep i)).constraints ⊆
        ((merge v first second).nodes ((merge v first second).rep i)).constraints ∧
      (v.pointsTo i ⊆ (merge v first second).pointsTo i ∨
        first < numberSpecialNodes ∧ v.rep i = second) := by
  have hfirst_subset : (v.nodes first).pointsTo ⊆ if numberSpecialNodes ≤ first then
      (v.nodes first).pointsTo ∪ (v.nodes second).pointsTo else (v.nodes first).pointsTo := by
    split
    · exact Finset.subset_union_left
    · exact Finset.Subset.refl _
  unfold View.pointsTo
  by_cases hsecond : v.rep i = second
  · have hrep : (merge v first second).rep i = first := if_pos hsecond
    rw [hrep, merge_nodes_first, hsecond]
    refine ⟨Finset.subset_union_right, List.subset_append_left _ _, ?_⟩
    by_cases hspecial : numberSpecialNodes ≤ first
    · left
      rw [if_pos hspecial]
      exact Finset.subset_union_right
    · exact .inr ⟨Nat.lt_of_not_le hspecial, rfl⟩
  · have hrep : (merge v first second).rep i = v.rep i := if_neg hsecond
    rw [hrep]
    by_cases hfirst : v.rep i = first
    · rw [hfirst, merge_nodes_first]
      exact ⟨Finset.subset_union_left, List.subset_append_right _ _, .inl hfirst_subset⟩
    · rw [merge_nodes hfirst hsecond]
      exact ⟨Finset.Subset.refl _, List.Subset.refl _, .inl (Finset.Subset.refl _)⟩

theorem merge_connected (hij : v.Connected i j) : (merge v first second).Connected i j := by
  obtain heq | ⟨e, he, heq⟩ := hij
  · exact .inl (merge_rep heq)
  · exact .inr ⟨e, (merge_nodes_rep i).1 he, merge_rep heq⟩

/-- A representative other than `first` is as it was. -/
theorem merge_members (hn : (merge v first second).rep n = n) (hfirst : n ≠ first) :
    n ≠ second ∧ ∀ {j}, (merge v first second).rep j = n → v.rep j = n := by
  have hmembers : ∀ {j}, (merge v first second).rep j = n → v.rep j = n := by
    intro j hj
    by_cases hsecond : v.rep j = second
    · have hrep : (merge v first second).rep j = first := if_pos hsecond
      exact absurd (hj.symm.trans hrep) hfirst
    · exact (if_neg hsecond).symm.trans hj
  refine ⟨fun hsecond => hfirst ?_, hmembers⟩
  have hrep : (merge v first second).rep n = first :=
    if_pos ((hmembers hn).trans hsecond)
  exact hn.symm.trans hrep

theorem sameNode_merge {sdt : Nat → Option Nat} (hsdt : ∀ {n}, n ≠ first → sdt n = v.sdt n)
    (hn : (merge v first second).rep n = n) (hfirst : n ≠ first) :
    SameNode v { merge v first second with sdt } n := by
  obtain ⟨hsecond, hmembers⟩ := merge_members hn hfirst
  have hnodes : (merge v first second).nodes n = v.nodes n := merge_nodes hfirst hsecond
  refine
    { members := hmembers
      old := congrArg GraphNode.oldPointsTo hnodes
      timestamp := congrArg GraphNode.timestamp hnodes
      sdt := hsdt hfirst
      pointsTo := .inl (congrArg GraphNode.pointsTo hnodes)
      edges := fun e he => .inr (.inl ⟨e, ?_, rfl⟩)
      constraints := fun c hc => ⟨c, ?_, .refl⟩ }
  · exact hnodes ▸ he
  · exact hnodes ▸ hc

variable (h : Mergeable v first second)
include h

theorem merge_rep_first : (merge v first second).rep first = first := by
  simp [merge, h.rep_first]

/-- No link is lost if the pending one is added. -/
theorem merge_link (hij : v.Link links i j) :
    (merge v first second).Link (pending links v first second) i j := by
  obtain ⟨t, ht, htarget⟩ | ⟨x, y, hxy, hx, hy⟩ := hij
  · by_cases hsecond : v.rep i = second
    · have hrep : (merge v first second).rep i = first := if_pos hsecond
      exact .inr ⟨first, t, .inr ⟨rfl, hsecond ▸ ht⟩, (merge_rep_first h).trans hrep.symm,
        merge_rep htarget⟩
    · have hrep : (merge v first second).rep i = v.rep i := if_neg hsecond
      exact .inl ⟨t, by rw [hrep]; exact ht, merge_rep htarget⟩
  · exact .inr ⟨x, y, .inl hxy, merge_rep hx, merge_rep hy⟩

theorem contains_merge {sdt : Nat → Option Nat} {links' : Links}
    (hlink : ∀ {i j}, (merge v first second).Link (pending links v first second) i j →
      View.Link { merge v first second with sdt } links' i j) :
    Contains v links { merge v first second with sdt } links' where
  rep := merge_rep
  connected := merge_connected
  link hij := hlink (merge_link h hij)
  kept hc := .inl ⟨_, (merge_nodes_rep _).2.1 hc, .refl⟩

theorem merge_special (i : Nat) : v.pointsTo i ⊆ (merge v first second).pointsTo i ∨
    (merge v first second).Special i := by
  refine (merge_nodes_rep i).2.2.imp_right fun ⟨hlt, hi⟩ => ⟨first, hlt, ?_, ?_⟩
  · rintro rfl
    exact h.ne (h.rep_first.symm.trans hi)
  · rw [merge_rep_first h]
    exact (if_pos hi).symm

theorem merge_rep_self (hn : (merge v first second).rep n = n) : v.rep n = n := by
  by_cases hfirst : n = first
  · rw [hfirst, h.rep_first]
  · exact (merge_members hn hfirst).2 hn

section Special
variable (hproper : v.Proper) (hfirst : numberSpecialNodes ≤ first)
  (hsecond : numberSpecialNodes ≤ second)

omit h in
include hfirst in
theorem merge_le (hi : numberSpecialNodes ≤ v.rep i) :
    numberSpecialNodes ≤ (merge v first second).rep i := by
  simp only [merge]
  split
  · exact hfirst
  · exact hi

include hproper hfirst in
theorem merge_proper : (merge v first second).Proper where
  rep_rep i := by
    by_cases hi : v.rep i = second
    · have hrep : (merge v first second).rep i = first := if_pos hi
      rw [hrep, merge_rep_first h]
    · have hrep : (merge v first second).rep i = v.rep i := if_neg hi
      rw [hrep]
      simp [merge, h.rep_rep, hi]
  edges {n e} he := by
    have hrep : ∀ {k}, e ∈ (v.nodes k).edges → numberSpecialNodes ≤ (merge v first second).rep e ∨
        v.rep e = k := fun he => (hproper.edges he).imp_left (merge_le hfirst)
    by_cases hn : n = first
    · rw [hn, merge_nodes_first] at he
      rw [hn]
      obtain he | he := Finset.mem_union.mp he
      · exact (hrep he).imp_right fun heq => (if_neg (heq ▸ h.ne)).trans heq
      · exact (hrep he).imp_right fun heq => if_pos heq
    · by_cases hn' : n = second
      · simp [merge, hn', h.ne.symm] at he
      · rw [merge_nodes hn hn'] at he
        exact (hrep he).imp_right fun heq => (if_neg (heq ▸ hn')).trans heq
  loads {n c} hc hload := by
    refine merge_le hfirst ?_
    by_cases hn : n = first
    · rw [hn, merge_nodes_first] at hc
      exact (List.mem_append.mp hc).elim (hproper.loads · hload) (hproper.loads · hload)
    · by_cases hn' : n = second
      · simp [merge, hn', h.ne.symm] at hc
      · rw [merge_nodes hn hn'] at hc
        exact hproper.loads hc hload
  sdt hn ht := merge_le hfirst (hproper.sdt (merge_rep_self h hn) ht)
  old n := by
    by_cases hn : n = first
    · rw [hn, merge_nodes_first]
      exact Finset.empty_subset _
    · by_cases hn' : n = second
      · simp [merge, hn', h.ne.symm]
      · rw [merge_nodes hn hn']
        exact hproper.old n

include hfirst hsecond in
theorem extends_merge {sdt : Nat → Option Nat} {links' : Links}
    (hlink : ∀ {i j}, (merge v first second).Link (pending links v first second) i j →
      View.Link { merge v first second with sdt } links' i j) :
    Extends v links { merge v first second with sdt } links' where
  toContains := contains_merge h hlink
  pointsTo i := (merge_nodes_rep i).2.2.resolve_right fun ⟨hlt, _⟩ =>
    absurd hlt (Nat.not_lt.mpr hfirst)
  special i := by
    by_cases hi : v.rep i = second
    · exact .inr ⟨by rwa [hi], merge_le hfirst (by rwa [hi])⟩
    · exact .inl (if_neg hi)

include hproper hfirst hsecond in
/-- The nodes are united, and the link of the second is kept in one way or another. -/
theorem step_merge {sdt : Nat → Option Nat} (hsdt : ∀ {n}, n ≠ first → sdt n = v.sdt n)
    (hsdt' : ∀ {n t}, (merge v first second).rep n = n →
      sdt n = some t → numberSpecialNodes ≤ (merge v first second).rep t)
    (hlink : ∀ {i j}, (merge v first second).Link (pending links v first second) i j →
      View.Link { merge v first second with sdt } links i j) :
    Step (· = first) links v { merge v first second with sdt } where
  proper := { merge_proper h hproper hfirst with sdt := hsdt' }
  ext := extends_merge h hfirst hsecond hlink
  waiting := fun _ hx => hx
  nodes {n} hn := by
    by_cases hn' : n = first
    · subst hn'
      exact .inr ⟨congrArg GraphNode.oldPointsTo merge_nodes_first, .owed rfl rfl⟩
    · exact .inl (sameNode_merge hsdt hn hn')

end Special

end Merging

/-! ## `UniteNodes` -/

theorem view_mergeNodes {reps : UnionFind} (hreps : linkReps s.reps i j = some reps)
    (hne : i ≠ j) (hrank : byRank s.reps i j = (first, second)) :
    (mergeNodes first second { s with reps }).view = merge s.view first second := by
  have hrep : reps.rootD = fun k => if s.reps.rootD k = second then first else s.reps.rootD k :=
    funext fun _ => rootD_linkReps hreps hne hrank
  simp only [State.view, mergeNodes, merge, hrep]
  rfl

/-- A node with an entry in `SDT` has constraints. -/
def Listed (v : View) : Prop :=
  ∀ {n t}, v.rep n = n → v.sdt n = some t → (v.nodes n).constraints ≠ []

/-- What a union leaves, whatever else is linked. -/
structure United (a b : Nat) (s : State W) (r : Nat) (s' : State W) : Prop where
  contains : ∀ links, Contains s.view links s'.view links
  left : s'.view.rep a = r
  right : s'.view.rep b = r
  frame : s'.frame = s.frame
  listed : Listed s.view → Listed s'.view
  grows : Grows s s'
  outside : ∀ {n}, s.size ≤ n → s'.graphNodes n = s.graphNodes n
  fresh : (∀ n, (s.graphNodes n).oldPointsTo = ∅) → ∀ n, (s'.graphNodes n).oldPointsTo = ∅
  /-- Only a special node does not take over the members. -/
  members : ∀ i, s.view.pointsTo i ⊆ s'.view.pointsTo i ∨ s'.view.Special i
  step : s.view.Proper → numberSpecialNodes ≤ a → numberSpecialNodes ≤ b →
    ∀ links, Step (· = a) links s.view s'.view

/-- Path compression does not matter. -/
theorem United.congr {a b r : Nat} {t t' : State W} (h : United a b s r s')
    (hs : s.view = t.view) (hframe : s.frame = t.frame) (hs' : s'.view = t'.view)
    (hframe' : s'.frame = t'.frame) : United a b t r t' where
  contains links := hs ▸ hs' ▸ h.contains links
  left := hs' ▸ h.left
  right := hs' ▸ h.right
  frame := hframe'.symm.trans (h.frame.trans hframe)
  listed := hs ▸ hs' ▸ h.listed
  grows := by
    have hback : Grows t s := .of_frame hframe hs
    have hforth : Grows s' t' := .of_frame hframe'.symm hs'.symm
    exact hback.trans (h.grows.trans hforth)
  outside {n} hn := by
    have hsize : s.size = t.size := congrArg Prod.fst hframe
    have hnodes : s'.graphNodes = t'.graphNodes := congrArg View.nodes hs'
    have hnodes₀ : s.graphNodes = t.graphNodes := congrArg View.nodes hs
    rw [← hnodes, ← hnodes₀]
    exact h.outside (hsize ▸ hn)
  fresh hold n := by
    have hnodes : s'.graphNodes = t'.graphNodes := congrArg View.nodes hs'
    have hnodes₀ : s.graphNodes = t.graphNodes := congrArg View.nodes hs
    rw [← hnodes]
    exact h.fresh (hnodes₀ ▸ hold) n
  members := hs ▸ hs' ▸ h.members
  step := hs ▸ hs' ▸ h.step

section Uniting
variable {a b : Nat} {sdt : Nat → Option Nat} (hmerge : Mergeable s.view first second)
  (hends : first = a ∧ second = b ∨ first = b ∧ second = a)
  (hsize : a < s.size ∧ b < s.size)
include hmerge hends

theorem merge_ends :
    (merge s.view first second).rep a = first ∧ (merge s.view first second).rep b = first := by
  have hsecond : (merge s.view first second).rep second = first := if_pos hmerge.rep_second
  obtain ⟨rfl, rfl⟩ | ⟨rfl, rfl⟩ := hends
  · exact ⟨merge_rep_first hmerge, hsecond⟩
  · exact ⟨hsecond, merge_rep_first hmerge⟩

omit hends in
theorem listed_merge (hsdt : ∀ {n}, n ≠ first → sdt n = s.sdt n)
    (hfirst : ∀ {t}, sdt first = some t → s.sdt first ≠ none ∨ s.sdt second ≠ none)
    (h : Listed s.view) : Listed { merge s.view first second with sdt } := by
  intro n t hn ht
  by_cases hne : n = first
  · subst hne
    have hlist : ((merge s.view n second).nodes n).constraints =
        (s.graphNodes second).constraints ++ (s.graphNodes n).constraints :=
      congrArg GraphNode.constraints merge_nodes_first
    intro hnil
    obtain ⟨hnil₂, hnil₁⟩ := List.append_eq_nil_iff.mp (hlist.symm.trans hnil)
    obtain hsome | hsome := hfirst ht
    · obtain ⟨t', ht'⟩ := Option.ne_none_iff_exists'.mp hsome
      exact h hmerge.rep_first ht' hnil₁
    · obtain ⟨t', ht'⟩ := Option.ne_none_iff_exists'.mp hsome
      exact h hmerge.rep_second ht' hnil₂
  · obtain ⟨hsecond, hmembers⟩ := merge_members hn hne
    have hnodes : (merge s.view first second).nodes n = s.view.nodes n := merge_nodes hne hsecond
    change ((merge s.view first second).nodes n).constraints ≠ []
    rw [hnodes]
    exact h (hmembers hn) ((hsdt hne).symm.trans ht)

omit hmerge in
theorem outside_merge (ha : a < s.size) (hb : b < s.size) {k : Nat} (hk : s.size ≤ k) :
    (merge s.view first second).nodes k = s.graphNodes k := by
  obtain ⟨rfl, rfl⟩ | ⟨rfl, rfl⟩ := hends <;>
    exact merge_nodes (by omega) (by omega)

omit hends in
theorem fresh_merge (h : ∀ n, (s.graphNodes n).oldPointsTo = ∅) (k : Nat) :
    ((merge s.view first second).nodes k).oldPointsTo = ∅ := by
  by_cases hk : k = first
  · rw [hk, merge_nodes_first]
  · by_cases hk' : k = second
    · simp [merge, hk', hmerge.ne.symm]
    · rw [merge_nodes hk hk']
      exact h k

omit hends in
theorem grows_merge (hview : s'.view = { merge s.view first second with sdt })
    (hframe : s'.frame = s.frame) (hsdt : (∀ n, s.sdt n = none) → ∀ n, sdt n = none) :
    Grows s s' where
  size := congrArg Prod.fst hframe
  currWL := congrArg (fun f => f.2.currWL) hframe
  reps {i} hi := by
    rw [hview] at hi
    exact merge_rep_self hmerge hi
  sets hreps := by
    -- The second node is no representative any more.
    have hsecond := hreps second hmerge.rep_second
    rw [hview] at hsecond
    have hfirst : (merge s.view first second).rep second = first := if_pos hmerge.rep_second
    exact absurd (hfirst.symm.trans hsecond) hmerge.ne
  sdt hnone := by
    have hsdt' : s'.sdt = sdt := congrArg View.sdt hview
    rw [hsdt']
    exact hsdt hnone

include hsize

/-- One union, after which the first node has the links of both. -/
theorem united_of_merge (hview : s'.view = { merge s.view first second with sdt })
    (hframe : s'.frame = s.frame) (hsdt : ∀ {n}, n ≠ first → sdt n = s.sdt n)
    (hfirst : ∀ {t}, sdt first = some t → s.sdt first ≠ none ∨ s.sdt second ≠ none)
    (hproper : s.view.Proper → numberSpecialNodes ≤ first → ∀ {n t},
      (merge s.view first second).rep n = n → sdt n = some t →
        numberSpecialNodes ≤ (merge s.view first second).rep t)
    (hlink : ∀ {links i j},
      (merge s.view first second).Link (pending links s.view first second) i j →
        View.Link { merge s.view first second with sdt } links i j) :
    United a b s first s' := by
  obtain ⟨hleft, hright⟩ := merge_ends hmerge hends
  have hnone : (∀ n, s.sdt n = none) → ∀ n, sdt n = none := by
    intro hnone n
    by_cases hn : n = first
    · rw [hn, Option.eq_none_iff_forall_ne_some]
      exact fun t ht => (hfirst ht).elim (fun h => h (hnone first)) fun h => h (hnone second)
    · rw [hsdt hn, hnone n]
  refine ⟨fun links => ?_, ?_, ?_, hframe, fun h => ?_, grows_merge hmerge hview hframe hnone,
    fun {k} hk => ?_, fun h k => ?_, ?_, fun h ha hb links => ?_⟩
  · rw [hview]
    exact contains_merge hmerge hlink
  · rw [hview]
    exact hleft
  · rw [hview]
    exact hright
  · rw [hview]
    exact listed_merge hmerge hsdt hfirst h
  · exact (congrFun (congrArg View.nodes hview) k).trans
      (outside_merge hends hsize.1 hsize.2 hk)
  · have hnode : s'.graphNodes k = _ := congrFun (congrArg View.nodes hview) k
    rw [hnode]
    exact fresh_merge hmerge h k
  · rw [hview]
    exact merge_special hmerge
  · have hspecial : numberSpecialNodes ≤ first ∧ numberSpecialNodes ≤ second := by
      obtain ⟨rfl, rfl⟩ | ⟨rfl, rfl⟩ := hends
      · exact ⟨ha, hb⟩
      · exact ⟨hb, ha⟩
    rw [hview]
    refine (step_merge hmerge h hspecial.1 hspecial.2 hsdt (hproper h hspecial.1) hlink).mono
      fun ho => .owed rfl ?_
    rw [ho]
    exact hleft.trans (merge_rep_first hmerge).symm

/-- The second node has no link. -/
theorem united_of_none (hview : s'.view = merge s.view first second) (hframe : s'.frame = s.frame)
    (hsecond : s.sdt second = none) : United a b s first s' := by
  refine united_of_merge hmerge hends hsize hview hframe (fun _ => rfl)
    (fun ht => .inl fun hnone => absurd (ht.symm.trans hnone) nofun)
    (fun h hfirst => (merge_proper hmerge h hfirst).sdt) fun hl => ?_
  obtain hsdt | ⟨x, y, hxy | ⟨-, hxy⟩, hx, hy⟩ := hl
  · exact .inl hsdt
  · exact .inr ⟨x, y, hxy, hx, hy⟩
  · exact absurd (hsecond.symm.trans hxy) nofun

/-- The first node has none, and takes the link of the second. -/
theorem united_of_some {t : Nat} (hfirst : s.sdt first = none) (hsecond : s.sdt second = some t)
    (hview : s'.view = { merge s.view first second with
      sdt := Function.update s.sdt first (some t) })
    (hframe : s'.frame = s.frame) : United a b s first s' := by
  refine united_of_merge hmerge hends hsize hview hframe
    (fun hn => Function.update_of_ne hn ..) (fun _ => .inr (by rw [hsecond]; nofun)) ?_ ?_
  · intro h hspecial n t' hn ht'
    refine merge_le hspecial ?_
    by_cases hne : n = first
    · rw [hne, Function.update_self] at ht'
      exact h.sdt hmerge.rep_second (hsecond.trans ht')
    · rw [Function.update_of_ne hne] at ht'
      exact h.sdt (merge_rep_self hmerge hn) ht'
  · intro links i j hl
    obtain ⟨t', ht', htarget⟩ | ⟨x, y, hxy | ⟨hx, hxy⟩, hi, hj⟩ := hl
    · refine .inl ⟨t', ?_, htarget⟩
      have hne : (merge s.view first second).rep i ≠ first := fun heq =>
        absurd ((hfirst.symm.trans (congrArg s.sdt heq.symm)).trans ht') nofun
      exact (Function.update_of_ne hne ..).trans ht'
    · exact .inr ⟨x, y, hxy, hi, hj⟩
    · obtain rfl : t = y := Option.some.inj (hsecond.symm.trans hxy)
      refine .inl ⟨t, ?_, hj⟩
      rw [hx, merge_rep_first hmerge] at hi
      exact (congrArg (Function.update s.sdt first (some t)) hi.symm).trans
        (Function.update_self ..)

/-- Both have links, and the nodes they are linked with are united next. -/
theorem united_of_nested {t t' r : Nat} {s₁ : State W}
    (hfirst : s.sdt first = some t') (hsecond : s.sdt second = some t)
    (hview : s₁.view = merge s.view first second) (hframe : s₁.frame = s.frame)
    (hnested : United (s₁.view.rep t') (s₁.view.rep t) s₁ r s') :
    United a b s (s'.view.rep first) s' := by
  obtain ⟨hleft, hright⟩ := merge_ends hmerge hends
  have hrep_first := merge_rep_first hmerge
  have hrep_rep : ∀ k, s₁.view.rep (s₁.view.rep k) = s₁.view.rep k :=
    fun _ => UnionFind.rootD_rootD
  rw [← hview] at hleft hright hrep_first
  have hrep : ∀ {i}, s₁.view.rep i = first → s'.view.rep i = s'.view.rep first := fun hi =>
    (hnested.contains noLinks).rep (hi.trans hrep_first.symm)
  have htx : s'.view.rep t' = s'.view.rep (s₁.view.rep t') :=
    (hnested.contains noLinks).rep (hrep_rep t').symm
  have htarget : s'.view.rep t' = s'.view.rep t :=
    (htx.trans (hnested.left.trans hnested.right.symm)).trans
      ((hnested.contains noLinks).rep (hrep_rep t))
  have hlink : ∀ links, s'.view.Link links first t' := by
    intro links
    refine (hnested.contains links).link (.inl ⟨t', ?_, rfl⟩)
    rw [hrep_first, hview]
    exact hfirst
  -- The link of the second node names the same node as that of the first.
  have hpending : ∀ {links i j}, s'.view.Link (pending links s.view first second) i j →
      s'.view.Link links i j := by
    rintro links i j (hsdt | ⟨i', j', hij | ⟨rfl, hj'⟩, hi, hj⟩)
    · exact .inl hsdt
    · exact .inr ⟨i', j', hij, hi, hj⟩
    · obtain rfl : t = j' := Option.some.inj (hsecond.symm.trans hj')
      exact ((hlink links).congr hi).congr_right (htarget.trans hj)
  have hcontains : ∀ links,
      Contains s.view links s₁.view (pending links s.view first second) := by
    intro links
    rw [hview]
    exact contains_merge hmerge id
  refine ⟨fun links => ((hcontains links).trans (hnested.contains _)).mono_link hpending,
    hrep hleft, hrep hright, hnested.frame.trans hframe, fun h => hnested.listed ?_,
    (@grows_merge _ _ _ _ _ s.sdt hmerge hview hframe id).trans hnested.grows,
    fun {k} hk => ?_, fun h => hnested.fresh ?_, fun i => ?_, fun h ha hb links => ?_⟩
  · rw [hview]
    exact listed_merge hmerge (fun _ => rfl) (fun _ => .inl (by rw [hfirst]; nofun)) h
  · have hsize₁ : s₁.size = s.size := congrArg Prod.fst hframe
    rw [hnested.outside (hsize₁ ▸ hk)]
    exact (congrFun (congrArg View.nodes hview) k).trans
      (outside_merge hends hsize.1 hsize.2 hk)
  · intro k
    have hnode : s₁.graphNodes k = _ := congrFun (congrArg View.nodes hview) k
    rw [hnode]
    exact fresh_merge hmerge h k
  · have hspecial := merge_special hmerge i
    rw [← hview] at hspecial
    obtain hsub | ⟨k, hk, hne, heq⟩ := hspecial
    · exact (hnested.members i).imp_left hsub.trans
    · exact .inr ⟨k, hk, hne, (hnested.contains noLinks).rep heq⟩
  · have hspecial : numberSpecialNodes ≤ first ∧ numberSpecialNodes ≤ second := by
      obtain ⟨rfl, rfl⟩ | ⟨rfl, rfl⟩ := hends
      · exact ⟨ha, hb⟩
      · exact ⟨hb, ha⟩
    have hproper₁ : s₁.view.Proper := hview ▸ merge_proper hmerge h hspecial.1
    have hle : ∀ {k u}, s.view.rep k = k → s.sdt k = some u →
        numberSpecialNodes ≤ s₁.view.rep u := by
      intro k u hk hu
      rw [hview]
      exact merge_le hspecial.1 (h.sdt hk hu)
    have hstep := hnested.step hproper₁ (hle hmerge.rep_first hfirst)
      (hle hmerge.rep_second hsecond)
    have hext : Extends s.view links s₁.view (pending links s.view first second) := by
      rw [hview]
      exact extends_merge hmerge hspecial.1 hspecial.2 id
    refine
      { proper := (hstep links).proper
        ext := (hext.trans (hstep _).ext).mono_link hpending
        waiting := fun x hx => (hstep links).waiting (by rw [hview]; exact hx)
        nodes := fun {n} hn => ?_ }
    have hreset : (s₁.view.nodes first).oldPointsTo = ∅ := by
      rw [hview]
      exact congrArg GraphNode.oldPointsTo merge_nodes_first
    obtain hsame | ⟨hold, hc⟩ := (hstep links).nodes hn
    · have hn₁ : s₁.view.rep n = n := hsame.rep hn
      by_cases hne : n = first
      · refine .inr ⟨hsame.old.trans (hne ▸ hreset), .owed rfl ?_⟩
        rw [hrep hleft, hne]
      · refine .inl (SameNode.trans ?_ hsame hn₁ hext (hstep links).ext hn (hstep links).waiting)
        rw [hview] at hn₁ ⊢
        exact sameNode_merge (fun _ => rfl) hn₁ hne
    · refine .inr ⟨hold, hc.mono (fun {o} ho => ?_) id⟩
      refine .link (f := a) (.owed rfl rfl) ((hstep links).old_empty ?_) ?_
      · rw [hleft]
        exact hreset
      · exact ((hlink links).congr (hrep hleft).symm).congr_right (htx.trans (by rw [ho]))

end Uniting

theorem uniteNodes_spec {fuel a b r : Nat} (h : uniteNodes fuel a b s = some (r, s')) :
    United a b s r s' := by
  induction fuel generalizing a b r s s' with
  | zero => simp [uniteNodes] at h
  | succ fuel ih =>
    rw [uniteNodes, Option.bind_eq_bind, Option.bind_eq_some_iff] at h
    obtain ⟨reps, hreps, h⟩ := h
    obtain ⟨hrange, hroot_a, hroot_b, hsize⟩ := linkReps_spec hreps
    by_cases hne : a = b
    · rw [if_pos hne] at h
      obtain ⟨rfl, rfl⟩ := Prod.mk.inj (Option.some.inj h)
      exact ⟨fun _ => .refl, hroot_a, hne ▸ hroot_a, rfl, id, .refl, fun _ => rfl, id,
        fun _ => .inl (Finset.Subset.refl _), fun hproper _ _ _ => .refl hproper⟩
    · rw [if_neg hne] at h
      obtain ⟨first, second, hrank⟩ : ∃ first second, byRank s.reps a b = (first, second) :=
        ⟨_, _, rfl⟩
      rw [hrank] at h
      dsimp only at h
      have hends : (first = a ∧ second = b) ∨ (first = b ∧ second = a) := byRank_cases hrank
      have hrep_rep : ∀ k, s.view.rep (s.view.rep k) = s.view.rep k :=
        fun _ => UnionFind.rootD_rootD
      have hmerge : Mergeable s.view first second := by
        obtain ⟨rfl, rfl⟩ | ⟨rfl, rfl⟩ := hends
        · exact ⟨hrep_rep, hroot_a, hroot_b, hne⟩
        · exact ⟨hrep_rep, hroot_b, hroot_a, Ne.symm hne⟩
      have hview := view_mergeNodes hreps hne hrank
      have hframe : (mergeNodes first second { s with reps }).frame = s.frame :=
        Prod.ext hsize rfl
      generalize mergeNodes first second { s with reps } = s₁ at h hview hframe
      have hsdt : s₁.sdt = s.sdt := congrArg View.sdt hview
      rw [hsdt] at h
      cases hsecond : s.sdt second with
      | none =>
        rw [hsecond] at h
        obtain ⟨rfl, rfl⟩ := Prod.mk.inj (Option.some.inj h)
        exact united_of_none hmerge hends hrange hview hframe hsecond
      | some t =>
        rw [hsecond] at h
        cases hfirst : s.sdt first with
        | none =>
          rw [hfirst] at h
          obtain ⟨rfl, rfl⟩ := Prod.mk.inj (Option.some.inj h)
          refine united_of_some hmerge hends hrange hfirst hsecond ?_ hframe
          rw [← hview]
          rfl
        | some t' =>
          rw [hfirst] at h
          dsimp only at h
          rw [Option.bind_eq_bind, Option.bind_eq_some_iff] at h
          obtain ⟨⟨r', s₂⟩, hnested, h⟩ := h
          obtain rfl : (findNode first s₂).1 = r := congrArg Prod.fst (Option.some.inj h)
          obtain rfl : (findNode first s₂).2 = s' := congrArg Prod.snd (Option.some.inj h)
          rw [findNode_fst, findNode_fst, view_findNode] at hnested
          rw [findNode_fst]
          refine (united_of_nested hmerge hends hrange hfirst hsecond hview hframe
            ((ih hnested).congr ?_ ?_ rfl rfl)).congr
            rfl rfl view_findNode.symm frame_findNode.symm
          · rw [view_findNode, view_findNode]
          · rw [frame_findNode, frame_findNode]

theorem unite_spec {a b r : Nat} (h : unite a b s = some (r, s')) : United a b s r s' :=
  uniteNodes_spec h

end Views

end Lockout.Andersens.Solver
