import Lockout.Andersens.Solver

/-! # What the steps of the solver keep

The steps are described up to the representatives, so that path compression and the maps of
the cycle search cannot be seen. A step may unite nodes, add members, edges and elements of
the work lists; it loses no path between nodes and no constraint, and a node whose sets it
resets is on a work list, or waits for the node that `SDT` links it with. -/

namespace Lockout.Andersens.Progress
open Lockout.Andersens.Objects Lockout.Andersens.Slots Lockout.Andersens.Solver

/-- A state up to the representatives. -/
structure View where
  rep : Nat → Nat
  nodes : Nat → GraphNode
  sdt : Nat → Option Nat
  waiting : Multiset WorkListElement

/-- Links between nodes and what they dereference to, beside those in `SDT`. -/
abbrev Links := Nat → Nat → Prop

/-- No links but those in `SDT`. -/
abbrev noLinks : Links := fun _ _ => False

namespace View
variable (v : View)

def pointsTo (i : Nat) : Finset Nat := (v.nodes (v.rep i)).pointsTo

/-- What `src` points to reaches `dest`. -/
def Connected (src dest : Nat) : Prop :=
  v.rep src = v.rep dest ∨ ∃ e ∈ (v.nodes (v.rep src)).edges, v.rep e = v.rep dest

/-- The node is on a work list with its timestamp. -/
def Queued (n : Nat) : Prop := ⟨n, (v.nodes n).timestamp⟩ ∈ v.waiting

/-- `SDT`, or one of `links`, names `target` for the node `n`. -/
def Link (links : Links) (n target : Nat) : Prop :=
  (∃ t, v.sdt (v.rep n) = some t ∧ v.rep t = v.rep target) ∨
    ∃ x y, links x y ∧ v.rep x = v.rep n ∧ v.rep y = v.rep target

/-- `n` will be processed, if those in `owed` will: it is on a work list, or linked with a node
that will be processed with all its members. -/
inductive Covered (owed : Nat → Prop) (links : Links) : Nat → Prop
  | owed {o n : Nat} : owed o → v.rep o = v.rep n → Covered owed links n
  | queued {n : Nat} : v.Queued (v.rep n) → Covered owed links n
  | empty {n : Nat} : v.pointsTo n = ∅ → Covered owed links n
  | link {f n : Nat} : Covered owed links f → (v.nodes (v.rep f)).oldPointsTo = ∅ →
      v.Link links f n → Covered owed links n

/-- The edges that constraint `c` demands for the members in `set`. -/
def Applied (m : Module) (a : Graph) (set : Finset Nat) (c : Constraint) : Prop :=
  ∀ x ∈ set, ∀ y, slot m a c x = some y →
    (c.type = .load → v.Connected y c.dest) ∧
      (c.type = .store → v.rep y < numberSpecialNodes ∨ v.Connected c.src y)

/-- All that node `n` has to do for the members in `set` is done. -/
structure Settled (m : Module) (a : Graph) (links : Links) (set : Finset Nat) (n : Nat) :
    Prop where
  edges : ∀ e ∈ (v.nodes n).edges, v.rep e = n ∨ set ⊆ v.pointsTo e
  constraints : ∀ c ∈ (v.nodes n).constraints, v.Applied m a set c
  collapsed : ∀ {t}, v.Link links n t → ∀ x ∈ set,
    v.rep x = v.rep t ∨ v.rep x < numberSpecialNodes

/-- Two constraints are one under the representatives. -/
structure SameConstraint (c c' : Constraint) : Prop where
  type : c'.type = c.type
  offset : c'.offset = c.offset
  src : v.rep c'.src = v.rep c.src
  dest : v.rep c'.dest = v.rep c.dest

/-- Node `i` still has constraint `c`, or all it demands is in the edge to the linked node. -/
def Kept (links : Links) (i : Nat) (c : Constraint) : Prop :=
  (∃ c' ∈ (v.nodes (v.rep i)).constraints, v.SameConstraint c c') ∨
    c.type = .store ∧ c.offset = 0 ∧ ∃ t, v.Link links i t ∧ v.Connected c.src t

/-- The special nodes receive nothing, and are not linked with others. -/
structure Proper : Prop where
  rep_rep : ∀ i, v.rep (v.rep i) = v.rep i
  edges : ∀ {n e}, e ∈ (v.nodes n).edges → numberSpecialNodes ≤ v.rep e ∨ v.rep e = n
  loads : ∀ {n c}, c ∈ (v.nodes n).constraints → c.type = .load →
    numberSpecialNodes ≤ v.rep c.dest
  sdt : ∀ {n t}, v.rep n = n → v.sdt n = some t → numberSpecialNodes ≤ v.rep t
  old : ∀ n, (v.nodes n).oldPointsTo ⊆ (v.nodes n).pointsTo

end View

/-- No path and no constraint is lost. -/
structure Contains (v : View) (links : Links) (v' : View) (links' : Links) : Prop where
  rep : ∀ {i j}, v.rep i = v.rep j → v'.rep i = v'.rep j
  connected : ∀ {i j}, v.Connected i j → v'.Connected i j
  link : ∀ {i j}, v.Link links i j → v'.Link links' i j
  kept : ∀ {i c}, c ∈ (v.nodes (v.rep i)).constraints → v'.Kept links' i c

/-- No member is lost either, and special nodes stay apart. -/
structure Extends (v : View) (links : Links) (v' : View) (links' : Links) : Prop
    extends Contains v links v' links' where
  pointsTo : ∀ i, v.pointsTo i ⊆ v'.pointsTo i
  special : ∀ i, v'.rep i = v.rep i ∨
    numberSpecialNodes ≤ v.rep i ∧ numberSpecialNodes ≤ v'.rep i

/-- What a step may do to a node that it unites with no other. -/
structure SameNode (v v' : View) (n : Nat) : Prop where
  members : ∀ {j}, v'.rep j = n → v.rep j = n
  old : (v'.nodes n).oldPointsTo = (v.nodes n).oldPointsTo
  timestamp : (v'.nodes n).timestamp = (v.nodes n).timestamp
  sdt : v'.sdt n = v.sdt n
  pointsTo : (v'.nodes n).pointsTo = (v.nodes n).pointsTo ∨ v'.Queued n
  edges : ∀ e' ∈ (v'.nodes n).edges, v'.rep e' = n ∨
    (∃ e ∈ (v.nodes n).edges, v'.rep e = v'.rep e') ∨ (v.nodes n).pointsTo ⊆ v'.pointsTo e'
  constraints : ∀ c' ∈ (v'.nodes n).constraints, ∃ c ∈ (v.nodes n).constraints,
    v'.SameConstraint c c'

/-- One or more steps of the solver, after which those in `owed` are still to be put on a work
list. -/
structure Step (owed : Nat → Prop) (links : Links) (v v' : View) : Prop where
  proper : v'.Proper
  ext : Extends v links v' links
  waiting : v.waiting ⊆ v'.waiting
  nodes : ∀ {n}, v'.rep n = n → SameNode v v' n ∨
    (v'.nodes n).oldPointsTo = ∅ ∧ v'.Covered owed links n

section Steps
variable {m : Module} {a : Graph} {v v' v'' : View} {links links' links'' : Links}
  {owed owed' : Nat → Prop} {n i j : Nat} {c c' : Constraint} {set : Finset Nat}

theorem slot_congr (h : c'.offset = c.offset) (x : Nat) : slot m a c' x = slot m a c x := by
  have hmember : memberOffset m a c' x = memberOffset m a c x := by
    unfold memberOffset
    rw [h]
  unfold slot
  rw [hmember]

/-- Without an offset, the member itself is selected. -/
theorem slot_zero (h : c.offset = 0) (x : Nat) : slot m a c x = some x := by
  have hmember : memberOffset m a c x = (x, 0) := by
    unfold memberOffset
    split <;> simp [h]
  simp [slot, hmember]

namespace View

theorem Link.congr (h : v.Link links i n) (hi : v.rep i = v.rep j) : v.Link links j n := by
  obtain ⟨t, ht, htarget⟩ | ⟨x, y, hxy, hx, hy⟩ := h
  · exact .inl ⟨t, hi ▸ ht, htarget⟩
  · exact .inr ⟨x, y, hxy, hx.trans hi, hy⟩

theorem Link.congr_right (h : v.Link links n i) (hi : v.rep i = v.rep j) : v.Link links n j := by
  obtain ⟨t, ht, htarget⟩ | ⟨x, y, hxy, hx, hy⟩ := h
  · exact .inl ⟨t, ht, htarget.trans hi⟩
  · exact .inr ⟨x, y, hxy, hx, hy.trans hi⟩

theorem Connected.congr_left (h : v.Connected i n) (hi : v.rep i = v.rep j) :
    v.Connected j n := by
  obtain heq | ⟨e, he, heq⟩ := h
  · exact .inl (hi.symm.trans heq)
  · exact .inr ⟨e, hi ▸ he, heq⟩

theorem Connected.congr_right (h : v.Connected n i) (hi : v.rep i = v.rep j) :
    v.Connected n j := by
  obtain heq | ⟨e, he, heq⟩ := h
  · exact .inl (heq.trans hi)
  · exact .inr ⟨e, he, heq.trans hi⟩

/-- Coverage is a matter of the representative. -/
theorem Covered.congr (h : v.Covered owed links i) (hi : v.rep i = v.rep j) :
    v.Covered owed links j := by
  cases h with
  | owed ho heq => exact .owed ho (heq.trans hi)
  | queued hq => exact .queued (hi ▸ hq)
  | empty he =>
    refine .empty ?_
    rwa [pointsTo, ← hi]
  | link hf hold hl => exact .link hf hold (hl.congr_right hi)

/-- What is owed may be replaced by what covers it, and links by others. -/
theorem Covered.mono (h : v.Covered owed links n)
    (howed : ∀ {o}, owed o → v.Covered owed' links' o)
    (hlink : ∀ {i j}, v.Link links i j → v.Link links' i j) : v.Covered owed' links' n := by
  induction h with
  | owed ho heq => exact (howed ho).congr heq
  | queued hq => exact .queued hq
  | empty he => exact .empty he
  | link _ hold hl ih => exact .link ih hold (hlink hl)

theorem Settled.empty : v.Settled m a links ∅ n where
  edges _ _ := .inr (Finset.empty_subset _)
  constraints _ _ := by simp [Applied]
  collapsed := by simp

theorem Settled.subset {set' : Finset Nat} (h : v.Settled m a links set n) (hset : set' ⊆ set) :
    v.Settled m a links set' n where
  edges e he := (h.edges e he).imp_right hset.trans
  constraints c hc x hx := h.constraints c hc x (hset hx)
  collapsed hl x hx := h.collapsed hl x (hset hx)

theorem Settled.union {set' : Finset Nat} (h : v.Settled m a links set n)
    (h' : v.Settled m a links set' n) : v.Settled m a links (set ∪ set') n where
  edges e he := by
    obtain hself | hsub := h.edges e he
    · exact .inl hself
    · exact (h'.edges e he).imp_right (Finset.union_subset hsub)
  constraints c hc x hx := (Finset.mem_union.mp hx).elim (h.constraints c hc x)
    (h'.constraints c hc x)
  collapsed ht x hx := (Finset.mem_union.mp hx).elim (h.collapsed ht x) (h'.collapsed ht x)

theorem SameConstraint.refl : v.SameConstraint c c := ⟨rfl, rfl, rfl, rfl⟩

theorem Kept.mono_link (h : v.Kept links i c)
    (hlink : ∀ {i j}, v.Link links i j → v.Link links' i j) : v.Kept links' i c :=
  h.imp_right fun ⟨htype, hoffset, t, ht, hconnected⟩ => ⟨htype, hoffset, t, hlink ht, hconnected⟩

theorem Kept.of_same (h : v.Kept links i c') (hc : v.SameConstraint c c') : v.Kept links i c := by
  obtain ⟨d, hd, htype, hoffset, hsrc, hdest⟩ | ⟨htype, hoffset, t, ht, hconnected⟩ := h
  · exact .inl ⟨d, hd, htype.trans hc.type, hoffset.trans hc.offset, hsrc.trans hc.src,
      hdest.trans hc.dest⟩
  · exact .inr ⟨hc.type ▸ htype, hc.offset ▸ hoffset, t, ht, hconnected.congr_left hc.src⟩

end View

open View

/-! ## Extensions -/

theorem Contains.refl : Contains v links v links :=
  ⟨id, id, id, fun hc => .inl ⟨_, hc, .refl⟩⟩

theorem Contains.of_subset (hrep : v'.rep = v.rep) (hsdt : v'.sdt = v.sdt)
    (hedges : ∀ n, (v.nodes n).edges ⊆ (v'.nodes n).edges)
    (hconstraints : ∀ n, (v.nodes n).constraints ⊆ (v'.nodes n).constraints) :
    Contains v links v' links where
  rep hij := by rwa [hrep]
  connected hij := by
    unfold Connected at hij ⊢
    rw [hrep]
    exact hij.imp_right fun ⟨e, he, heq⟩ => ⟨e, hedges _ he, heq⟩
  link hij := by
    unfold Link at hij ⊢
    rwa [hrep, hsdt]
  kept hc := by
    refine .inl ⟨_, ?_, .refl⟩
    rw [hrep]
    exact hconstraints _ hc

theorem Contains.same (h : Contains v links v' links') (hc : v.SameConstraint c c') :
    v'.SameConstraint c c' :=
  ⟨hc.type, hc.offset, h.rep hc.src, h.rep hc.dest⟩

theorem Contains.kept_of_kept (h : Contains v links v' links') (hc : v.Kept links i c) :
    v'.Kept links' i c := by
  obtain ⟨c', hc', hsame⟩ | ⟨htype, hoffset, t, ht, hconnected⟩ := hc
  · exact (h.kept hc').of_same (h.same hsame)
  · exact .inr ⟨htype, hoffset, t, h.link ht, h.connected hconnected⟩

theorem Contains.trans (h : Contains v links v' links') (h' : Contains v' links' v'' links'') :
    Contains v links v'' links'' where
  rep hij := h'.rep (h.rep hij)
  connected hij := h'.connected (h.connected hij)
  link hij := h'.link (h.link hij)
  kept hc := h'.kept_of_kept (h.kept hc)

theorem Contains.mono_link (h : Contains v links v' links')
    (hlink : ∀ {i j}, v'.Link links' i j → v'.Link links'' i j) :
    Contains v links v' links'' where
  rep := h.rep
  connected := h.connected
  link hij := hlink (h.link hij)
  kept hc := (h.kept hc).mono_link hlink

theorem Extends.refl : Extends v links v links where
  toContains := .refl
  pointsTo _ := Finset.Subset.refl _
  special _ := .inl rfl

theorem Extends.lt (h : Extends v links v' links') (hi : v.rep i < numberSpecialNodes) :
    v'.rep i < numberSpecialNodes := by
  obtain heq | ⟨hle, -⟩ := h.special i
  · rwa [heq]
  · exact absurd hi (Nat.not_lt.mpr hle)

theorem Extends.le (h : Extends v links v' links') (hi : numberSpecialNodes ≤ v.rep i) :
    numberSpecialNodes ≤ v'.rep i := by
  obtain heq | ⟨-, hle⟩ := h.special i
  · rwa [heq]
  · exact hle

theorem Extends.trans (h : Extends v links v' links') (h' : Extends v' links' v'' links'') :
    Extends v links v'' links'' where
  toContains := h.toContains.trans h'.toContains
  pointsTo i := (h.pointsTo i).trans (h'.pointsTo i)
  special i := by
    obtain heq | ⟨hle, hle'⟩ := h.special i
    · rw [← heq]
      exact h'.special i
    · exact .inr ⟨hle, h'.le hle'⟩

theorem Extends.mono_link (h : Extends v links v' links')
    (hlink : ∀ {i j}, v'.Link links' i j → v'.Link links'' i j) :
    Extends v links v' links'' where
  toContains := h.toContains.mono_link hlink
  pointsTo := h.pointsTo
  special := h.special

theorem Extends.applied (h : Extends v links v' links') (hc : v.Applied m a set c) :
    v'.Applied m a set c := fun x hx y hy =>
  ⟨fun hload => h.connected ((hc x hx y hy).1 hload),
    fun hstore => ((hc x hx y hy).2 hstore).imp h.lt h.connected⟩

theorem View.Applied.congr (h : v.Applied m a set c) (hc : v.SameConstraint c c') :
    v.Applied m a set c' := by
  intro x hx y hy
  rw [slot_congr hc.offset] at hy
  obtain ⟨hload, hstore⟩ := h x hx y hy
  exact ⟨fun ht => (hload (hc.type ▸ ht)).congr_right hc.dest.symm,
    fun ht => (hstore (hc.type ▸ ht)).imp_right fun hy => hy.congr_left hc.src.symm⟩

/-! ## Nodes that are united with no others -/

namespace SameNode

theorem refl : SameNode v v n where
  members := id
  old := rfl
  timestamp := rfl
  sdt := rfl
  pointsTo := .inl rfl
  edges e he := .inr (.inl ⟨e, he, rfl⟩)
  constraints c hc := ⟨c, hc, .refl⟩

variable (h : SameNode v v' n) (hn : v'.rep n = n)
include h hn

theorem rep : v.rep n = n := h.members hn

theorem link (hl : v'.Link links n j) : ∃ t, v.Link links n t ∧ v'.rep t = v'.rep j := by
  obtain ⟨t, ht, htarget⟩ | ⟨x, y, hxy, hx, hy⟩ := hl
  · rw [hn, h.sdt] at ht
    exact ⟨t, .inl ⟨t, (h.rep hn).symm ▸ ht, rfl⟩, htarget⟩
  · exact ⟨y, .inr ⟨x, y, hxy, (h.members (hx.trans hn)).trans (h.rep hn).symm, rfl⟩, hy⟩

/-- What was done for the members is not undone, as long as they are members. -/
theorem settled (hext : Extends v links v' links)
    (hset : set ⊆ (v.nodes n).pointsTo) (hs : v.Settled m a links set n) :
    v'.Settled m a links set n where
  edges e' he' := by
    obtain hself | ⟨e, he, heq⟩ | hsub := h.edges e' he'
    · exact .inl hself
    · obtain hself | hsub := hs.edges e he
      · exact .inl (heq ▸ (hext.rep (hself.trans (h.rep hn).symm)).trans hn)
      · refine .inr (hsub.trans ((hext.pointsTo e).trans ?_))
        rw [View.pointsTo, View.pointsTo, heq]
    · exact .inr (hset.trans hsub)
  constraints c' hc' := by
    obtain ⟨c, hc, hsame⟩ := h.constraints c' hc'
    exact (hext.applied (hs.constraints c hc)).congr hsame
  collapsed hl x hx := by
    obtain ⟨t, ht, heq⟩ := h.link hn hl
    exact (hs.collapsed ht x hx).imp (fun hxt => (hext.rep hxt).trans heq) hext.lt

end SameNode

theorem View.Queued.mono (hw : v.waiting ⊆ v'.waiting)
    (ht : (v'.nodes n).timestamp = (v.nodes n).timestamp) (h : v.Queued n) : v'.Queued n := by
  unfold Queued
  rw [ht]
  exact hw h

theorem SameNode.trans {links₁ links₂ : Links} (h : SameNode v v' n) (h' : SameNode v' v'' n)
    (hn' : v'.rep n = n) (hext : Extends v links v' links') (hext' : Extends v' links₁ v'' links₂)
    (hn : v''.rep n = n) (hw : v'.waiting ⊆ v''.waiting) : SameNode v v'' n where
  members hj := h.members (h'.members hj)
  old := h'.old.trans h.old
  timestamp := h'.timestamp.trans h.timestamp
  sdt := h'.sdt.trans h.sdt
  pointsTo := by
    obtain heq' | hq := h'.pointsTo
    · obtain heq | hq := h.pointsTo
      · exact .inl (heq'.trans heq)
      · exact .inr (hq.mono hw h'.timestamp)
    · exact .inr hq
  edges e'' he'' := by
    obtain hself | ⟨e', he', heq'⟩ | hsub := h'.edges e'' he''
    · exact .inl hself
    · obtain hself | ⟨e, he, heq⟩ | hsub := h.edges e' he'
      · exact .inl (heq' ▸ (hext'.rep (hself.trans hn'.symm)).trans hn)
      · exact .inr (.inl ⟨e, he, (hext'.rep heq).trans heq'⟩)
      · refine .inr (.inr (hsub.trans ((hext'.pointsTo e').trans ?_)))
        rw [View.pointsTo, View.pointsTo, heq']
    · refine .inr (.inr (Finset.Subset.trans ?_ hsub))
      have hsub' := hext.pointsTo n
      rwa [View.pointsTo, View.pointsTo, hn', h.rep hn'] at hsub'
  constraints c'' hc'' := by
    obtain ⟨c', hc', hsame'⟩ := h'.constraints c'' hc''
    obtain ⟨c, hc, hsame⟩ := h.constraints c' hc'
    exact ⟨c, hc, hsame'.type.trans hsame.type, hsame'.offset.trans hsame.offset,
      hsame'.src.trans (hext'.rep hsame.src), hsame'.dest.trans (hext'.rep hsame.dest)⟩

/-! ## Steps -/

namespace Step

theorem refl (h : v.Proper) : Step owed links v v :=
  ⟨h, .refl, fun _ hx => hx, fun _ => .inl .refl⟩

theorem mono (h : Step owed links v v')
    (howed : ∀ {o}, owed o → v'.Covered owed' links o) : Step owed' links v v' where
  proper := h.proper
  ext := h.ext
  waiting := h.waiting
  nodes hn := (h.nodes hn).imp_right fun ⟨hold, hc⟩ => ⟨hold, hc.mono howed id⟩

/-- A node whose sets are empty in `v` has them empty or is on a work list in `v'`. -/
theorem old_empty (h : Step owed links v v')
    (hold : (v.nodes (v.rep n)).oldPointsTo = ∅) : (v'.nodes (v'.rep n)).oldPointsTo = ∅ := by
  obtain hsame | ⟨hold', -⟩ := h.nodes (h.proper.rep_rep n)
  · rw [hsame.old, ← hsame.members rfl]
    exact hold
  · exact hold'

/-- What was covered still is. -/
theorem covered (h : Step owed links v v') (hn : v.Covered owed' links n)
    (howed : ∀ {o}, owed o → owed' o) : v'.Covered owed' links n := by
  have hmerged : v'.Covered owed links (v'.rep n) → v'.Covered owed' links n := fun hc =>
    (hc.congr (h.proper.rep_rep n)).mono (fun ho => .owed (howed ho) rfl) id
  induction hn with
  | owed ho heq => exact .owed ho (h.ext.rep heq)
  | @queued n hq =>
    obtain hsame | ⟨-, hc⟩ := h.nodes (h.proper.rep_rep n)
    · rw [hsame.members rfl] at hq
      exact .queued (hq.mono h.waiting hsame.timestamp)
    · exact hmerged hc
  | @empty n he =>
    obtain hsame | ⟨-, hc⟩ := h.nodes (h.proper.rep_rep n)
    · obtain heq | hq := hsame.pointsTo
      · refine .empty ?_
        rw [View.pointsTo, heq, ← hsame.members rfl]
        exact he
      · exact .queued hq
    · exact hmerged hc
  | @link f n _ hold hl ih =>
    have hf := ih fun hc => (hc.congr (h.proper.rep_rep f)).mono
      (fun ho => .owed (howed ho) rfl) id
    exact .link hf (h.old_empty hold) (h.ext.link hl)

theorem trans (h : Step owed links v v') (h' : Step owed links v' v'') :
    Step owed links v v'' where
  proper := h'.proper
  ext := h.ext.trans h'.ext
  waiting := fun _ hx => h'.waiting (h.waiting hx)
  nodes {n} hn := by
    obtain hsame' | hmerged := h'.nodes hn
    · have hn' := hsame'.rep hn
      obtain hsame | ⟨hold, hc⟩ := h.nodes hn'
      · exact .inl (hsame.trans hsame' hn' h.ext h'.ext hn h'.waiting)
      · exact .inr ⟨hsame'.old.trans hold, h'.covered hc id⟩
    · exact .inr hmerged

end Step

/-! ## The invariant -/

/-- Every node has done its work for the members it has passed on, except for those in
`slack`, and will be processed unless it has done it for all members. -/
structure Invariant (m : Module) (a : Graph) (owed : Nat → Prop) (links : Links)
    (slack : Nat → Finset Nat) (v : View) : Prop where
  proper : v.Proper
  settled : ∀ {n}, v.rep n = n → v.Settled m a links ((v.nodes n).oldPointsTo \ slack n) n
  covered : ∀ {n}, v.rep n = n →
    v.Covered owed links n ∨ v.Settled m a links (v.nodes n).pointsTo n

theorem Invariant.step {slack : Nat → Finset Nat} (h : Invariant m a owed links slack v)
    (hs : Step owed' links v v') (howed : ∀ {o}, owed' o → owed o) :
    Invariant m a owed links slack v' where
  proper := hs.proper
  settled {n} hn := by
    obtain hsame | ⟨hold, -⟩ := hs.nodes hn
    · rw [hsame.old]
      exact hsame.settled hn hs.ext (Finset.sdiff_subset.trans (h.proper.old n))
        (h.settled (hsame.rep hn))
    · rw [hold, Finset.empty_sdiff]
      exact .empty
  covered {n} hn := by
    obtain hsame | ⟨-, hc⟩ := hs.nodes hn
    · obtain hc | hsettled := h.covered (hsame.rep hn)
      · exact .inl (hs.covered hc howed)
      · obtain heq | hq := hsame.pointsTo
        · rw [heq]
          exact .inr (hsame.settled hn hs.ext (Finset.Subset.refl _) hsettled)
        · refine .inl (.queued ?_)
          rwa [hn]
    · exact .inl (hc.mono (fun ho => .owed (howed ho) rfl) id)

theorem Invariant.mono {slack : Nat → Finset Nat} (h : Invariant m a owed links slack v)
    (howed : ∀ {o}, owed o → v.Covered owed' links o) : Invariant m a owed' links slack v :=
  ⟨h.proper, h.settled, fun hn => (h.covered hn).imp_left fun hc => hc.mono howed id⟩

/-- Another node that is special was united with node `i`. -/
def View.Special (v : View) (i : Nat) : Prop :=
  ∃ k < numberSpecialNodes, k ≠ i ∧ v.rep k = v.rep i

/-- Constraint `c` of the input is in the graph. -/
def View.Represented (v : View) (links : Links) (c : Constraint) : Prop :=
  match c.type with
  | .addressOf => c.src ∈ v.pointsTo c.dest ∨ v.Special c.dest
  | .copy => c.offset ≠ 0 ∨ v.Connected c.src c.dest
  | .load => v.Kept links c.src c
  | .store => v.Kept links c.dest c

theorem Contains.represented (h : Contains v links v' links')
    (hmembers : ∀ i, v.pointsTo i ⊆ v'.pointsTo i ∨ v'.Special i)
    (hc : v.Represented links c) : v'.Represented links' c := by
  unfold View.Represented at hc ⊢
  cases htype : c.type with
  | addressOf =>
    rw [htype] at hc
    obtain hmem | ⟨k, hk, hne, heq⟩ := hc
    · exact (hmembers c.dest).imp_left fun hsub => hsub hmem
    · exact .inr ⟨k, hk, hne, h.rep heq⟩
  | copy =>
    rw [htype] at hc
    exact hc.imp_right h.connected
  | load =>
    rw [htype] at hc
    exact h.kept_of_kept hc
  | store =>
    rw [htype] at hc
    exact h.kept_of_kept hc

theorem Extends.represented (h : Extends v links v' links') (hc : v.Represented links c) :
    v'.Represented links' c :=
  h.toContains.represented (fun i => .inl (h.pointsTo i)) hc

end Steps

/-! ## Changes of one node -/

section Updates
variable {v : View} {links : Links} {owed : Nat → Prop} {i j k n : Nat} {node : GraphNode}
  {queue : Multiset WorkListElement} {edges : Finset Nat} {c : Constraint}

/-- Node `n` is replaced, and the work lists. -/
def setNode (v : View) (n : Nat) (node : GraphNode) (queue : Multiset WorkListElement) : View :=
  { v with nodes := Function.update v.nodes n node, waiting := queue }

theorem setNode_self : (setNode v n node queue).nodes n = node := Function.update_self ..

theorem setNode_of_ne (h : k ≠ n) : (setNode v n node queue).nodes k = v.nodes k :=
  Function.update_of_ne h ..

/-- A change of one node that is a step: members are only added, edges and constraints are
replaced by others that do the same. -/
structure Improves (v : View) (links : Links) (n : Nat) (node : GraphNode)
    (queue : Multiset WorkListElement) : Prop where
  rep : v.rep n = n
  waiting : v.waiting ⊆ queue
  old : node.oldPointsTo = (v.nodes n).oldPointsTo
  timestamp : node.timestamp = (v.nodes n).timestamp
  pointsTo : (v.nodes n).pointsTo ⊆ node.pointsTo
  queued : node.pointsTo = (v.nodes n).pointsTo ∨ ⟨n, (v.nodes n).timestamp⟩ ∈ queue
  edges : ∀ e ∈ (v.nodes n).edges, v.rep e = n ∨ ∃ e' ∈ node.edges, v.rep e' = v.rep e
  new_edges : ∀ e' ∈ node.edges, (numberSpecialNodes ≤ v.rep e' ∨ v.rep e' = n) ∧
    (v.rep e' = n ∨ (∃ e ∈ (v.nodes n).edges, v.rep e = v.rep e') ∨
      (v.nodes n).pointsTo ⊆ v.pointsTo e')
  constraints : ∀ c ∈ (v.nodes n).constraints, (∃ c' ∈ node.constraints, v.SameConstraint c c') ∨
    c.type = .store ∧ c.offset = 0 ∧ ∃ t, v.Link links n t ∧ v.Connected c.src t
  new_constraints : ∀ c' ∈ node.constraints, ∃ c ∈ (v.nodes n).constraints, v.SameConstraint c c'

namespace Improves
variable (h : Improves v links n node queue)
include h

theorem pointsTo_subset (i : Nat) : v.pointsTo i ⊆ (setNode v n node queue).pointsTo i := by
  by_cases hi : v.rep i = n
  · have hnode : (setNode v n node queue).pointsTo i = node.pointsTo := by
      rw [View.pointsTo]
      exact congrArg GraphNode.pointsTo (hi ▸ setNode_self)
    rw [hnode, View.pointsTo, hi]
    exact h.pointsTo
  · rw [View.pointsTo, View.pointsTo]
    exact (congrArg GraphNode.pointsTo (setNode_of_ne hi)).symm.subset

theorem connected (hij : v.Connected i j) : (setNode v n node queue).Connected i j := by
  obtain heq | ⟨e, he, heq⟩ := hij
  · exact .inl heq
  · by_cases hi : v.rep i = n
    · obtain hself | ⟨e', he', heq'⟩ := h.edges e (hi ▸ he)
      · exact .inl (hi.trans (hself.symm.trans heq))
      · refine .inr ⟨e', ?_, heq'.trans heq⟩
        change e' ∈ ((setNode v n node queue).nodes (v.rep i)).edges
        rw [hi, setNode_self]
        exact he'
    · exact .inr ⟨e, (@setNode_of_ne _ _ _ node queue hi).symm ▸ he, heq⟩

theorem ext : Extends v links (setNode v n node queue) links where
  rep := id
  pointsTo := h.pointsTo_subset
  special _ := .inl rfl
  connected := h.connected
  link := id
  kept {i c} hc := by
    by_cases hi : v.rep i = n
    · obtain ⟨c', hc', heq, heq', hsrc, hdest⟩ | ⟨htype, hoffset, t, ht, hconnected⟩ :=
        h.constraints c (hi ▸ hc)
      · refine .inl ⟨c', ?_, heq, heq', hsrc, hdest⟩
        change c' ∈ ((setNode v n node queue).nodes (v.rep i)).constraints
        rw [hi, setNode_self]
        exact hc'
      · exact .inr ⟨htype, hoffset, t, ht.congr (h.rep.trans hi.symm), h.connected hconnected⟩
    · exact .inl ⟨c, (@setNode_of_ne _ _ _ node queue hi).symm ▸ hc, .refl⟩

theorem proper (hv : v.Proper) : (setNode v n node queue).Proper where
  rep_rep := hv.rep_rep
  edges {k e} he := by
    by_cases hk : k = n
    · rw [hk, setNode_self] at he
      rw [hk]
      exact (h.new_edges e he).1
    · rw [setNode_of_ne hk] at he
      exact hv.edges he
  loads {k c'} hc' htype := by
    by_cases hk : k = n
    · rw [hk, setNode_self] at hc'
      obtain ⟨c, hc, hsame⟩ := h.new_constraints c' hc'
      have hdest := hv.loads hc (hsame.type ▸ htype)
      rwa [← hsame.dest] at hdest
    · rw [setNode_of_ne hk] at hc'
      exact hv.loads hc' htype
  sdt := hv.sdt
  old k := by
    by_cases hk : k = n
    · rw [hk, setNode_self, h.old]
      exact (hv.old n).trans h.pointsTo
    · rw [setNode_of_ne hk]
      exact hv.old k

theorem sameNode : SameNode v (setNode v n node queue) k := by
  by_cases hk : k = n
  · subst hk
    have hself : (setNode v k node queue).nodes k = node := setNode_self
    refine
      { members := id
        old := (congrArg GraphNode.oldPointsTo hself).trans h.old
        timestamp := (congrArg GraphNode.timestamp hself).trans h.timestamp
        sdt := rfl
        pointsTo := ?_
        edges := fun e' he' => ?_
        constraints := fun c' hc' => ?_ }
    · rw [View.Queued, hself, h.timestamp]
      exact h.queued
    · obtain ⟨-, hnew⟩ := h.new_edges e' (hself ▸ he')
      exact hnew.imp_right (Or.imp_right fun hsub => hsub.trans (h.pointsTo_subset e'))
    · rw [hself] at hc'
      obtain ⟨c, hc, htype, hoffset, hsrc, hdest⟩ := h.new_constraints c' hc'
      exact ⟨c, hc, htype, hoffset, hsrc, hdest⟩
  · have hnode : (setNode v n node queue).nodes k = v.nodes k := setNode_of_ne hk
    refine
      { members := id
        old := congrArg GraphNode.oldPointsTo hnode
        timestamp := congrArg GraphNode.timestamp hnode
        sdt := rfl
        pointsTo := .inl (congrArg GraphNode.pointsTo hnode)
        edges := fun e he => .inr (.inl ⟨e, hnode ▸ he, rfl⟩)
        constraints := fun c hc => ⟨c, hnode ▸ hc, .refl⟩ }

theorem step (hv : v.Proper) : Step owed links v (setNode v n node queue) where
  proper := h.proper hv
  ext := h.ext
  waiting := h.waiting
  nodes _ := .inl h.sameNode

end Improves

/-- More elements of the work lists. -/
theorem step_waiting (hv : v.Proper) (hqueue : v.waiting ⊆ queue) :
    Step owed links v { v with waiting := queue } where
  proper := { hv with }
  ext := ⟨⟨id, id, id, fun hc => .inl ⟨_, hc, .refl⟩⟩, fun _ => Finset.Subset.refl _,
    fun _ => .inl rfl⟩
  waiting := hqueue
  nodes _ := .inl ⟨id, rfl, rfl, rfl, .inl rfl, fun e he => .inr (.inl ⟨e, he, rfl⟩),
    fun c hc => ⟨c, hc, .refl⟩⟩

/-- Edges may be replaced by others that lead to the same representatives, and edges of a node
to itself removed. -/
theorem improves_edges (hn : v.rep n = n)
    (hold : ∀ e ∈ (v.nodes n).edges, v.rep e = n ∨ ∃ e' ∈ edges, v.rep e' = v.rep e)
    (hnew : ∀ e' ∈ edges, (numberSpecialNodes ≤ v.rep e' ∨ v.rep e' = n) ∧ (v.rep e' = n ∨
      (∃ e ∈ (v.nodes n).edges, v.rep e = v.rep e') ∨ (v.nodes n).pointsTo ⊆ v.pointsTo e')) :
    Improves v links n { v.nodes n with edges } v.waiting where
  rep := hn
  waiting := fun _ hx => hx
  old := rfl
  timestamp := rfl
  pointsTo := Finset.Subset.refl _
  queued := .inl rfl
  edges := hold
  new_edges := hnew
  constraints c hc := .inl ⟨c, hc, .refl⟩
  new_constraints c hc := ⟨c, hc, .refl⟩

end Updates

end Lockout.Andersens.Progress
