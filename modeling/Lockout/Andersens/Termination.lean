import Lockout.Andersens.Growth
import Lockout.Andersens.Settling

/-! # The solver comes to an end

A node comes on the next work list only if nodes were united, or a set has grown, or an edge
was checked for cycles. All of this happens so often at most as there are nodes, members and
edges, so that the work list is empty after so many iterations. -/

namespace Lockout.Andersens.Solver
open Lockout.Andersens.Objects Lockout.Andersens.Slots Lockout.Andersens.Progress

section Rank
variable {W : WorkList} {m : Module} {a : Graph} {s s' : State W} {i : Nat}

/-- The representatives. -/
def State.representatives (s : State W) : Finset Nat :=
  (Finset.range s.size).filter fun i => s.isRep i

/-- The members of all sets, and those that were passed on. -/
def State.passed (s : State W) : Nat :=
  ∑ i ∈ Finset.range s.size,
    ((s.graphNodes i).pointsTo.card + (s.graphNodes i).oldPointsTo.card)

/-- It never increases, and decreases whenever something is left to do. -/
def State.rank (s : State W) : Nat :=
  s.representatives.card * (2 * s.size ^ 2 + 1) + (2 * s.size ^ 2 - s.passed) + s.pending

theorem rep_of_le (hi : s.size ≤ i) : s.view.rep i = i :=
  dif_neg (Nat.not_lt.mpr hi)

theorem mem_representatives : i ∈ s.representatives ↔ i < s.size ∧ s.view.rep i = i := by
  rw [State.representatives, Finset.mem_filter, Finset.mem_range, isRep_iff]

theorem passed_le (h : InRange s) : s.passed ≤ 2 * s.size ^ 2 := by
  have hcard : ∀ set : Finset Nat, (∀ x ∈ set, x < s.size) → set.card ≤ s.size := by
    intro set hset
    calc set.card ≤ (Finset.range s.size).card :=
          Finset.card_le_card fun x hx => Finset.mem_range.mpr (hset x hx)
      _ = s.size := Finset.card_range _
  calc s.passed ≤ ∑ _i ∈ Finset.range s.size, 2 * s.size := by
        refine Finset.sum_le_sum fun i _ => ?_
        have hpointsTo := hcard _ (h.nodes i).pointsTo
        have hold := hcard _ (h.nodes i).oldPointsTo
        omega
    _ = 2 * s.size ^ 2 := by
        rw [Finset.sum_const, Finset.card_range, smul_eq_mul]
        ring

/-- If no set has grown and no nodes were united, all that is left is the same. -/
structure Halts (s s' : State W) : Prop where
  passed : ∀ i < s.size, (s'.graphNodes i).oldPointsTo = (s.graphNodes i).oldPointsTo
  pending : s'.pending = s.pending

theorem rank_cases (hs : InRange s) (hs' : InRange s') (hgrows : Grows s s')
    (hpending : s'.pending ≤ s.pending) :
    s'.rank < s.rank ∨ s'.rank = s.rank ∧ Halts s s' := by
  have hsize := hgrows.size
  have hsubset : s'.representatives ⊆ s.representatives := by
    intro i hi
    rw [mem_representatives] at hi ⊢
    exact ⟨hsize ▸ hi.1, hgrows.reps hi.2⟩
  have hpassed' := passed_le hs'
  have hpassed := passed_le hs
  unfold State.rank
  rw [hsize] at hpassed' ⊢
  by_cases hsame : s'.representatives = s.representatives
  · have hsets := hgrows.sets fun i hi => by
      by_cases hlt : i < s.size
      · exact (mem_representatives.mp (hsame.symm ▸ mem_representatives.mpr ⟨hlt, hi⟩)).2
      · exact rep_of_le (by omega)
    have hle : ∀ i ∈ Finset.range s.size,
        (s.graphNodes i).pointsTo.card + (s.graphNodes i).oldPointsTo.card ≤
          (s'.graphNodes i).pointsTo.card + (s'.graphNodes i).oldPointsTo.card := fun i _ =>
      Nat.add_le_add (Finset.card_le_card (hsets i).1) (Finset.card_le_card (hsets i).2)
    have hsum : s.passed ≤ s'.passed := by
      unfold State.passed
      rw [hsize]
      exact Finset.sum_le_sum hle
    rw [hsame]
    by_cases heq : s'.passed = s.passed ∧ s'.pending = s.pending
    · refine .inr ⟨by rw [heq.1, heq.2], fun i hi => ?_, heq.2⟩
      have heach := (Finset.sum_eq_sum_iff_of_le hle).mp (by
        have := heq.1
        unfold State.passed at this
        rw [hsize] at this
        exact this.symm) i (Finset.mem_range.mpr hi)
      refine (Finset.eq_of_subset_of_card_le (hsets i).2 ?_).symm
      have hcard := Finset.card_le_card (hsets i).1
      omega
    · left
      omega
  · have hcard := Finset.card_lt_card (Finset.ssubset_iff_subset_ne.mpr ⟨hsubset, hsame⟩)
    left
    have hmul : (s'.representatives.card + 1) * (2 * s.size ^ 2 + 1) ≤
        s.representatives.card * (2 * s.size ^ 2 + 1) := Nat.mul_le_mul_right _ hcard
    rw [Nat.add_mul, Nat.one_mul] at hmul
    omega

theorem Advances.rank_le (hs : InRange s) (h : Advances s s') : s'.rank ≤ s.rank := by
  obtain hlt | ⟨heq, -⟩ := rank_cases hs h.inRange h.grows h.pending
  · exact hlt.le
  · exact heq.le

/-- The next work list is as it was, or the state has come closer to the end. -/
def Closer (s s' : State W) : Prop :=
  s'.rank ≤ s.rank ∧ (s'.nextWL = s.nextWL ∨ s'.rank < s.rank)

theorem Closer.trans {s'' : State W} (h : Closer s s') (h' : Closer s' s'') : Closer s s'' := by
  refine ⟨h'.1.trans h.1, ?_⟩
  obtain heq | hlt := h.2
  · exact h'.2.imp (fun heq' => heq'.trans heq) fun hlt' => hlt'.trans_le h.1
  · exact .inr (h'.1.trans_lt hlt)

theorem closer_detectCycles (h : detectCycles s = some s') (hs : InRange s) :
    InRange s' ∧ Grows s s' ∧ Closer s s' := by
  unfold detectCycles at h
  split at h
  · obtain rfl := Option.some.inj h
    exact ⟨hs, .refl, le_rfl, .inl rfl⟩
  · rename_i hcandidates
    obtain ⟨hs', hgrows, -, hpending⟩ := advances_queryCandidates h { hs with } hs.candidates
    have hgrows' : Grows s s' := ⟨hgrows.size, hgrows.currWL, hgrows.reps, hgrows.sets, hgrows.sdt⟩
    have hlt : s'.pending < s.pending :=
      (Nat.lt_add_of_pos_left (List.length_pos_iff.mpr hcandidates)).trans_le hpending
    obtain hrank | ⟨-, hhalts⟩ := rank_cases hs hs' hgrows' hlt.le
    · exact ⟨hs', hgrows', hrank.le, .inr hrank⟩
    · exact absurd hhalts.pending hlt.ne

theorem advances_taken {curr : Nat} {set : Finset Nat} (h : InRange s)
    (hset : ∀ x ∈ set, x < s.size) : Advances s (taken curr set s) := by
  have hstamp := advances_stamp (i := curr) h
  have hsize := hstamp.grows.size
  refine hstamp.trans (advances_modify hstamp.inRange
    { hstamp.inRange.nodes curr with oldPointsTo := fun x hx => ?_ }
    ⟨Finset.Subset.refl _, Finset.subset_union_left⟩)
  obtain hx | hx := Finset.mem_union.mp hx
  · exact (hstamp.inRange.nodes curr).oldPointsTo x hx
  · exact hsize.symm ▸ hset x hx

/-- A node that has members to pass on brings the end closer. -/
theorem closer_processNode {curr : Nat} (hfits : Fits m a s.size) (hs : InRange s)
    (hcurr : curr < s.size) (hrun : processNode m a curr s = some s') :
    Advances s s' ∧ Closer s s' := by
  obtain ⟨set, hset⟩ : ∃ set, (s.graphNodes curr).pointsTo \
    (s.graphNodes curr).oldPointsTo = set := ⟨_, rfl⟩
  have hmembers : ∀ x ∈ set, x < s.size := fun x hx =>
    (hs.nodes curr).pointsTo x (Finset.mem_sdiff.mp (hset ▸ hx)).1
  rw [processNode_eq s hset] at hrun
  have htaken := @advances_taken _ _ curr _ hs hmembers
  have hsize := htaken.grows.size
  split at hrun
  · obtain rfl := Option.some.inj hrun
    exact ⟨htaken, htaken.rank_le hs, .inl rfl⟩
  · rename_i hne
    have hlt : (taken curr set s).rank < s.rank := by
      refine (rank_cases hs htaken.inRange htaken.grows htaken.pending).resolve_right
        fun ⟨_, hhalts⟩ => hne ?_
      have hold : (s.graphNodes curr).oldPointsTo ∪ set = (s.graphNodes curr).oldPointsTo := by
        refine Eq.trans ?_ (hhalts.passed curr hcurr)
        simp [taken, State.modify, State.stamp]
      rw [Finset.eq_empty_iff_forall_notMem]
      intro x hx
      have hx' := (Finset.mem_sdiff.mp (hset ▸ hx)).2
      exact hx' (hold ▸ Finset.mem_union_right _ hx)
    have hrest : Advances (taken curr set s) s' := by
      cases hsdt : s.sdt curr with
      | none =>
        rw [hsdt] at hrun
        obtain rfl := Option.some.inj hrun
        exact advances_propagate (hsize.symm ▸ hfits) htaken.inRange (hsize.symm ▸ hcurr)
          (hsize.symm ▸ hmembers) (by simp)
      | some t =>
        rw [hsdt] at hrun
        obtain ⟨⟨c, s₁⟩, hcollapse, hrun⟩ := Option.bind_eq_some_iff.mp hrun
        have hfound := htaken.trans (advances_findNode htaken.inRange t)
        have hsize₁ := hfound.grows.size
        obtain ⟨hunited, hrep, hspecial⟩ := advances_collapse hcollapse hfound.inRange
          (fun x hx => hsize₁.symm ▸ hmembers x ((Finset.mem_sort _).mp hx))
          (hsize₁.symm ▸ hsize ▸ findNode_lt (hsize.symm ▸ hs.sdt hsdt)) (by simp)
        have hsize₂ := hunited.grows.size
        have hqueued := advances_insertNext (i := c.rep) hunited.inRange (hsize₂.symm ▸ hrep)
        have hbefore := (advances_findNode htaken.inRange t).trans (hunited.trans hqueued)
        have hsize₃ := hbefore.grows.size
        obtain rfl := Option.some.inj hrun
        split
        · refine hbefore.trans (advances_propagate (hsize₃.symm ▸ hsize.symm ▸ hfits)
            hbefore.inRange (hsize₃.symm ▸ hsize.symm ▸ hcurr)
            (hsize₃.symm ▸ hsize.symm ▸ hmembers) fun nodes hnodes n hn => ?_)
          obtain rfl := Option.some.inj hnodes
          rw [hqueued.grows.size, hsize₂]
          obtain hn | hn := List.mem_append.mp hn
          · exact hspecial n hn
          · exact List.mem_singleton.mp hn ▸ hrep
        · exact hbefore
    exact ⟨htaken.trans hrest, (hrest.rank_le htaken.inRange).trans hlt.le,
      .inr ((hrest.rank_le htaken.inRange).trans_lt hlt)⟩

/-- After a node has been popped. -/
theorem InRange.popped {x : WorkListElement} {queue : W.Queue} (hs : InRange s)
    (hpop : W.pop s.currWL = some (x, queue)) :
    InRange { s with currWL := queue } ∧ x.node < s.size := by
  have helems := W.elems_pop hpop
  refine ⟨{ hs with waiting := fun y hy => hs.waiting y ?_ }, hs.waiting x
    (Multiset.mem_add.mpr (.inl (helems ▸ Multiset.mem_cons_self x _)))⟩
  obtain hy | hy := Multiset.mem_add.mp hy
  · exact Multiset.mem_add.mpr (.inl (helems ▸ Multiset.mem_cons_of_mem hy))
  · exact Multiset.mem_add.mpr (.inr hy)

/-- The current work list is used up. -/
theorem drain_ends {elements : Nat} (hfits : Fits m a s.size) (hs : InRange s)
    (helements : (W.elems s.currWL).card ≤ elements) (hrun : drain m a elements s = some s') :
    InRange s' ∧ s'.size = s.size ∧ Closer s s' ∧ W.elems s'.currWL = 0 := by
  induction elements generalizing s with
  | zero =>
    obtain rfl := Option.some.inj hrun
    exact ⟨hs, rfl, ⟨le_rfl, .inl rfl⟩,
      Multiset.card_eq_zero.mp (Nat.le_zero.mp helements)⟩
  | succ elements ih =>
    rw [drain] at hrun
    cases hpop : W.pop s.currWL with
    | none =>
      rw [hpop] at hrun
      obtain rfl := Option.some.inj hrun
      exact ⟨hs, rfl, ⟨le_rfl, .inl rfl⟩, W.elems_of_pop_none hpop⟩
    | some popped =>
      obtain ⟨x, queue⟩ := popped
      rw [hpop] at hrun
      dsimp only at hrun
      have helems := W.elems_pop hpop
      rw [helems, Multiset.card_cons] at helements
      have hqueue : (W.elems queue).card ≤ elements := Nat.le_of_succ_le_succ helements
      obtain ⟨hpopped, hx⟩ := hs.popped hpop
      split at hrun
      · rw [Option.bind_eq_bind, Option.bind_eq_some_iff] at hrun
        obtain ⟨s₁, hprocess, hrun⟩ := hrun
        obtain ⟨hadvances, hcloser⟩ :=
          closer_processNode (s := { s with currWL := queue }) hfits hpopped hx hprocess
        have hsize : s₁.size = s.size := hadvances.grows.size
        have hcurrWL : s₁.currWL = queue := hadvances.grows.currWL
        obtain ⟨hs', hsize', hcloser', hempty⟩ :=
          ih (hsize.symm ▸ hfits) hadvances.inRange (hcurrWL.symm ▸ hqueue) hrun
        exact ⟨hs', hsize'.trans hsize, hcloser.trans hcloser', hempty⟩
      · exact ih (s := { s with currWL := queue }) hfits hpopped hqueue hrun

theorem pop_eq_none {queue : W.Queue} (h : W.elems queue = 0) : W.pop queue = none := by
  cases hpop : W.pop queue with
  | none => rfl
  | some popped =>
    rw [W.elems_pop hpop] at h
    exact absurd h (Multiset.cons_ne_zero)

theorem view_switch :
    ({ s with currWL := s.nextWL, nextWL := s.currWL } : State W).view = s.view := by
  simp only [State.view, add_comm]

/-- One iteration, after which the work lists are switched. -/
theorem iteration_ends {s₁ s₂ : State W} (hfits : Fits m a s.size) (hs : InRange s)
    (hdetect : detectCycles s = some s₁)
    (hdrain : drain m a (W.elems s₁.currWL).card s₁ = some s₂) :
    InRange { s₂ with currWL := s₂.nextWL, nextWL := s₂.currWL } ∧ s₂.size = s.size ∧
      Closer s s₂ ∧ W.elems s₂.currWL = 0 := by
  obtain ⟨hs₁, hgrows, hcloser₁⟩ := closer_detectCycles hdetect hs
  obtain ⟨hs₂, hsize₂, hcloser₂, hempty⟩ :=
    drain_ends (hgrows.size.symm ▸ hfits) hs₁ le_rfl hdrain
  refine ⟨{ hs₂ with waiting := ?_ }, hsize₂.trans hgrows.size, hcloser₁.trans hcloser₂, hempty⟩
  rw [view_switch]
  exact hs₂.waiting

/-- With more iterations than the rank, the loop has come to its end. -/
theorem iterate_ends {iterations : Nat} (hfits : Fits m a s.size) (hs : InRange s)
    (hnext : W.elems s.nextWL = 0) (hrank : s.rank < iterations)
    (hrun : iterate m a iterations s = some s') : W.pop s'.currWL = none := by
  induction iterations generalizing s with
  | zero => exact absurd hrank (Nat.not_lt_zero _)
  | succ iterations ih =>
    rw [iterate] at hrun
    split at hrun
    · rename_i hempty
      obtain rfl := Option.some.inj hrun
      exact Option.isNone_iff_eq_none.mp hempty
    · rw [Option.bind_eq_bind, Option.bind_eq_some_iff] at hrun
      obtain ⟨s₁, hdetect, hrun⟩ := hrun
      obtain ⟨s₂, hdrain, hrun⟩ := Option.bind_eq_some_iff.mp hrun
      obtain ⟨hs₂, hsize, hcloser, hempty⟩ := iteration_ends hfits hs hdetect hdrain
      obtain heq | hlt := hcloser.2
      · -- The next work list is still empty.
        have hpop : W.pop s₂.nextWL = none := pop_eq_none (heq ▸ hnext)
        cases iterations with
        | zero =>
          obtain rfl := Option.some.inj hrun
          exact hpop
        | succ iterations =>
          rw [iterate, if_pos (by rw [hpop]; rfl)] at hrun
          obtain rfl := Option.some.inj hrun
          exact hpop
      · exact ih (s := { s₂ with currWL := s₂.nextWL, nextWL := s₂.currWL })
          (hsize.symm ▸ hfits) hs₂ hempty (hlt.trans_le (Nat.le_of_lt_succ hrank)) hrun

end Rank

end Lockout.Andersens.Solver
