import Lockout.Andersens.Preparation

/-! # The solution

When the loop of `SolveConstraints` has come to its end, the points-to sets solve all
constraints. The exceptions are those of the source: nothing goes to a special node, copies
with an offset are passed over, and what `UniteNodes` resets behind an entry of `SDT` is not put
on a work list, so that it is only passed on when the members that the entry is for arrive. -/

namespace Lockout.Andersens.Progress.View
open Lockout.Andersens.Objects Lockout.Andersens.Slots Lockout.Andersens.Progress

/-- Entries of `SDT` lead to `n` from a node that points to nothing. -/
inductive Stranded (v : View) : Nat → Prop
  | empty {f n : Nat} : v.pointsTo f = ∅ → v.Link noLinks f n → v.Stranded n
  | link {f n : Nat} : v.Stranded f → v.Link noLinks f n → v.Stranded n

/-- All that `src` points to, `dest` points to. -/
def Flows (v : View) (src dest : Nat) : Prop :=
  v.Stranded src ∨ v.pointsTo src ⊆ v.pointsTo dest

/-- The sets solve constraint `c`. -/
def Satisfies (v : View) (m : Module) (a : Graph) (c : Constraint) : Prop :=
  match c.type with
  | .addressOf => c.src ∈ v.pointsTo c.dest ∨ v.Special c.dest
  | .copy => c.offset ≠ 0 ∨ v.Flows c.src c.dest
  | .load => v.Stranded c.src ∨
      ∀ x ∈ v.pointsTo c.src, ∀ y, slot m a c x = some y → v.Flows y c.dest
  | .store => v.Stranded c.dest ∨ ∀ x ∈ v.pointsTo c.dest, ∀ y, slot m a c x = some y →
      v.rep y < numberSpecialNodes ∨ v.Flows c.src y

end Lockout.Andersens.Progress.View

namespace Lockout.Andersens.Solver
open Lockout.Andersens.Objects Lockout.Andersens.Slots Lockout.Andersens.Progress
open Lockout.Andersens.Progress.View

/-! ## At the end -/

section Exits
variable {m : Module} {a : Graph} {v : View} {c : Constraint} {n src dest : Nat}

theorem stranded_of_covered (hwaiting : v.waiting = 0) (h : v.Covered Nobody noLinks n) :
    v.pointsTo n = ∅ ∨ v.Stranded n := by
  induction h with
  | owed ho => exact ho.elim
  | queued hq =>
    rw [View.Queued, hwaiting] at hq
    exact absurd hq (Multiset.notMem_zero _)
  | empty he => exact .inl he
  | link _ _ hl ih =>
    right
    obtain hempty | hstranded := ih
    · exact .empty hempty hl
    · exact .link hstranded hl

theorem Stranded.congr {i j : Nat} (h : v.Stranded i) (hij : v.rep i = v.rep j) :
    v.Stranded j := by
  cases h with
  | empty he hl => exact .empty he (hl.congr_right hij)
  | link hs hl => exact .link hs (hl.congr_right hij)

/-- A node that is not stranded has done all its work. -/
theorem settled_of_stable (h : Stable m a v) (hwaiting : v.waiting = 0)
    (hn : ¬v.Stranded n) : v.Settled m a noLinks (v.pointsTo n) (v.rep n) := by
  have hrep : v.rep (v.rep n) = v.rep n := h.proper.rep_rep n
  obtain hc | hs := h.covered hrep
  · obtain hempty | hstranded := stranded_of_covered hwaiting hc
    · have hempty' : v.pointsTo n = ∅ := by rwa [View.pointsTo, hrep] at hempty
      rw [hempty']
      exact .empty
    · exact absurd (Stranded.congr hstranded hrep) hn
  · exact hs

theorem flows_of_connected (h : Stable m a v) (hwaiting : v.waiting = 0)
    (hc : v.Connected src dest) : v.Flows src dest := by
  by_cases hsrc : v.Stranded src
  · exact .inl hsrc
  · right
    obtain heq | ⟨e, he, heq⟩ := hc
    · rw [View.pointsTo, View.pointsTo, heq]
    · obtain hself | hsub := (settled_of_stable h hwaiting hsrc).edges e he
      · rw [View.pointsTo, View.pointsTo, ← heq, hself]
      · have hdest : v.pointsTo e = v.pointsTo dest := by
          rw [View.pointsTo, View.pointsTo, heq]
        rwa [hdest] at hsub

/-- A constraint that is in the graph is solved. -/
theorem satisfies_of_stable (h : Stable m a v) (hwaiting : v.waiting = 0)
    (hc : v.Represented noLinks c) : v.Satisfies m a c := by
  have hkept : ∀ {i}, v.Kept noLinks i c → ¬v.Stranded i → v.Applied m a (v.pointsTo i) c := by
    intro i hkept hi
    have hsettled := settled_of_stable h hwaiting hi
    obtain ⟨c', hc', hsame⟩ | ⟨htype, hoffset, t, ht, hconnected⟩ := hkept
    · exact (hsettled.constraints c' hc').congr
        ⟨hsame.type.symm, hsame.offset.symm, hsame.src.symm, hsame.dest.symm⟩
    · intro x hx y hy
      refine ⟨fun hload => absurd (htype.symm.trans hload) nofun, fun _ => ?_⟩
      obtain rfl : x = y := Option.some.inj ((slot_zero hoffset x).symm.trans hy)
      have ht' : v.Link noLinks (v.rep i) t := ht.congr (h.proper.rep_rep i).symm
      obtain heq | hlt := hsettled.collapsed ht' x hx
      · exact .inr (hconnected.congr_right heq.symm)
      · exact .inl hlt
  unfold View.Represented at hc
  unfold View.Satisfies
  cases htype : c.type with
  | addressOf =>
    rw [htype] at hc
    exact hc
  | copy =>
    rw [htype] at hc
    exact hc.imp_right (flows_of_connected h hwaiting)
  | load =>
    rw [htype] at hc
    refine or_iff_not_imp_left.mpr fun hsrc x hx y hy => ?_
    exact flows_of_connected h hwaiting ((hkept hc hsrc x hx y hy).1 htype)
  | store =>
    rw [htype] at hc
    refine or_iff_not_imp_left.mpr fun hdest x hx y hy => ?_
    exact ((hkept hc hdest x hx y hy).2 htype).imp_right (flows_of_connected h hwaiting)

end Exits

/-! ## The loops -/

section Loops
variable {W : WorkList} {m : Module} {a : Graph} {cs : List Constraint} {s s' : State W}

/-- An element that is out of date is passed over. -/
theorem Solving.drop {x : WorkListElement} {queue : W.Queue} (h : Solving m a cs s)
    (hpop : W.pop s.currWL = some (x, queue)) (hvalid : ¬s.valid x = true) :
    Solving m a cs { s with currWL := queue } := by
  have hgraph : SameGraph s.view ({ s with currWL := queue } : State W).view :=
    ⟨rfl, rfl, fun _ => ⟨rfl, rfl, rfl⟩⟩
  refine h.of_ext (h.stable.drop (x := x) hgraph rfl (fun y hy => ?_) ?_) hgraph.ext
    (fun y => .inl) fun y => .inl
  · obtain hy | hy := Multiset.mem_add.mp hy
    · exact (W.mem_of_pop hpop hy).imp_right fun hy => Multiset.mem_add.mpr (.inl hy)
    · exact .inr (Multiset.mem_add.mpr (.inr hy))
  · by_contra hboth
    push Not at hboth
    refine hvalid (Bool.and_eq_true_iff.mpr ⟨isRep_iff.mpr hboth.2, ?_⟩)
    exact beq_iff_eq.mpr hboth.1

/-- A node that is popped is a representative. -/
theorem rep_of_valid {x : WorkListElement} (hvalid : s.valid x = true) :
    s.view.rep x.node = x.node :=
  isRep_iff.mp (Bool.and_eq_true_iff.mp hvalid).1

theorem solving_drain {elements : Nat} (h : Solving m a cs s)
    (hrun : drain m a elements s = some s') : Solving m a cs s' := by
  induction elements generalizing s with
  | zero => exact Option.some.inj hrun ▸ h
  | succ elements ih =>
    rw [drain] at hrun
    cases hpop : W.pop s.currWL with
    | none =>
      rw [hpop] at hrun
      exact Option.some.inj hrun ▸ h
    | some popped =>
      obtain ⟨x, queue⟩ := popped
      rw [hpop] at hrun
      dsimp only at hrun
      split at hrun
      · rename_i hvalid
        rw [Option.bind_eq_bind, Option.bind_eq_some_iff] at hrun
        obtain ⟨s₁, hprocess, hrun⟩ := hrun
        exact ih (processNode_spec h hpop (rep_of_valid hvalid) hprocess) hrun
      · rename_i hvalid
        exact ih (h.drop hpop hvalid) hrun

theorem solving_detectCycles (h : Solving m a cs s) (hrun : detectCycles s = some s') :
    Solving m a cs s' := by
  have hsearched := detectCycles_spec hrun ⟨h.stable.proper, h.stack⟩ h.candidates
  refine h.of_ext (h.stable.step (hsearched.step noLinks) id) (hsearched.step noLinks).ext
    (fun x hx => .inr (hsearched.stack x hx)) fun x hx => ?_
  rw [tarjanWL_detectCycles hrun] at hx
  exact absurd hx List.not_mem_nil

/-- The two work lists change places. -/
theorem Solving.switch (h : Solving m a cs s) :
    Solving m a cs { s with currWL := s.nextWL, nextWL := s.currWL } := by
  refine ⟨?_, ?_, h.stack, h.candidates⟩
  · rw [view_switch]
    exact h.stable
  · rw [view_switch]
    exact h.represented

theorem solving_iterate {iterations : Nat} (h : Solving m a cs s)
    (hrun : iterate m a iterations s = some s') : Solving m a cs s' := by
  induction iterations generalizing s with
  | zero => exact Option.some.inj hrun ▸ h
  | succ iterations ih =>
    rw [iterate] at hrun
    split at hrun
    · exact Option.some.inj hrun ▸ h
    · rw [Option.bind_eq_bind, Option.bind_eq_some_iff] at hrun
      obtain ⟨s₁, hdetect, hrun⟩ := hrun
      obtain ⟨s₂, hdrain, hrun⟩ := Option.bind_eq_some_iff.mp hrun
      have hs₂ := solving_drain (solving_detectCycles h hdetect) hdrain
      exact ih hs₂.switch hrun

/-- The next work list is empty between two iterations. -/
theorem nextWL_iterate {iterations : Nat} (hfits : Fits m a s.size) (hs : InRange s)
    (hnext : W.elems s.nextWL = 0) (hrun : iterate m a iterations s = some s') :
    W.elems s'.nextWL = 0 := by
  induction iterations generalizing s with
  | zero => exact Option.some.inj hrun ▸ hnext
  | succ iterations ih =>
    rw [iterate] at hrun
    split at hrun
    · exact Option.some.inj hrun ▸ hnext
    · rw [Option.bind_eq_bind, Option.bind_eq_some_iff] at hrun
      obtain ⟨s₁, hdetect, hrun⟩ := hrun
      obtain ⟨s₂, hdrain, hrun⟩ := Option.bind_eq_some_iff.mp hrun
      obtain ⟨hs₂, hsize, -, hempty⟩ := iteration_ends hfits hs hdetect hdrain
      exact ih (s := { s₂ with currWL := s₂.nextWL, nextWL := s₂.currWL })
        (hsize.symm ▸ hfits) hs₂ hempty hrun

end Loops

/-! ## The whole run -/

section Runs
variable {W : WorkList} {m : Module} {a : Graph} {o : Offline} {s : State W} {iterations : Nat}

/-- More iterations than this are never made. -/
def limit (size : Nat) : Nat := size * (2 * size ^ 2 + 1) + 4 * size ^ 2

theorem rank_le_limit (hcandidates : s.tarjanWL = []) : s.rank ≤ limit s.size := by
  have hrepresentatives : s.representatives.card ≤ s.size :=
    calc s.representatives.card
        ≤ (Finset.range s.size).card := Finset.card_le_card (Finset.filter_subset _ _)
      _ = s.size := Finset.card_range _
  have hmul := Nat.mul_le_mul_right (2 * s.size ^ 2 + 1) hrepresentatives
  have hpending : s.pending = 2 * (s.size ^ 2 - s.edgesChecked.card) := by
    simp [State.pending, hcandidates]
  unfold State.rank limit
  omega

/-- The loop that begins with `s₀` has its end before `iterations`. -/
theorem Prepared.drained {s₀ : State W} (h : Prepared m a o s₀)
    (hfits : Fits m a o.reps.size) (hlimit : limit o.reps.size < iterations)
    (hrun : iterate m a iterations s₀ = some s) : W.pop s.currWL = none := by
  have hrank := rank_le_limit h.candidates
  rw [h.size] at hrank
  exact iterate_ends (h.size.symm ▸ hfits) h.inRange h.nextWL (hrank.trans_lt hlimit) hrun

/-- At the end of the loop that begins with `s₀`, nothing is left to do. -/
theorem Prepared.satisfies {s₀ : State W} (h : Prepared m a o s₀) (hfits : Fits m a o.reps.size)
    (hguarded : Guarded s₀.view) (hlimit : limit o.reps.size < iterations)
    (hrun : iterate m a iterations s₀ = some s) : ∀ c ∈ o.constraints, s.view.Satisfies m a c := by
  have hempty := h.drained hfits hlimit hrun
  have hnext := nextWL_iterate (h.size.symm ▸ hfits) h.inRange h.nextWL hrun
  have hsolving := solving_iterate (h.solving hguarded) hrun
  have hwaiting : s.view.waiting = 0 := by
    change W.elems s.currWL + W.elems s.nextWL = 0
    rw [W.elems_of_pop_none hempty, hnext, add_zero]
  exact fun c hc => satisfies_of_stable hsolving.stable hwaiting (hsolving.represented c hc)

end Runs

end Lockout.Andersens.Solver
