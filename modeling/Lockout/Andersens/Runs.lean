import Lockout.Andersens.Assertions

/-! # Runs of the solver

The loop of `SolveConstraints` ends, and with a solution. Without entries in `SDT` none of its
assertions fails on the way, and no node is stranded in the solution. -/

namespace Lockout.Andersens.Progress.View
open Lockout.Andersens.Objects Lockout.Andersens.Slots Lockout.Andersens.Progress

/-- The sets solve constraint `c`, with no exception for what entries of `SDT` lead to. -/
def Solves (v : View) (m : Module) (a : Graph) (c : Constraint) : Prop :=
  match c.type with
  | .addressOf => c.src ∈ v.pointsTo c.dest ∨ v.Special c.dest
  | .copy => c.offset ≠ 0 ∨ v.pointsTo c.src ⊆ v.pointsTo c.dest
  | .load => ∀ x ∈ v.pointsTo c.src, ∀ y, slot m a c x = some y →
      v.pointsTo y ⊆ v.pointsTo c.dest
  | .store => ∀ x ∈ v.pointsTo c.dest, ∀ y, slot m a c x = some y →
      v.rep y < numberSpecialNodes ∨ v.pointsTo c.src ⊆ v.pointsTo y

end Lockout.Andersens.Progress.View

namespace Lockout.Andersens.Solver
open Lockout.Andersens.Objects Lockout.Andersens.Slots Lockout.Andersens.Progress
open Batteries (UnionFind)
open Lockout.Lib (sortedQueue)

/-! ## Programs for the examples -/

abbrev sortedWorkList : WorkList :=
  sortedQueue fun x : WorkListElement => x.timestamp.toNat

/-- The pointers `4` and `5` are copies of each other; one is loaded from, and through the
other an address is stored. -/
def copiedBothWays : Offline where
  constraints := [
    { type := .addressOf, dest := 4, src := 3 }, { type := .copy, dest := 5, src := 4 },
    { type := .copy, dest := 4, src := 5 }, { type := .load, dest := 6, src := 4 },
    { type := .store, dest := 5, src := 7 }, { type := .addressOf, dest := 7, src := 8 }]
  reps := UnionFind.empty.push.push.push.push.push.push.push.push.push
  sdt _ := none
  addressTaken _ := false
  pointerEquivLabel _ := 0
  penleClass2Node _ := none

/-- What `4` points to is stored into from `5` and loaded into `5`: a cycle, which the offline
search has put into `SDT`. -/
def collapsing : Offline where
  constraints := [
    { type := .addressOf, dest := 4, src := 3 }, { type := .store, dest := 4, src := 5 },
    { type := .load, dest := 5, src := 4 }, { type := .addressOf, dest := 5, src := 6 }]
  reps := UnionFind.empty.push.push.push.push.push.push.push
  sdt i := if i = 4 then some 5 else none
  addressTaken _ := false
  pointerEquivLabel _ := 0
  penleClass2Node _ := none

theorem copiedBothWays_wellFormed : copiedBothWays.WellFormed where
  placed := by decide
  sdt := nofun
  stored _ := nofun

theorem collapsing_wellFormed : collapsing.WellFormed where
  placed := by decide
  sdt {n t} ht := by
    obtain ⟨-, rfl⟩ : n = 4 ∧ 5 = t := by simpa [collapsing] using ht
    decide
  stored {n t} _ ht := by
    obtain ⟨rfl, -⟩ : n = 4 ∧ 5 = t := by simpa [collapsing] using ht
    exact ⟨{ type := .store, dest := 4, src := 5 }, by decide, rfl, rfl⟩

/-- Without functions, no offset leads away from a member. -/
theorem fits_empty {size : Nat} :
    Fits ⟨0, []⟩ { graphNodes := [], constraints := [] } size := by
  intro c x y hx hy
  simp [slot, memberOffset] at hy
  omega

theorem guarded_copiedBothWays {s₀ : State sortedWorkList}
    (hprepare : prepare sortedWorkList copiedBothWays = some s₀) : Guarded s₀.view := by
  obtain rfl : (prepare sortedWorkList copiedBothWays).get (by decide +kernel) = s₀ :=
    Option.get_of_eq_some _ hprepare
  have hprepared : Prepared ⟨0, []⟩ { graphNodes := [], constraints := [] } copiedBothWays _ :=
    prepared_of_prepare copiedBothWays_wellFormed hprepare
  refine hprepared.guarded (by decide +kernel) fun {n t} ht => ?_
  rw [hprepared.sdt (fun _ => rfl)] at ht
  cases ht

theorem guarded_collapsing {s₀ : State sortedWorkList}
    (hprepare : prepare sortedWorkList collapsing = some s₀) : Guarded s₀.view := by
  obtain rfl : (prepare sortedWorkList collapsing).get (by decide +kernel) = s₀ :=
    Option.get_of_eq_some _ hprepare
  have hprepared : Prepared ⟨0, []⟩ { graphNodes := [], constraints := [] } collapsing _ :=
    prepared_of_prepare collapsing_wellFormed hprepare
  refine hprepared.guarded (by decide +kernel) fun {n t} ht => ?_
  obtain ⟨-, rfl⟩ : n = 4 ∧ 5 = t := by
    have ht : collapsing.sdt n = some t := ht
    simpa [collapsing] using ht
  decide +kernel

theorem solveConstraints_collapsing : ∃ s : State sortedWorkList,
    solveConstraints ⟨0, []⟩ { graphNodes := [], constraints := [] } collapsing (limit 7 + 1) =
      some s :=
  Option.isSome_iff_exists.mp (by decide +kernel)

/-! ## Results -/

section Runs
variable {W : WorkList} {m : Module} {a : Graph} {o : Offline} {s : State W} {iterations : Nat}

/-- The sets at the end solve all constraints. -/
theorem solveConstraints_satisfies (ho : o.WellFormed) (hfits : Fits m a o.reps.size)
    (hguarded : ∀ s₀ : State W, prepare W o = some s₀ → Guarded s₀.view)
    (hlimit : limit o.reps.size < iterations)
    (hrun : solveConstraints m a o iterations = some s) :
    ∀ c ∈ o.constraints, s.view.Satisfies m a c := by
  rw [solveConstraints, Option.bind_eq_bind, Option.bind_eq_some_iff] at hrun
  obtain ⟨s₀, hprepare, hrun⟩ := hrun
  exact (prepared_of_prepare (m := m) (a := a) ho hprepare).satisfies hfits
    (hguarded s₀ hprepare) hlimit hrun

theorem solveConstraints_satisfies_collapsing : ∃ s : State sortedWorkList,
    solveConstraints ⟨0, []⟩ { graphNodes := [], constraints := [] } collapsing
      (limit 7 + 1) = some s ∧ ∀ c ∈ collapsing.constraints,
        s.view.Satisfies ⟨0, []⟩ { graphNodes := [], constraints := [] } c := by
  obtain ⟨s, hrun⟩ := solveConstraints_collapsing
  exact ⟨s, hrun, solveConstraints_satisfies collapsing_wellFormed fits_empty
    (fun s₀ hprepare => guarded_collapsing hprepare) (Nat.lt_succ_self _) hrun⟩

/-- Without entries in `SDT`, no node is stranded. -/
theorem not_stranded {v : View} (hsdt : ∀ n, v.sdt n = none) {n : Nat} : ¬v.Stranded n := by
  have hlink : ∀ {f n}, ¬v.Link noLinks f n := by
    rintro f n (⟨t, ht, -⟩ | ⟨_, _, hfalse, -⟩)
    · exact absurd ((hsdt _).symm.trans ht) nofun
    · exact hfalse
  intro h
  cases h with
  | empty _ hl => exact hlink hl
  | link _ hl => exact hlink hl

theorem solves_of_satisfies {v : View} {c : Constraint} (hsdt : ∀ n, v.sdt n = none)
    (h : v.Satisfies m a c) : v.Solves m a c := by
  have hflows : ∀ {src dest}, v.Flows src dest → v.pointsTo src ⊆ v.pointsTo dest :=
    fun h => h.resolve_left (not_stranded hsdt)
  unfold View.Satisfies at h
  unfold View.Solves
  cases htype : c.type with
  | addressOf =>
    rw [htype] at h
    exact h
  | copy =>
    rw [htype] at h
    exact h.imp_right hflows
  | load =>
    rw [htype] at h
    exact fun x hx y hy => hflows (h.resolve_left (not_stranded hsdt) x hx y hy)
  | store =>
    rw [htype] at h
    exact fun x hx y hy => (h.resolve_left (not_stranded hsdt) x hx y hy).imp_right hflows

/-- Without entries in `SDT` no assertion of the loop fails, and the loop ends with a solution. -/
theorem solveConstraints_solves {s₀ : State W} (ho : o.WellFormed)
    (hfits : Fits m a o.reps.size) (hsdt : ∀ n, o.sdt n = none)
    (hprepare : prepare W o = some s₀) (hguarded : Guarded s₀.view)
    (hlimit : limit o.reps.size < iterations) :
    ∃ s : State W, solveConstraints m a o iterations = some s ∧ W.pop s.currWL = none ∧
      ∀ c ∈ o.constraints, s.view.Solves m a c := by
  have hprepared := prepared_of_prepare (m := m) (a := a) ho hprepare
  obtain ⟨s, hrun, hsdt'⟩ := hprepared.total hfits hguarded hsdt iterations
  refine ⟨s, ?_, hprepared.drained hfits hlimit hrun, fun c hc => ?_⟩
  · rw [solveConstraints, hprepare]
    exact hrun
  · exact solves_of_satisfies hsdt' (hprepared.satisfies hfits hguarded hlimit hrun c hc)

theorem solveConstraints_solves_copiedBothWays : ∃ s : State sortedWorkList,
    solveConstraints ⟨0, []⟩ { graphNodes := [], constraints := [] } copiedBothWays
      (limit 9 + 1) = some s ∧ sortedWorkList.pop s.currWL = none ∧
        ∀ c ∈ copiedBothWays.constraints,
          s.view.Solves ⟨0, []⟩ { graphNodes := [], constraints := [] } c := by
  obtain ⟨s₀, hprepare⟩ : ∃ s₀, prepare sortedWorkList copiedBothWays = some s₀ :=
    Option.isSome_iff_exists.mp (by decide +kernel)
  exact solveConstraints_solves copiedBothWays_wellFormed fits_empty (fun _ => rfl) hprepare
    (guarded_copiedBothWays hprepare) (Nat.lt_succ_self _)

end Runs

end Lockout.Andersens.Solver
