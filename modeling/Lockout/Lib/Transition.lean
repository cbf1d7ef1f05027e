import Mathlib.Data.List.Basic

/-! # Labelled transitions, invariants and erasure

Finite runs of a labelled step relation, the invariant rule, and the two
directions in which a system with extra steps may be compared with the system it
extends: erasing the extra steps of a run (`Erasure`), and finding a run that
erases to a given one (`Covering`). -/

namespace Lockout.Lib.Transition

variable {S A C L : Type}

inductive Run (step : S → A → S → Prop) : S → List A → S → Prop
  | nil (s : S) : Run step s [] s
  | cons {s mid s' : S} {a : A} {as : List A} :
      step s a mid → Run step mid as s' → Run step s (a :: as) s'

/-- No step leaves the state. -/
def Stuck (step : S → A → S → Prop) (s : S) : Prop := ∀ a s', ¬ step s a s'

variable {step : S → A → S → Prop} {s mid s' : S} {as bs : List A}

theorem Run.single {a : A} (h : step s a s') : Run step s [a] s' := .cons h (.nil s')

theorem Run.append (h : Run step s as mid) (h' : Run step mid bs s') :
    Run step s (as ++ bs) s' := by
  induction h with
  | nil => exact h'
  | cons hstep _ ih => exact .cons hstep (ih h')

/-- What every step keeps, every run keeps. -/
theorem Run.invariant {I : S → Prop} (hstep : ∀ {s a s'}, I s → step s a s' → I s')
    (h : Run step s as s') (hs : I s) : I s' := by
  induction h with
  | nil => exact hs
  | cons ha _ ih => exact ih (hstep hs ha)

/-- The steps of `concrete` whose label erases to `a` are steps `a` of `abstract`
on the views; the other steps leave the view alone. -/
structure Erasure (concrete : C → L → C → Prop) (abstract : S → A → S → Prop)
    (view : C → S) (erase : L → Option A) : Prop where
  visible : ∀ {c l c' a}, concrete c l c' → erase l = some a → abstract (view c) a (view c')
  hidden : ∀ {c l c'}, concrete c l c' → erase l = none → view c' = view c

theorem Erasure.run {concrete : C → L → C → Prop} {abstract : S → A → S → Prop} {view : C → S}
    {erase : L → Option A} (h : Erasure concrete abstract view erase) {c c' : C} {ls : List L}
    (hrun : Run concrete c ls c') : Run abstract (view c) (ls.filterMap erase) (view c') := by
  induction hrun with
  | nil => exact .nil _
  | @cons c mid c' l ls hstep _ ih =>
    cases hl : erase l with
    | none =>
      rw [List.filterMap_cons_none hl, ← h.hidden hstep hl]
      exact ih
    | some a =>
      rw [List.filterMap_cons_some hl]
      exact .cons (h.visible hstep hl) ih

/-- From a ready state every abstract step is the erasure of a concrete run that
ends in a ready state. -/
structure Covering (concrete : C → L → C → Prop) (abstract : S → A → S → Prop)
    (view : C → S) (erase : L → Option A) (Ready : C → Prop) : Prop where
  cover : ∀ {c a s'}, Ready c → abstract (view c) a s' →
    ∃ ls c', Run concrete c ls c' ∧ ls.filterMap erase = [a] ∧ view c' = s' ∧ Ready c'

theorem Covering.run {concrete : C → L → C → Prop} {abstract : S → A → S → Prop} {view : C → S}
    {erase : L → Option A} {Ready : C → Prop} (h : Covering concrete abstract view erase Ready)
    {as : List A} {s s' : S} (hrun : Run abstract s as s') {c : C} (hready : Ready c)
    (hview : view c = s) :
    ∃ ls c', Run concrete c ls c' ∧ ls.filterMap erase = as ∧ view c' = s' ∧ Ready c' := by
  induction hrun generalizing c with
  | nil s => exact ⟨[], c, .nil c, rfl, hview, hready⟩
  | cons hstep _ ih =>
    obtain ⟨ls, mid, hls, hone, hmid, hready⟩ := h.cover hready (hview ▸ hstep)
    obtain ⟨ls', c', hls', hrest, hc', hready'⟩ := ih hready hmid
    refine ⟨ls ++ ls', c', hls.append hls', ?_, hc', hready'⟩
    rw [List.filterMap_append, hone, hrest]
    rfl

end Lockout.Lib.Transition
