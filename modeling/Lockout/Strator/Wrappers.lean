import Mathlib.Algebra.Group.Nat.Defs
import Mathlib.Data.List.Forall2
import Mathlib.Data.List.GetD
import Mathlib.Data.List.Lex
import Mathlib.Data.Prod.Lex
import Mathlib.Data.Set.Basic
import Lockout.Lib.RedBlackTree

/-! # Wrappers of getelementptr contents

`GEPValueFactory` keeps one global variable for each operand and index vector, in a
`std::map` that is searched by `GEPContentWrapper::operator<`. Of two vectors of one
length this calls each the smaller one that is smaller at any index, so it can hold both
ways. It is an order, and the contents keep their wrappers, just where of two vectors one
is nowhere above the other (`canonical_iff`). -/

namespace Lockout.Strator.Wrappers
open Lockout.Lib.RedBlackTree Lockout.Lib.RedBlackTree.Tree

/-- An operand, by its address, and the indices. -/
structure GEPContentWrapper where
  operand : Nat
  indices : List Int
  deriving DecidableEq, Repr

namespace GEPContentWrapper

/-- The loop of `operator<`, whose counter is an `unsigned`. -/
def anyLess (indices rhs : List Int) : Nat → UInt32 → Bool → Option Bool
  | 0, _, _ => none
  | n + 1, i, comp3 =>
    if i.toNat < indices.length then
      anyLess indices rhs n (i + 1)
        (comp3 || decide (indices.getD i.toNat 0 < rhs.getD i.toNat 0))
    else some comp3

/-- `operator<`; `none` where its loop does not end (`anyLess_eq_none`). -/
def less (lhs rhs : GEPContentWrapper) : Option Bool := do
  let comp1 := decide (lhs.operand < rhs.operand)
  let comp2 := decide (lhs.indices.length < rhs.indices.length)
  let comp3 ←
    if lhs.indices.length = rhs.indices.length then
      anyLess lhs.indices rhs.indices (lhs.indices.length + 1) 0 false
    else some false
  return comp1 || (decide (lhs.operand = rhs.operand) && comp2) ||
    (decide (lhs.operand = rhs.operand) &&
      decide (lhs.indices.length = rhs.indices.length) && comp3)

end GEPContentWrapper

open GEPContentWrapper

/-- A declaration that `getGEPWrapperValue` adds to the module. The name is the one asked
for. -/
structure GlobalVariable where
  name : String
  bits : Nat := 32
  isConstant : Bool := false
  linkage : String := "external"
  alignment : Nat := 4
  deriving DecidableEq, Repr

/-- A wrapper value is a global variable, by its place in the module. -/
structure GEPValueFactory where
  GEPWrapperToValue : Tree GEPContentWrapper Nat := .leaf
  module : List GlobalVariable := []

def getGEPWrapperValue (getName : Nat → String) (operand : Nat) (indices : List Int)
    (factory : GEPValueFactory) : Option (Nat × GEPValueFactory) := do
  let wrapper : GEPContentWrapper := ⟨operand, indices⟩
  match ← find less wrapper factory.GEPWrapperToValue with
  | none =>
    let valueWrapper := factory.module.length
    let map ← Tree.insert less wrapper valueWrapper factory.GEPWrapperToValue
    return (valueWrapper, ⟨map, factory.module ++ [{ name := getName operand }]⟩)
  | some valueWrapper => return (valueWrapper, factory)

/-- The wrappers that a sequence of calls gets. -/
def getAll (getName : Nat → String) :
    List GEPContentWrapper → GEPValueFactory → Option (List Nat × GEPValueFactory)
  | [], factory => some ([], factory)
  | call :: calls, factory => do
    let (wrapper, factory) ← getGEPWrapperValue getName call.operand call.indices factory
    let (wrappers, factory) ← getAll getName calls factory
    return (wrapper :: wrappers, factory)

/-! ## What the comparison says -/

/-- What `operator<` asks: of two vectors of one length, that the first one is smaller
somewhere. -/
def Below (a b : GEPContentWrapper) : Prop :=
  a.operand < b.operand ∨ a.operand = b.operand ∧
    (a.indices.length < b.indices.length ∨ a.indices.length = b.indices.length ∧
      ¬ List.Forall₂ (· ≤ ·) b.indices a.indices)

section Comparison
variable {a b : GEPContentWrapper} {indices rhs : List Int} {n : Nat} {i : UInt32} {comp3 : Bool}

/-- The counter of the loop cannot come to a length that is no `unsigned`. -/
theorem anyLess_eq_none (hlong : 2 ^ 32 ≤ indices.length) :
    anyLess indices rhs n i comp3 = none := by
  induction n generalizing i comp3 with
  | zero => rfl
  | succ n ih =>
    have hi : i.toNat < indices.length := Nat.lt_of_lt_of_le i.toNat_lt hlong
    rw [anyLess, if_pos hi]
    exact ih

theorem anyLess_spec (hshort : indices.length < 2 ^ 32) (hi : i.toNat ≤ indices.length)
    (hn : indices.length < n + i.toNat) :
    ∃ r, anyLess indices rhs n i comp3 = some r ∧ (r = true ↔ comp3 = true ∨
      ∃ j, i.toNat ≤ j ∧ j < indices.length ∧ indices.getD j 0 < rhs.getD j 0) := by
  induction n generalizing i comp3 with
  | zero => omega
  | succ n ih =>
    rw [anyLess]
    by_cases hlt : i.toNat < indices.length
    · have hnext : (i + 1).toNat = i.toNat + 1 := by
        rw [UInt32.toNat_add, UInt32.toNat_one]
        omega
      obtain ⟨r, hrun, hr⟩ := @ih (i + 1)
        (comp3 || decide (indices.getD i.toNat 0 < rhs.getD i.toNat 0)) (by omega) (by omega)
      rw [if_pos hlt]
      refine ⟨r, hrun, ?_⟩
      rw [hr, hnext, Bool.or_eq_true, decide_eq_true_iff, or_assoc]
      refine or_congr_right ⟨?_, ?_⟩
      · rintro (hless | ⟨j, hj, hless⟩)
        · exact ⟨i.toNat, Nat.le_refl _, hlt, hless⟩
        · exact ⟨j, by omega, hless⟩
      · rintro ⟨j, hj, hjlt, hless⟩
        rcases Nat.eq_or_lt_of_le hj with rfl | hj
        · exact .inl hless
        · exact .inr ⟨j, hj, hjlt, hless⟩
    · rw [if_neg hlt]
      refine ⟨comp3, rfl, (or_iff_left ?_).symm⟩
      rintro ⟨j, hj, hjlt, -⟩
      omega

theorem not_forall₂_le_iff (hlength : indices.length = rhs.length) :
    ¬ List.Forall₂ (· ≤ ·) rhs indices ↔
      ∃ j, j < indices.length ∧ indices.getD j 0 < rhs.getD j 0 := by
  rw [List.forall₂_iff_get]
  constructor
  · intro hnot
    by_contra hnone
    refine hnot ⟨hlength.symm, fun j hj hj' => ?_⟩
    by_contra hlt
    refine hnone ⟨j, hj', ?_⟩
    rw [List.getD_eq_getElem _ _ hj, List.getD_eq_getElem _ _ hj']
    exact Int.not_le.mp hlt
  · rintro ⟨j, hj, hless⟩ ⟨-, hle⟩
    have hj' : j < rhs.length := hlength ▸ hj
    rw [List.getD_eq_getElem _ _ hj, List.getD_eq_getElem _ _ hj'] at hless
    exact absurd (hle j hj' hj) (Int.not_le.mpr hless)

/-- Where the loop ends, the comparison has its answer. -/
theorem less_spec (hshort : a.indices.length < 2 ^ 32) :
    ∃ r, less a b = some r ∧ (r = true ↔ Below a b) := by
  unfold less
  by_cases hlength : a.indices.length = b.indices.length
  · obtain ⟨r, hrun, hr⟩ := @anyLess_spec a.indices b.indices (a.indices.length + 1) 0 false
      hshort (Nat.zero_le _) (by simp)
    refine ⟨_, by rw [if_pos hlength, hrun]; rfl, ?_⟩
    have hsome : r = true ↔ ¬ List.Forall₂ (· ≤ ·) b.indices a.indices := by
      rw [not_forall₂_le_iff hlength, hr]
      simp
    simp [Below, hlength, hsome]
  · refine ⟨_, by rw [if_neg hlength]; rfl, ?_⟩
    simp [Below, hlength]

theorem less_eq_none (hlong : 2 ^ 32 ≤ a.indices.length)
    (hlength : a.indices.length = b.indices.length) : less a b = none := by
  rw [less, if_pos hlength, anyLess_eq_none hlong]
  rfl

theorem less_eq_true (hshort : a.indices.length < 2 ^ 32) : less a b = some true ↔ Below a b := by
  obtain ⟨r, hrun, hr⟩ := @less_spec a b hshort
  rw [hrun, Option.some.injEq, hr]

end Comparison

/-! ## The order -/

/-- `operator<` is a strict weak order on `S`, incomparable just when equal. -/
structure StrictWeakOn (S : Set GEPContentWrapper) : Prop where
  irrefl : ∀ a ∈ S, less a a = some false
  asymm : ∀ a ∈ S, ∀ b ∈ S, less a b = some true → less b a = some false
  trans : ∀ a ∈ S, ∀ b ∈ S, ∀ c ∈ S, less a b = some true → less b c = some true →
    less a c = some true
  incomparable : ∀ a ∈ S, ∀ b ∈ S, less a b = some false → less b a = some false → a = b

/-- Index vectors whose length is an `unsigned`, and of two of one operand and length one
is nowhere above the other. -/
structure OneSided (S : Set GEPContentWrapper) : Prop where
  short : ∀ a ∈ S, a.indices.length < 2 ^ 32
  oneSided : ∀ a ∈ S, ∀ b ∈ S, a.operand = b.operand → a.indices.length = b.indices.length →
    List.Forall₂ (· ≤ ·) a.indices b.indices ∨ List.Forall₂ (· ≤ ·) b.indices a.indices

namespace GEPContentWrapper

def key (a : GEPContentWrapper) : ℕ ×ₗ ℕ ×ₗ List Int :=
  toLex (a.operand, toLex (a.indices.length, a.indices))

theorem key_injective : Function.Injective key := by
  rintro ⟨operand, indices⟩ ⟨operand', indices'⟩ h
  obtain ⟨rfl, hrest⟩ := Prod.mk.inj (toLex_inj.mp h)
  obtain ⟨-, rfl⟩ := Prod.mk.inj (toLex_inj.mp hrest)
  rfl

/-- By operand, then by length, then the vectors as words. -/
instance : LinearOrder GEPContentWrapper := LinearOrder.lift' key key_injective

end GEPContentWrapper

section Order
variable {S : Set GEPContentWrapper} {a b : GEPContentWrapper} {xs ys : List Int}

theorem lt_iff : a < b ↔ a.operand < b.operand ∨ a.operand = b.operand ∧
    (a.indices.length < b.indices.length ∨ a.indices.length = b.indices.length ∧
      a.indices < b.indices) := by
  change a.key < b.key ↔ _
  rw [key, key, Prod.Lex.toLex_lt_toLex, Prod.Lex.toLex_lt_toLex]

theorem le_of_forall₂ (h : List.Forall₂ (· ≤ ·) xs ys) : xs ≤ ys := by
  induction h with
  | nil => exact le_rfl
  | @cons x y xs ys hxy _ ih =>
    rcases hxy.lt_or_eq with hlt | rfl
    · exact le_of_lt (List.Lex.rel hlt)
    · exact List.cons_le_cons x ih

/-- Where one vector is nowhere above the other, `operator<` compares them as words. -/
theorem not_forall₂_iff_lt
    (h : List.Forall₂ (· ≤ ·) xs ys ∨ List.Forall₂ (· ≤ ·) ys xs) :
    ¬ List.Forall₂ (· ≤ ·) ys xs ↔ xs < ys := by
  constructor
  · intro hnot
    refine (le_of_forall₂ (h.resolve_right hnot)).lt_of_ne ?_
    rintro rfl
    exact hnot (List.forall₂_same.mpr fun x _ => le_refl x)
  · exact fun hlt hle => absurd (le_of_forall₂ hle) (not_le.mpr hlt)

theorem OneSided.compares (h : OneSided S) : Compares less S := by
  intro a ha b hb
  obtain ⟨r, hrun, hr⟩ := @less_spec a b (h.short a ha)
  have hbelow : Below a b ↔ a < b := by
    rw [lt_iff, Below]
    refine or_congr_right (and_congr_right fun hoperand => or_congr_right ?_)
    exact and_congr_right fun hlength => not_forall₂_iff_lt (h.oneSided a ha b hb hoperand hlength)
  rw [hrun, Option.some.injEq, Bool.eq_iff_iff, hr, hbelow, decide_eq_true_iff]

theorem strictWeakOn_of_compares (h : Compares less S) : StrictWeakOn S where
  irrefl a ha := by
    rw [h a ha a ha]
    simp
  asymm a ha b hb := by
    rw [h a ha b hb, h b hb a ha]
    simpa using le_of_lt
  trans a ha b hb c hc := by
    rw [h a ha b hb, h b hb c hc, h a ha c hc]
    simpa using lt_trans
  incomparable a ha b hb := by
    rw [h a ha b hb, h b hb a ha]
    simpa using fun hle hle' => le_antisymm hle' hle

/-- What is not one-sided has a content whose comparison does not end, or two that
compare both ways. -/
theorem oneSided_of (hself : ∀ a ∈ S, less a a ≠ none)
    (hboth : ∀ a ∈ S, ∀ b ∈ S, less a b = some true → less b a ≠ some true) : OneSided S := by
  have hshort : ∀ a ∈ S, a.indices.length < 2 ^ 32 := by
    intro a ha
    by_contra hlong
    exact hself a ha (less_eq_none (Nat.not_lt.mp hlong) rfl)
  refine ⟨hshort, fun a ha b hb hoperand hlength => ?_⟩
  by_contra hnot
  obtain ⟨hab, hba⟩ := not_or.mp hnot
  have hless : less a b = some true :=
    (less_eq_true (hshort a ha)).mpr (.inr ⟨hoperand, .inr ⟨hlength, hba⟩⟩)
  have hless' : less b a = some true :=
    (less_eq_true (hshort b hb)).mpr (.inr ⟨hoperand.symm, .inr ⟨hlength.symm, hab⟩⟩)
  exact hboth a ha b hb hless hless'

theorem StrictWeakOn.oneSided (h : StrictWeakOn S) : OneSided S := by
  refine oneSided_of (fun a ha => ?_) fun a ha b hb hless => ?_
  · rw [h.irrefl a ha]
    nofun
  · rw [h.asymm a ha b hb hless]
    nofun

end Order

/-! ## The wrappers of a sequence of calls -/

/-- Calls with equal contents, and only they, get the same wrapper. -/
def Canonical (getName : Nat → String) (calls : List GEPContentWrapper)
    (factory : GEPValueFactory) : Prop :=
  ∃ wrappers factory', getAll getName calls factory = some (wrappers, factory') ∧
    wrappers.length = calls.length ∧
    ∀ p ∈ calls.zip wrappers, ∀ q ∈ calls.zip wrappers, p.1 = q.1 ↔ p.2 = q.2

/-- The map is in order, and each of its values is a global variable of one content. -/
structure Wraps (S : Set GEPContentWrapper) (factory : GEPValueFactory) : Prop where
  ordered : Ordered S factory.GEPWrapperToValue
  distinct : ∀ p ∈ factory.GEPWrapperToValue.toList, ∀ q ∈ factory.GEPWrapperToValue.toList,
    p.2 = q.2 → p.1 = q.1
  created : ∀ p ∈ factory.GEPWrapperToValue.toList, p.2 < factory.module.length

section Calls
variable {S : Set GEPContentWrapper} {getName : Nat → String} {factory : GEPValueFactory}
  {call : GEPContentWrapper} {calls : List GEPContentWrapper}

theorem wraps_new (module : List GlobalVariable) : Wraps S { module } where
  ordered := ordered_leaf
  distinct := by simp
  created := by simp

theorem getGEPWrapperValue_found {wrapper : Nat}
    (hfind : find less call factory.GEPWrapperToValue = some (some wrapper)) :
    getGEPWrapperValue getName call.operand call.indices factory = some (wrapper, factory) := by
  unfold getGEPWrapperValue
  dsimp only
  rw [hfind]
  rfl

theorem getGEPWrapperValue_new {map : Tree GEPContentWrapper Nat}
    (hfind : find less call factory.GEPWrapperToValue = some none)
    (hinsert : Tree.insert less call factory.module.length factory.GEPWrapperToValue = some map) :
    getGEPWrapperValue getName call.operand call.indices factory = some (factory.module.length,
      ⟨map, factory.module ++ [{ name := getName call.operand }]⟩) := by
  unfold getGEPWrapperValue
  dsimp only
  rw [hfind, Option.bind_eq_bind, Option.bind_some]
  dsimp only
  rw [hinsert]
  rfl

theorem getAll_cons {wrapper : Nat} {next : GEPValueFactory}
    (hfirst : getGEPWrapperValue getName call.operand call.indices factory = some (wrapper, next)) :
    getAll getName (call :: calls) factory =
      (getAll getName calls next).map fun rest => (wrapper :: rest.1, rest.2) := by
  rw [getAll, hfirst, Option.bind_eq_bind, Option.bind_some]
  dsimp only
  cases getAll getName calls next <;> rfl

theorem Wraps.getGEPWrapperValue (h : Wraps S factory) (hlt : Compares less S) (hcall : call ∈ S) :
    ∃ wrapper factory',
      getGEPWrapperValue getName call.operand call.indices factory = some (wrapper, factory') ∧
      Wraps S factory' ∧ (call, wrapper) ∈ factory'.GEPWrapperToValue.toList ∧
      ∀ p ∈ factory.GEPWrapperToValue.toList, p ∈ factory'.GEPWrapperToValue.toList := by
  obtain ⟨found, hfind, hfound⟩ := h.ordered.find hlt hcall
  cases found with
  | some wrapper =>
    exact ⟨wrapper, factory, getGEPWrapperValue_found hfind, h, (hfound wrapper).mp rfl,
      fun _ => id⟩
  | none =>
    have hnew : ∀ w, (call, w) ∉ factory.GEPWrapperToValue.toList := fun w hmem => by
      cases (hfound w).mpr hmem
    obtain ⟨map, hinsert, hordered, hmem⟩ :=
      @Ordered.insert _ _ _ _ _ _ _ factory.module.length h.ordered hlt hcall hnew
    have hfresh : ∀ p ∈ factory.GEPWrapperToValue.toList, p.2 ≠ factory.module.length :=
      fun p hp => (h.created p hp).ne
    refine ⟨_, _, getGEPWrapperValue_new hfind hinsert,
      ⟨hordered, fun p hp q hq heq => ?_, fun p hp => ?_⟩, (hmem _).mpr (.inl rfl),
      fun p hp => (hmem p).mpr (.inr hp)⟩
    · rcases (hmem p).mp hp with rfl | hp
      · rcases (hmem q).mp hq with rfl | hq
        · rfl
        · exact absurd heq.symm (hfresh q hq)
      · rcases (hmem q).mp hq with rfl | hq
        · exact absurd heq (hfresh p hp)
        · exact h.distinct p hp q hq heq
    · rw [List.length_append]
      rcases (hmem p).mp hp with rfl | hp
      · exact Nat.lt_succ_self _
      · exact Nat.lt_succ_of_lt (h.created p hp)

/-- What the calls have got is in the map when they are over. -/
theorem Wraps.getAll (h : Wraps S factory) (hlt : Compares less S) (hcalls : ∀ c ∈ calls, c ∈ S) :
    ∃ wrappers factory', getAll getName calls factory = some (wrappers, factory') ∧
      wrappers.length = calls.length ∧ Wraps S factory' ∧
      (∀ p ∈ calls.zip wrappers, p ∈ factory'.GEPWrapperToValue.toList) ∧
      ∀ p ∈ factory.GEPWrapperToValue.toList, p ∈ factory'.GEPWrapperToValue.toList := by
  induction calls generalizing factory with
  | nil => exact ⟨[], factory, rfl, rfl, h, nofun, fun _ => id⟩
  | cons call calls ih =>
    obtain ⟨hcall, hcalls⟩ := List.forall_mem_cons.mp hcalls
    obtain ⟨wrapper, next, hfirst, hnext, hentry, hkept⟩ :=
      @Wraps.getGEPWrapperValue S getName factory call h hlt hcall
    obtain ⟨wrappers, factory', hrest, hlength, hwraps, hentries, hkept'⟩ := ih hnext hcalls
    refine ⟨wrapper :: wrappers, factory', ?_, congrArg (· + 1) hlength, hwraps, ?_,
      fun p hp => hkept' p (hkept p hp)⟩
    · rw [getAll_cons hfirst, hrest]
      rfl
    · intro p hp
      rcases List.mem_cons.mp hp with rfl | hp
      · exact hkept' _ hentry
      · exact hentries p hp

theorem canonical_of_compares (hlt : Compares less S) (hcalls : ∀ c ∈ calls, c ∈ S)
    (module : List GlobalVariable) : Canonical getName calls { module } := by
  obtain ⟨wrappers, factory', hrun, hlength, hwraps, hentries, -⟩ :=
    @Wraps.getAll S getName { module } calls (wraps_new module) hlt hcalls
  refine ⟨wrappers, factory', hrun, hlength, fun p hp q hq => ⟨fun heq => ?_, fun heq => ?_⟩⟩
  · have hp := hentries p hp
    have hq := hentries q hq
    obtain ⟨found, -, hfound⟩ := hwraps.ordered.find hlt (hwraps.ordered.keys p hp)
    rw [← Prod.mk.eta (p := q), ← heq] at hq
    exact Option.some.inj (((hfound p.2).mpr hp).symm.trans ((hfound q.2).mpr hq))
  · exact hwraps.distinct p (hentries p hp) q (hentries q hq) heq

/-- A content whose comparison with itself does not end is not found a second time. -/
theorem not_canonical_of_endless {a : GEPContentWrapper} (haa : less a a = none)
    (module : List GlobalVariable) : ¬ Canonical getName [a, a] { module } := by
  rintro ⟨wrappers, factory', hrun, -, -⟩
  have hsecond : ∀ map : List GlobalVariable,
      getAll getName [a] ⟨single a module.length, map⟩ = none := by
    intro map
    rw [getAll]
    unfold getGEPWrapperValue
    dsimp only
    rw [find_single_eq_none haa]
    rfl
  rw [getAll_cons (getGEPWrapperValue_new rfl insert_leaf), hsecond] at hrun
  cases hrun

/-- Of two contents that compare both ways the second one gets a wrapper in every call: its
entry stands below the first one, and the search for it goes above. -/
theorem getAll_both_ways {a b : GEPContentWrapper} (hab : less a b = some true)
    (hba : less b a = some true) (module : List GlobalVariable) :
    (getAll getName [a, b, b] { module }).map Prod.fst =
      some [module.length, module.length + 1, module.length + 2] := by
  rw [getAll_cons (getGEPWrapperValue_new rfl insert_leaf),
    getAll_cons (getGEPWrapperValue_new (find_single hab) (insert_single hab hba)),
    getAll_cons (getGEPWrapperValue_new (find_crossed hab) (insert_crossed hab hba)), getAll]
  simp

theorem not_canonical_of_both_ways {a b : GEPContentWrapper} (hab : less a b = some true)
    (hba : less b a = some true) (module : List GlobalVariable) :
    ¬ Canonical getName [a, b, b] { module } := by
  rintro ⟨wrappers, factory', hrun, -, hsame⟩
  have hwrappers := @getAll_both_ways getName a b hab hba module
  rw [hrun, Option.map_some, Option.some.injEq] at hwrappers
  obtain rfl := hwrappers
  have hsecond := (hsame (b, module.length + 1) (by simp) (b, module.length + 2) (by simp)).mp rfl
  dsimp only at hsecond
  omega

theorem oneSided_of_canonical
    (h : ∀ calls : List GEPContentWrapper, (∀ c ∈ calls, c ∈ S) → Canonical getName calls {}) :
    OneSided S := by
  refine oneSided_of (fun a ha haa => ?_) fun a ha b hb hab hba => ?_
  · exact not_canonical_of_endless haa [] (h [a, a] (by simp [ha]))
  · exact not_canonical_of_both_ways hab hba [] (h [a, b, b] (by simp [ha, hb]))

end Calls

/-- On the contents of `S` the comparison is an order just if the vectors are one-sided, and
just then all sequences of calls get one wrapper a content. -/
theorem canonical_iff (S : Set GEPContentWrapper) :
    (StrictWeakOn S ↔ OneSided S) ∧
    ((∀ (getName : Nat → String) (module : List GlobalVariable)
      (calls : List GEPContentWrapper), (∀ c ∈ calls, c ∈ S) →
        Canonical getName calls { module }) ↔ OneSided S) := by
  refine ⟨⟨fun h => h.oneSided, fun h => strictWeakOn_of_compares h.compares⟩,
    fun h => oneSided_of_canonical (h (fun _ => "") []), fun h getName module calls hcalls => ?_⟩
  exact canonical_of_compares h.compares hcalls module

/-- Two fields whose indices are exchanged: the comparison holds both ways, and the second
call for the second one gets another wrapper. -/
theorem exchanged_not_ordered :
    less ⟨0, [1, 0]⟩ ⟨0, [0, 1]⟩ = some true ∧ less ⟨0, [0, 1]⟩ ⟨0, [1, 0]⟩ = some true ∧
    ¬ Canonical (fun _ => "p") [⟨0, [1, 0]⟩, ⟨0, [0, 1]⟩, ⟨0, [0, 1]⟩] {} ∧
    ¬ StrictWeakOn Set.univ ∧
    ¬ ∀ (getName : Nat → String) (module : List GlobalVariable)
      (calls : List GEPContentWrapper), Canonical getName calls { module } := by
  have hless : less ⟨0, [1, 0]⟩ ⟨0, [0, 1]⟩ = some true := by decide
  have hless' : less ⟨0, [0, 1]⟩ ⟨0, [1, 0]⟩ = some true := by decide
  have hsecond : ¬ Canonical (fun _ => "p") [⟨0, [1, 0]⟩, ⟨0, [0, 1]⟩, ⟨0, [0, 1]⟩] {} :=
    not_canonical_of_both_ways hless hless' []
  refine ⟨hless, hless', hsecond, fun h => ?_, fun h => hsecond (h _ _ _)⟩
  cases hless'.symm.trans (h.asymm _ trivial _ trivial hless)

end Lockout.Strator.Wrappers
