import Mathlib.Data.Set.Basic
import Mathlib.Logic.Relation

/-! # Paths through procedures

Procedures with a control-flow graph each, whose nodes change a fact or call
another procedure, and the facts that hold at a node over all paths (`Reach`,
`Activated`). A path enters a callee and leaves it at a return of the same
activation. A call whose callee has no returning path is stepped over. -/

namespace Lockout.Lib.Interprocedural

variable {P N F : Type}

/-- What a node does: return, change the fact, or call. A call enters the callee with
`enter f`, goes on with `resume f x` for a fact `x` at a return of the callee, and with
`skip f` when the callee does not return. -/
inductive Kind (P F : Type)
  | exit
  | step (effect : F → F)
  | call (callee : P) (enter : F → F) (resume : F → F → F) (skip : F → F)

structure Supergraph (P N F : Type) where
  owner : N → P
  entry : P → Option N
  succ : N → List N
  kind : N → Kind P F
  owner_entry : ∀ {p n}, entry p = some n → owner n = p
  owner_succ : ∀ {n n'}, n' ∈ succ n → owner n' = owner n

namespace Supergraph
variable (G : Supergraph P N F)

/-- An edge of a control-flow graph; nothing follows a return. -/
def Flow (n n' : N) : Prop := G.kind n ≠ .exit ∧ n' ∈ G.succ n

/-- The procedure has a path from its entry to a return. -/
def Returns (p : P) : Prop :=
  ∃ n r, G.entry p = some n ∧ Relation.ReflTransGen G.Flow n r ∧ G.kind r = .exit

def Calls (p q : P) : Prop :=
  ∃ n enter resume skip, G.owner n = p ∧ G.kind n = .call q enter resume skip

/-- In an activation of `p` entered with `e`, a path reaches node `n` with fact `f`. -/
inductive Reach : P → F → N → F → Prop
  | entry {p e n} : G.entry p = some n → Reach p e n e
  | step {p e n f effect n'} : Reach p e n f → G.kind n = .step effect → n' ∈ G.succ n →
      Reach p e n' (effect f)
  | resume {p e n f q enter resume skip r x n'} : Reach p e n f →
      G.kind n = .call q enter resume skip → Reach q (enter f) r x → G.kind r = .exit →
      n' ∈ G.succ n → Reach p e n' (resume f x)
  | skip {p e n f q enter resume skip n'} : Reach p e n f →
      G.kind n = .call q enter resume skip → ¬ G.Returns q → n' ∈ G.succ n →
      Reach p e n' (skip f)

/-- The facts at the returns of `p` entered with `e`. -/
def exits (p : P) (e : F) : Set F := {x | ∃ r, G.Reach p e r x ∧ G.kind r = .exit}

/-- On some path from `root` entered with `e₀`, procedure `p` is entered with `e`. -/
inductive Activated (root : P) (e₀ : F) : P → F → Prop
  | root : Activated root e₀ root e₀
  | call {p e n f q enter resume skip} : Activated root e₀ p e → G.Reach p e n f →
      G.kind n = .call q enter resume skip → Activated root e₀ q (enter f)

end Supergraph

namespace Supergraph
variable {G : Supergraph P N F} {p q : P} {e f x : F} {n n' r : N}

theorem Reach.owner (h : G.Reach p e n f) : G.owner n = p := by
  induction h with
  | entry hn => exact G.owner_entry hn
  | step _ _ hs ih => exact (G.owner_succ hs).trans ih
  | resume _ _ _ _ hs ih => exact (G.owner_succ hs).trans ih
  | skip _ _ _ hs ih => exact (G.owner_succ hs).trans ih

/-- A fact at a node was carried there along the control-flow graph. -/
theorem Reach.flow (h : G.Reach p e n f) :
    ∃ n₀, G.entry p = some n₀ ∧ Relation.ReflTransGen G.Flow n₀ n := by
  induction h with
  | entry hn => exact ⟨_, hn, .refl⟩
  | step _ hk hs ih =>
    obtain ⟨n₀, hn₀, hpath⟩ := ih
    exact ⟨n₀, hn₀, hpath.tail ⟨by rw [hk]; nofun, hs⟩⟩
  | resume _ hk _ _ hs ih =>
    obtain ⟨n₀, hn₀, hpath⟩ := ih
    exact ⟨n₀, hn₀, hpath.tail ⟨by rw [hk]; nofun, hs⟩⟩
  | skip _ hk _ hs ih =>
    obtain ⟨n₀, hn₀, hpath⟩ := ih
    exact ⟨n₀, hn₀, hpath.tail ⟨by rw [hk]; nofun, hs⟩⟩

theorem returns_of_exits (h : x ∈ G.exits p e) : G.Returns p := by
  obtain ⟨r, hr, hexit⟩ := h
  obtain ⟨n₀, hn₀, hpath⟩ := hr.flow
  exact ⟨n₀, r, hn₀, hpath, hexit⟩

theorem exits_of_no_entry (h : G.entry p = none) : G.exits p e = ∅ := by
  ext x
  refine ⟨fun hx => ?_, nofun⟩
  obtain ⟨n₀, r, hn₀, -⟩ := returns_of_exits hx
  rw [h] at hn₀
  cases hn₀

end Supergraph

/-! ## Paths with a call stack -/

namespace Supergraph
variable (G : Supergraph P N F)

/-- A path from the entry of `root`, step by step. The stack has the calls that have not
returned, the last one first, each with the fact it was made with. -/
inductive Walk (root : P) (e₀ : F) : List (N × F) → N → F → Prop
  | entry {n} : G.entry root = some n → Walk root e₀ [] n e₀
  | step {stack n f effect n'} : Walk root e₀ stack n f → G.kind n = .step effect →
      n' ∈ G.succ n → Walk root e₀ stack n' (effect f)
  | call {stack n f q enter resume skip n'} : Walk root e₀ stack n f →
      G.kind n = .call q enter resume skip → G.entry q = some n' →
      Walk root e₀ ((n, f) :: stack) n' (enter f)
  | ret {stack c f q enter resume skip r x n'} : Walk root e₀ ((c, f) :: stack) r x →
      G.kind r = .exit → G.kind c = .call q enter resume skip → n' ∈ G.succ c →
      Walk root e₀ stack n' (resume f x)
  | pass {stack n f q enter resume skip n'} : Walk root e₀ stack n f →
      G.kind n = .call q enter resume skip → G.entry q = none → n' ∈ G.succ n →
      Walk root e₀ stack n' (skip f)

/-- The calls of a stack, below an activation of a procedure with an entry fact. -/
inductive Frames (root : P) (e₀ : F) : List (N × F) → P → F → Prop
  | bottom : Frames root e₀ [] root e₀
  | frame {stack p e c f q enter resume skip} : Frames root e₀ stack p e → G.Reach p e c f →
      G.kind c = .call q enter resume skip → Frames root e₀ ((c, f) :: stack) q (enter f)

end Supergraph

namespace Supergraph
variable {G : Supergraph P N F} {root p : P} {e₀ e f x : F} {n r : N} {stack : List (N × F)}

theorem Frames.activated (h : G.Frames root e₀ stack p e) : G.Activated root e₀ p e := by
  induction h with
  | bottom => exact .root
  | frame _ hreach hk ih => exact ih.call hreach hk

theorem not_returns_of_no_entry (h : G.entry p = none) : ¬ G.Returns p := by
  intro hreturns
  obtain ⟨n, r, hn, -⟩ := hreturns
  cases h.symm.trans hn

/-- Where a path is in its last activation, `Reach` has it too. -/
theorem Walk.reach (h : G.Walk root e₀ stack n f) :
    ∃ p e, G.Frames root e₀ stack p e ∧ G.Reach p e n f := by
  induction h with
  | entry hn => exact ⟨root, e₀, .bottom, .entry hn⟩
  | step _ hk hs ih =>
    obtain ⟨p, e, hframes, hreach⟩ := ih
    exact ⟨p, e, hframes, hreach.step hk hs⟩
  | call _ hk hn ih =>
    obtain ⟨p, e, hframes, hreach⟩ := ih
    exact ⟨_, _, hframes.frame hreach hk, .entry hn⟩
  | ret _ hexit hk hs ih =>
    obtain ⟨q, e', hframes, hexits⟩ := ih
    cases hframes with
    | frame hframes hreach hk' =>
      cases hk.symm.trans hk'
      exact ⟨_, _, hframes, hreach.resume hk hexits hexit hs⟩
  | pass _ hk hn hs ih =>
    obtain ⟨p, e, hframes, hreach⟩ := ih
    exact ⟨p, e, hframes, hreach.skip hk (not_returns_of_no_entry hn) hs⟩

theorem Walk.activated (h : G.Walk root e₀ stack n f) :
    ∃ e, G.Activated root e₀ (G.owner n) e ∧ G.Reach (G.owner n) e n f := by
  obtain ⟨p, e, hframes, hreach⟩ := h.reach
  have howner := hreach.owner
  subst howner
  exact ⟨e, hframes.activated, hreach⟩

/-- A path that comes to a return with all its calls returned ends in an exit. -/
theorem Walk.exits (h : G.Walk root e₀ [] r x) (hexit : G.kind r = .exit) :
    x ∈ G.exits root e₀ := by
  obtain ⟨p, e, hframes, hreach⟩ := h.reach
  cases hframes with
  | bottom => exact ⟨r, hreach, hexit⟩

end Supergraph

/-! ## Marks on the facts -/

variable {B : Type}

namespace Supergraph

end Supergraph

end Lockout.Lib.Interprocedural
