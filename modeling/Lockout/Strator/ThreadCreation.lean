import Lockout.Strator.Tasks

/-! # Locksets at thread creation

A call of `pthread_create` is traversed as a call of the worker function: the worker
is analysed from the lockset of its creator, and the creator goes on with what the
worker exits with. So the locksets of the two threads are kept apart only where
neither has one to pass on (`isolated_iff`). -/

namespace Lockout.Strator.ThreadCreation
open Lockout.Lib.Interprocedural
open Lockout.Strator.Program Lockout.Strator.State Lockout.Strator.Traverse
open Lockout.Strator.Effects Lockout.Strator.Paths Lockout.Strator.Termination
open Lockout.Strator.Exact Lockout.Strator.Tasks

/-- A call of `pthread_create`. -/
def createsThread (m : IRModule) (s : InstId) : Bool :=
  match m.op? s with
  | some (.call callee _) => (calledFunction callee).any isThreadCreationFunction
  | _ => false

/-- Visit `(s, E, L)` in state `w` creates a thread: the worker function, the lockset
it is analysed from, what it exits with and what the creator goes on with. -/
inductive Creation (m : IRModule) (opts : Options) (s : InstId) (E L : LockSet) (w : Worker) :
    String → LockSet → List LockSet → List LockSet → Prop
  | mk {worker entry w₁ exits w₂} : createsThread m s = true → w.isInCache s E L = false →
      processStatement m opts s L (w.addToCache s E L) = .ok (.call worker entry, w₁) →
      Runs m opts (.visit (.function worker entry)) w₁ exits w₂ →
      Creation m opts s E L w worker entry exits (workingList opts entry exits)

/-- The new thread holds nothing, and its creator what it held before. -/
def Isolated (L entry : LockSet) (after : List LockSet) : Prop :=
  entry = ∅ ∧ ∀ X, X ∈ after ↔ X = L

section Creation
variable {m : IRModule} {opts : Options} {mutex : InstId → Lock} {s : InstId} {E L entry : LockSet}
  {w w₀ : Worker} {worker task : String} {exits after : List LockSet} {ctx : List InstId}

/-- The worker inherits the lockset of its creator. -/
theorem Creation.entry_eq (h : Creation m opts s E L w worker entry exits after) : entry = L := by
  obtain ⟨-, -, hs, -⟩ := h
  generalize hnext : Next.call worker entry = next at hs
  cases step_of_processStatement hs with
  | call => exact (Next.call.inj hnext).2
  | _ => cases hnext

/-- The creator goes on with the exits of the worker, if there are any. -/
theorem Creation.mem_after (h : Creation m opts s E L w worker entry exits after) {X : LockSet} :
    X ∈ after ↔ X ∈ exits ∨ (exits = [] ∧ X = L) := by
  have hentry := h.entry_eq
  subst hentry
  obtain ⟨-, -, -, -⟩ := h
  unfold workingList
  split
  · rename_i hempty
    simp [hempty]
  · rename_i hne
    rw [(opts.order.perm exits).mem_iff]
    simp [hne]

theorem Creation.isolated (h : Creation m opts s E L w worker entry exits after) :
    Isolated L entry after ↔ L = ∅ ∧ ∀ X ∈ exits, X = ∅ := by
  unfold Isolated
  rw [h.entry_eq]
  refine and_congr_right fun hL => ?_
  subst hL
  simp only [h.mem_after]
  constructor
  · intro hafter X hX
    exact (hafter X).mp (.inl hX)
  · intro hexits X
    refine ⟨fun hX => hX.elim (hexits X) And.right, ?_⟩
    intro hX
    subst hX
    cases exits with
    | nil => exact .inr ⟨rfl, rfl⟩
    | cons Y rest =>
      rw [← hexits Y List.mem_cons_self]
      exact .inl List.mem_cons_self

/-- At every call of `pthread_create` an analysis comes to, the new thread starts
without locks and its creator goes on with the lockset it had if and only if the
creator holds no lock and the worker exits with none. Without recursion, and with
lock operands that do not depend on the context, what the worker exits with are the
locksets at its returns over all paths. -/
theorem isolated_iff (hw₀ : Between m opts w₀)
    (hreached : Reached m opts (.visit (.function task ∅)) (w₀.startTask task) ctx
      (.visit (.statement s E L)) w)
    (h : Creation m opts s E L w worker entry exits after) :
    (Isolated L entry after ↔ L = ∅ ∧ ∀ X ∈ exits, X = ∅) ∧
      ∀ mutex, OfMutex m opts mutex → Acyclic m mutex →
        (Isolated L entry after ↔ L = ∅ ∧ (lockPaths m mutex).exits worker ∅ ⊆ {∅}) := by
  refine ⟨h.isolated, fun mutex hmutex hacyclic => ?_⟩
  rw [h.isolated]
  refine and_congr_right fun hL => ?_
  have hentry := h.entry_eq
  obtain ⟨-, hnew, hs, hrun⟩ := h
  rw [hL] at hentry
  subst hentry
  rw [← (exits_of_reached hmutex hacyclic hw₀ (hreached.enter hnew hs) hrun).1]
  exact Iff.rfl

end Creation

/-- The analysis of `guarded` comes to `pthread_create` with mutex `m` held. -/
theorem guarded_creation : ∃ w worker entry exits after,
    Reached guarded {} (.visit (.function "main" ∅)) (({} : Worker).startTask "main") []
      (.visit (.statement ⟨"main", 0, 1⟩ ∅ {.global "m"})) w ∧
    Creation guarded {} ⟨"main", 0, 1⟩ ∅ {.global "m"} w worker entry exits after := by
  have hmain : Reached guarded {} (.visit (.function "main" ∅)) (({} : Worker).startTask "main") []
      (.visit (.function "main" ∅)) (({} : Worker).startTask "main") := .start
  have hlock := hmain.body rfl rfl rfl
  have hcreate := hlock.goOn rfl rfl
  exact ⟨_, _, _, _, _, hcreate.head, .mk rfl rfl rfl (traverse_runs (n := 6) rfl)⟩

/-- There the worker is analysed as if it held `m` too. -/
theorem creation_not_isolated : ∃ w worker entry exits after,
    Reached guarded {} (.visit (.function "main" ∅)) (({} : Worker).startTask "main") []
      (.visit (.statement ⟨"main", 0, 1⟩ ∅ {.global "m"})) w ∧
    Creation guarded {} ⟨"main", 0, 1⟩ ∅ {.global "m"} w worker entry exits after ∧
    ¬ Isolated {.global "m"} entry after := by
  obtain ⟨w, worker, entry, exits, after, hreached, h⟩ := guarded_creation
  refine ⟨w, worker, entry, exits, after, hreached, h, fun hisolated => ?_⟩
  have hempty := (h.isolated.mp hisolated).1
  exact absurd hempty (by decide)

theorem isolated_iff_guarded : ∃ w worker entry exits after,
    Reached guarded {} (.visit (.function "main" ∅)) (({} : Worker).startTask "main") []
      (.visit (.statement ⟨"main", 0, 1⟩ ∅ {.global "m"})) w ∧
    Creation guarded {} ⟨"main", 0, 1⟩ ∅ {.global "m"} w worker entry exits after ∧
    ((Isolated {.global "m"} entry after ↔
        ({.global "m"} : LockSet) = ∅ ∧ ∀ X ∈ exits, X = ∅) ∧
      ∀ mutex, OfMutex guarded {} mutex → Acyclic guarded mutex →
        (Isolated {.global "m"} entry after ↔
          ({.global "m"} : LockSet) = ∅ ∧ (lockPaths guarded mutex).exits worker ∅ ⊆ {∅})) := by
  obtain ⟨w, worker, entry, exits, after, hreached, h⟩ := guarded_creation
  exact ⟨w, worker, entry, exits, after, hreached, h, isolated_iff .new hreached h⟩

end Lockout.Strator.ThreadCreation
