import Lockout.Strator.Workers

/-! # Merging what the workers recorded

`runOnModule` creates one worker in directed mode, where `threadPoolSize` is 0, and as many
as `threadPoolSize` in global mode: the least of fifty and the number of entry points that
have a body. `mergeValueToAccessTypeMaps` starts from the first worker in both and goes on
up to `threadPoolSize`. -/

namespace Lockout.Strator.Merging
open Lockout.Strator.Program Lockout.Strator.State Lockout.Strator.Workers

inductive Mode
  | directed
  | global
  deriving DecidableEq

/-- What `runOnModule` has set up when the analysis starts. -/
structure Setup where
  threadPoolSize : Int
  /-- The length of `workers`. -/
  created : Nat

/-- The functions of the external node that have blocks; a call record without a function
is a null pointer. -/
def entryPoints (m : IRModule) (externalNode : List (Option String)) : List String :=
  externalNode.filterMap fun f => f.filter fun f => (m.entry f).isSome

/-- The worker creation of `runOnModule`; there may be no external node. -/
def createWorkers (m : IRModule) : Mode → Option (List (Option String)) → Setup
  | .directed, _ => { threadPoolSize := 0, created := 1 }
  | .global, none => { threadPoolSize := 50, created := 0 }
  | .global, some externalNode =>
    let size := threadPoolSize (entryPoints m externalNode)
    { threadPoolSize := size, created := size }

/-- The vector of workers, each with what it has recorded. -/
def Setup.workers (setup : Setup) (contents : Nat → Worker) : List Worker :=
  (List.range setup.created).map contents

/-- The merge stays within the vector and leaves for every value the records of all workers,
each as often as they have it. -/
def MergesExactly (setup : Setup) (contents : Nat → Worker) : Prop :=
  ∃ final, mergeValueToAccessTypeMaps setup.threadPoolSize (setup.workers contents) = some final ∧
    ∀ v, (accessesOf final v).Perm ((List.range setup.created).flatMap fun i =>
      accessesOf (contents i).valueToAccessTypeMap v)

section Merge
variable {m : IRModule} {contents : Nat → Worker}

/-- A setup with a worker for every round and a first one. -/
theorem mergesExactly_of_size {setup : Setup} (hpos : 0 < setup.created)
    (hsize : (setup.threadPoolSize - 1).toNat = setup.created - 1) :
    MergesExactly setup contents := by
  have hlength : (setup.workers contents).length = setup.created := by simp [Setup.workers]
  obtain ⟨first, rest, hworkers⟩ : ∃ first rest, setup.workers contents = first :: rest :=
    List.exists_cons_of_length_pos (by omega)
  rw [hworkers, List.length_cons] at hlength
  obtain ⟨final, hrun, hfinal⟩ := @merge_all rest first setup.threadPoolSize (by omega)
  refine ⟨final, by rw [hworkers]; exact hrun, fun v => ?_⟩
  rw [hfinal, ← hworkers, Setup.workers, List.flatMap_map]

theorem entryPoints_ne_nil {externalNode : List (Option String)} :
    entryPoints m externalNode ≠ [] ↔ ∃ f, some f ∈ externalNode ∧ m.entry f ≠ none := by
  have hmem : ∀ f, f ∈ entryPoints m externalNode ↔ some f ∈ externalNode ∧ m.entry f ≠ none := by
    intro f
    simp [entryPoints, List.mem_filterMap, Option.filter_eq_some_iff, Option.isSome_iff_ne_none]
  constructor
  · intro h
    obtain ⟨f, hf⟩ := List.exists_mem_of_ne_nil _ h
    exact ⟨f, (hmem f).mp hf⟩
  · intro h
    obtain ⟨f, hf⟩ := h
    exact List.ne_nil_of_mem ((hmem f).mpr hf)

end Merge

/-- The merge is exact in directed mode, and in global mode exactly when some function of
the external node has a body. -/
theorem mergesExactly_iff (m : IRModule) (mode : Mode) (externalNode : Option (List (Option String)))
    (contents : Nat → Worker) : MergesExactly (createWorkers m mode externalNode) contents ↔
      mode = .directed ∨
        ∃ nodes, externalNode = some nodes ∧ ∃ f, some f ∈ nodes ∧ m.entry f ≠ none := by
  have hnone : ∀ {setup : Setup}, setup.created = 0 → ¬ MergesExactly setup contents := by
    intro setup hcreated hmerges
    obtain ⟨final, hfinal, -⟩ := hmerges
    rw [Setup.workers, hcreated] at hfinal
    cases hfinal
  cases mode with
  | directed => exact iff_of_true (mergesExactly_of_size Nat.one_pos rfl) (.inl rfl)
  | global =>
    cases externalNode with
    | none => exact iff_of_false (hnone rfl) (by simp)
    | some nodes =>
      simp only [reduceCtorEq, false_or, Option.some.injEq, exists_eq_left']
      rw [← entryPoints_ne_nil, ← threadPoolSize_pos]
      constructor
      · intro hmerges
        by_contra hzero
        exact hnone (Nat.eq_zero_of_not_pos hzero) hmerges
      · intro hpos
        refine mergesExactly_of_size hpos ?_
        simp only [createWorkers]
        omega

/-- A module that only declares its functions, in global mode. -/
theorem no_worker_to_merge : ¬ ∀ (m : IRModule) (mode : Mode)
    (externalNode : Option (List (Option String))) (contents : Nat → Worker),
    MergesExactly (createWorkers m mode externalNode) contents := by
  intro hall
  obtain ⟨final, hfinal, -⟩ := hall {} .global (some [some "puts"]) fun _ => {}
  cases hfinal

end Lockout.Strator.Merging
