import Lockout.Lib.Restriction
import Lockout.Strator.Tasks

/-! # Summaries in modules with recursion

A call of a function that is on the stack is skipped, and the summaries that are made
meanwhile are kept for good. What a function exits with is still right where no cycle of
calls can be reached from it (`summary_exact`), however the rest of the module calls
itself; around a cycle it depends on where the traversal entered it. -/

namespace Lockout.Strator.Recursion
open Lockout.Lib Lockout.Lib.Interprocedural Lockout.Lib.Restriction
open Lockout.Strator.Program Lockout.Strator.State Lockout.Strator.Traverse
open Lockout.Strator.Effects Lockout.Strator.Paths Lockout.Strator.Termination
open Lockout.Strator.Exact Lockout.Strator.Tasks

/-- No cycle of calls can be reached from `g`. -/
def ReachesNoCycle (m : IRModule) (mutex : InstId → Lock) (g : String) : Prop :=
  ∀ f, Relation.ReflTransGen (lockPaths m mutex).Calls g f →
    ¬ Relation.TransGen (lockPaths m mutex).Calls f f

/-- The functions that are called from `g`, directly or through others. -/
def calledFrom (m : IRModule) (mutex : InstId → Lock) (g : String) : Set String :=
  {f | Relation.ReflTransGen (lockPaths m mutex).Calls g f}

section Summaries
variable {m : IRModule} {opts : Options} {mutex : InstId → Lock} {g task : String} {C : Set String}
  {t : Search} {w w₀ : Worker} {ctx : List InstId} {E : LockSet} {e : FunctionCacheEntry}

theorem closed_calledFrom : Closed (lockPaths m mutex) (calledFrom m mutex g) :=
  fun _ _ hp hcalls => Relation.ReflTransGen.tail hp hcalls

theorem between_settled (hmutex : OfMutex m opts mutex) (hC : Closed (lockPaths m mutex) C)
    (hacyclic : ∀ f ∈ C, ¬ Relation.TransGen (lockPaths m mutex).Calls f f)
    (h : Between m opts w) : Settled (lockPaths m mutex) C (memo w) := by
  induction h with
  | new =>
    refine settled_empty ?_ (fun _ _ => rfl) ?_
    · ext c
      simp [memo]
    · ext f
      simp [memo]
  | next hw hrun ih =>
    have hsearch := tabulates hmutex hrun (admissible_startTask hw)
    exact runs_outside hC hacyclic hsearch trivial ih

/-- Every task comes to a place in a search of the paths. -/
theorem reached_at (hmutex : OfMutex m opts mutex) (hC : Closed (lockPaths m mutex) C)
    (hacyclic : ∀ f ∈ C, ¬ Relation.TransGen (lockPaths m mutex).Calls f f)
    (hw₀ : Between m opts w₀)
    (h : Reached m opts (.visit (.function task ∅)) (w₀.startTask task) ctx t w) :
    At (lockPaths m mutex) C (searchOf t) (memo w) := by
  induction h with
  | start =>
    rw [memo_startTask]
    exact .inr ⟨trivial, between_settled hmutex hC hacyclic hw₀⟩
  | body _ hentry _ _ ih =>
    rw [memo_setOnStack]
    exact ih.body hentry
  | goOn ht _ hs ih =>
    obtain ⟨effect, hkind, rfl⟩ := kind_of_processStatement hmutex (reached_admissible hw₀ ht) hs
    rw [memo_processStatement hs]
    exact ih.step hkind (lists_successors fun X => List.mem_singleton)
  | enter ht _ hs ih =>
    obtain ⟨hkind, rfl⟩ := kind_of_processStatement hmutex (reached_admissible hw₀ ht) hs
    rw [memo_processStatement hs]
    exact ih.call hC hkind
  | resume ht hnew hs hcallee ih =>
    obtain ⟨hkind, rfl⟩ := kind_of_processStatement hmutex (reached_admissible hw₀ ht) hs
    have hrun := tabulates hmutex hcallee (reached_admissible hw₀ (ht.enter hnew hs))
    rw [memo_processStatement hs] at hrun
    rw [memo_of_sameCaches bookkeeping_eraseArguments.toSameCaches]
    exact ih.afterCall hC hacyclic hkind hrun (lists_successors fun X => mem_workingList)
  | head _ ih => exact ih.head
  | rest ht hfirst ih =>
    exact ih.rest hC hacyclic (tabulates hmutex hfirst (reached_admissible hw₀ ht))

/-- In every state of the traversal, with global mutexes, a summary of a function from
which no cycle of calls can be reached has the locksets at the returns of all paths
through the function, with their calls returned, and no others. -/
theorem summary_exact (hglobal : GlobalMutexes m) (hw₀ : Between m opts w₀)
    (h : Reached m opts (.visit (.function task ∅)) (w₀.startTask task) ctx t w)
    (hg : ReachesNoCycle m (operandOf m) g) (hsummary : w.summary? g E = some e) :
    (∀ s X, (lockPaths m (operandOf m)).Walk g E [] s X → m.op? s = some .ret →
      X ∈ e.exitLockSets) ∧
    {X | X ∈ e.exitLockSets} = (lockPaths m (operandOf m)).exits g E := by
  have hat := reached_at (ofMutex_operandOf hglobal) closed_calledFrom hg hw₀ h
  have hmemo : (memo w).summary g E = some {X | X ∈ e.exitLockSets} := by
    show (w.summary? g E).map _ = _
    rw [hsummary]
    rfl
  have hexact := hat.exact closed_calledFrom .refl hmemo
  refine ⟨fun s X hwalk hop => ?_, hexact⟩
  have hexit : (lockPaths m (operandOf m)).kind s = .exit := by
    show lockKind m (operandOf m) s = .exit
    rw [lockKind, hop]
  show X ∈ {X | X ∈ e.exitLockSets}
  rw [hexact]
  exact hwalk.exits hexit

/-- A function that calls none reaches no cycle. -/
theorem reachesNoCycle_of_statements
    (h : ∀ s ∈ statements m, s.func = g → calleeOf m mutex s = none) :
    ReachesNoCycle m mutex g := by
  have hcalls : ∀ f, ¬ (lockPaths m mutex).Calls g f := by
    intro f hf
    obtain ⟨s, hs, hfunc, hcallee⟩ := statement_of_calls hf
    rw [h s hs hfunc] at hcallee
    cases hcallee
  intro f hpath hcycle
  rcases hpath.cases_head with rfl | ⟨k, hk, -⟩
  · obtain ⟨k, hk, -⟩ := Relation.TransGen.head'_iff.mp hcycle
    exact hcalls k hk
  · exact hcalls k hk

end Summaries

/-- `f` and `g` call each other, and `f` can lock `m`; `h` locks and unlocks it. -/
def cyclic : IRModule where
  functions := [
    ("main", { blocks := [{ insts := [
      ⟨"", .call (.function "f") []⟩, ⟨"", .call (.function "h") []⟩, ⟨"", .ret⟩] }] }),
    ("f", { blocks := [
      { insts := [⟨"", .other []⟩], succs := [1, 2] },
      { insts := [⟨"", .call (.function "g") []⟩, ⟨"", .ret⟩] },
      { insts := [⟨"", .call (.function "pthread_mutex_lock") [.global "m"]⟩, ⟨"", .ret⟩] }] }),
    ("g", { blocks := [{ insts := [⟨"", .call (.function "f") []⟩, ⟨"", .ret⟩] }] }),
    ("h", { blocks := [{ insts := [
      ⟨"", .call (.function "pthread_mutex_lock") [.global "m"]⟩,
      ⟨"", .call (.function "pthread_mutex_unlock") [.global "m"]⟩, ⟨"", .ret⟩] }] })]
  globals := [("m", false)]

theorem cyclic_mutexes : GlobalMutexes cyclic :=
  (accepted_of_statements (m := cyclic) (by decide)).mutexes

/-- The summary of `g` is made while `f` is on the stack. It lacks the lockset of the
path on which the inner activation of `f` locks `m`. -/
theorem summary_incomplete : GlobalMutexes cyclic ∧ ∃ r w e,
    traverseFrom cyclic {} 15 "main" {} = .ok (r, w) ∧ w.summary? "g" ∅ = some e ∧
      (lockPaths cyclic (operandOf cyclic)).Walk "g" ∅ [] ⟨"g", 0, 1⟩ {.global "m"} ∧
      cyclic.op? ⟨"g", 0, 1⟩ = some .ret ∧ {.global "m"} ∉ e.exitLockSets := by
  have hstart : (lockPaths cyclic (operandOf cyclic)).Walk "g" ∅ [] ⟨"g", 0, 0⟩ ∅ := .entry rfl
  have hinner : (lockPaths cyclic (operandOf cyclic)).Walk "g" ∅ [(⟨"g", 0, 0⟩, ∅)]
      ⟨"f", 0, 0⟩ ∅ := .call hstart rfl rfl
  have hbranch : (lockPaths cyclic (operandOf cyclic)).Walk "g" ∅ [(⟨"g", 0, 0⟩, ∅)]
      ⟨"f", 2, 0⟩ ∅ := .step hinner rfl (by decide)
  have hlock : (lockPaths cyclic (operandOf cyclic)).Walk "g" ∅ [(⟨"g", 0, 0⟩, ∅)]
      ⟨"f", 2, 1⟩ {.global "m"} := .step hbranch rfl (by decide)
  have hreturn : (lockPaths cyclic (operandOf cyclic)).Walk "g" ∅ []
      ⟨"g", 0, 1⟩ {.global "m"} := .ret hlock rfl rfl (by decide)
  exact ⟨cyclic_mutexes, _, _, _, rfl, rfl, hreturn, rfl, by decide⟩

/-- `main` calls `h` after `f`, also with `m` held. -/
theorem cyclic_runs : ∃ r w e, Runs cyclic {} (.visit (.function "main" ∅))
    (({} : Worker).startTask "main") r w ∧ w.summary? "h" {.global "m"} = some e :=
  ⟨_, _, _, traverse_runs (n := 15) rfl, rfl⟩

theorem summary_exact_cyclic : ∃ (w : Worker) (e : FunctionCacheEntry), Between cyclic {} w ∧
    w.summary? "h" {.global "m"} = some e ∧
    (∀ s X, (lockPaths cyclic (operandOf cyclic)).Walk "h" {.global "m"} [] s X →
      cyclic.op? s = some .ret → X ∈ e.exitLockSets) ∧
    {X | X ∈ e.exitLockSets} = (lockPaths cyclic (operandOf cyclic)).exits "h" {.global "m"} := by
  obtain ⟨r, w, e, hrun, hsummary⟩ := cyclic_runs
  have hbetween : Between cyclic {} w := .next .new hrun
  have hstart : Reached cyclic {} (.visit (.function "main" ∅)) (w.startTask "main") []
      (.visit (.function "main" ∅)) (w.startTask "main") := .start
  exact ⟨w, e, hbetween, hsummary, summary_exact cyclic_mutexes hbetween hstart
    (reachesNoCycle_of_statements (by decide)) hsummary⟩

end Lockout.Strator.Recursion
