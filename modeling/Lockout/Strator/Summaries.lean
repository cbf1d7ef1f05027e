import Lockout.Strator.Tasks

/-! # What a traversal of a function returns

In a module without recursion, thread creation and indirect branches, whose mutexes
are global variables, every call of `traverseFunction` returns the locksets its paths
return with: from the root or nested in other calls, with any entry lockset and
whatever earlier traversals have left in the caches. -/

namespace Lockout.Strator.Summaries
open Lockout.Lib Lockout.Lib.Interprocedural
open Lockout.Strator.Program Lockout.Strator.State Lockout.Strator.Traverse
open Lockout.Strator.Effects Lockout.Strator.Paths Lockout.Strator.Termination
open Lockout.Strator.Exact Lockout.Strator.Tasks

/-- One thread, no recursion, no indirect branch, and mutexes that are global variables. -/
structure Sequential (m : IRModule) : Prop where
  noIndirectBr : ∀ s, m.op? s ≠ some .indirectBr
  noThreadCreation : ∀ {s callee args g}, m.op? s = some (.call callee args) →
    calledFunction callee = some g → isThreadCreationFunction g = false
  mutexes : GlobalMutexes m
  acyclic : Acyclic m (operandOf m)

section Bounds
variable {m : IRModule} {opts : Options} {t : Search} {w₀ w : Worker} {ctx : List InstId}
  {L₀ : LockSet} {root : String} {V : Finset Value}

theorem Sequential.accepted (h : Sequential m) : Accepted m where
  noIndirectBr := h.noIndirectBr
  mutexes := h.mutexes
  workers := by
    intro s callee args g hop hcallee hg
    rw [h.noThreadCreation hop hcallee] at hg
    cases hg

theorem noThreadCreation_of_statements
    (h : ∀ s ∈ statements m, ∀ g ∈ calledAt m s, isThreadCreationFunction g = false)
    {s : InstId} {callee : Value} {args : List Value} {g : String}
    (hop : m.op? s = some (.call callee args)) (hcallee : calledFunction callee = some g) :
    isThreadCreationFunction g = false := by
  obtain ⟨inst, hinst, -⟩ := Option.map_eq_some_iff.mp hop
  exact h s (mem_statements hinst) g (by simp [calledAt, hop, hcallee])

/-- Earlier traversals have met finitely many values. -/
theorem left_bounded (h : Left m opts w) : ∃ V, Covers m V ∧ Bounded V w := by
  induction h with
  | new => exact ⟨values m, covers_values m, bounded_empty⟩
  | task _ ih =>
    obtain ⟨V, hV, hw⟩ := ih
    exact ⟨V, hV, hw.bindings, hw.summaries⟩
  | @next f L w r w' _ hrun ih =>
    obtain ⟨V, hV, hw⟩ := ih
    have hcovers := hV.union (covers_valuesWith L)
    have hL : L ⊆ V ∪ valuesWith m L := (subset_valuesWith L).trans Finset.subset_union_right
    have hw' : Bounded (V ∪ valuesWith m L) w := hw.mono Finset.subset_union_left
    exact ⟨_, hcovers, (bounded_of_runs hcovers hrun hw' hL).1⟩

/-- Every task of a traversal over `V` starts over `V`. -/
theorem reached_bounded (hV : Covers m V) (hw₀ : Bounded V w₀) (hL₀ : L₀ ⊆ V)
    (h : Reached m opts (.visit (.function root L₀)) w₀ ctx t w) : Bounded V w ∧ Starts V t := by
  induction h with
  | start => exact ⟨hw₀, hL₀⟩
  | body _ _ _ _ ih =>
    obtain ⟨hw, hL⟩ := ih
    exact ⟨⟨hw.bindings, hw.summaries⟩, hL, hL⟩
  | goOn _ _ hs ih =>
    obtain ⟨hw, hE, hL⟩ := ih
    obtain ⟨hw₁, hL'⟩ := bounded_processStatement hV hw hL hs
    refine ⟨hw₁, starts_successors hE fun X hX => ?_⟩
    rw [List.mem_singleton.mp hX]
    exact hL'
  | enter _ _ hs ih =>
    obtain ⟨hw, _, hL⟩ := ih
    exact bounded_processStatement hV hw hL hs
  | resume _ _ hs hcallee ih =>
    obtain ⟨hw, hE, hL⟩ := ih
    obtain ⟨hw₁, hL'⟩ := bounded_processStatement hV hw hL hs
    obtain ⟨hw₂, hexits⟩ := bounded_of_runs hV hcallee hw₁ hL'
    exact ⟨bounded_eraseArguments hw₂, starts_successors hE (workingList_subset hL' hexits)⟩
  | head _ ih =>
    obtain ⟨hw, hE, hwork⟩ := ih
    exact ⟨hw, hE, hwork _ List.mem_cons_self⟩
  | rest _ hfirst ih =>
    obtain ⟨hw, hE, hwork⟩ := ih
    have hhead := hwork _ List.mem_cons_self
    have hw₁ := (bounded_of_runs hV hfirst hw ⟨hE, hhead⟩).1
    exact ⟨hw₁, hE, fun c hc => hwork c (List.mem_cons_of_mem _ hc)⟩

/-- Every call of `traverseFunction` returns. -/
theorem reached_returns (hm : Accepted m) {f : String} {E : LockSet} (hw₀ : Left m opts w₀)
    (h : Reached m opts (.visit (.function root L₀)) w₀ ctx (.visit (.function f E)) w) :
    ∃ r w', Runs m opts (.visit (.function f E)) w r w' := by
  obtain ⟨V, hV, hw⟩ := left_bounded hw₀
  have hcovers := hV.union (covers_valuesWith L₀)
  have hL₀ : L₀ ⊆ V ∪ valuesWith m L₀ := (subset_valuesWith L₀).trans Finset.subset_union_right
  have hw' : Bounded (V ∪ valuesWith m L₀) w₀ := hw.mono Finset.subset_union_left
  obtain ⟨hbounded, hstarts⟩ := reached_bounded hcovers hw' hL₀ h
  exact visit_returns hm hcovers trivial hstarts hbounded

end Bounds

section Summaries
variable {m : IRModule} {opts : Options}

/-- A function has no exit lockset only if no control flow comes to a return: so the
rule of the paths for a call without exits is the one for a callee that never
returns. -/
theorem exits_eq_empty_iff (hm : Sequential m) {g : String} {L : LockSet} :
    (lockPaths m (operandOf m)).exits g L = ∅ ↔ ¬ (lockPaths m (operandOf m)).Returns g := by
  have hmutex : OfMutex m {} (operandOf m) := ofMutex_operandOf hm.mutexes
  have hstart : Reached m {} (.visit (.function g L)) {} [] (.visit (.function g L)) {} := .start
  obtain ⟨r, w', hrun⟩ := reached_returns hm.accepted .new hstart
  obtain ⟨hexits, hreturns⟩ := Left.exits hmutex hm.acyclic .new hstart hrun
  constructor
  · intro hempty
    exact hreturns (hexits.trans hempty)
  · intro hnever
    refine Set.eq_empty_iff_forall_notMem.mpr fun X hX => ?_
    exact hnever ((lockPaths m (operandOf m)).returns_of_exits hX)

/-- What `traverseFunction` returns are exactly the locksets at a return over the
paths of the function, where a call whose callee has no exit lockset goes on with the
lockset it has. -/
theorem traverseFunction_exact (hm : Sequential m) {root f : String} {L₀ E : LockSet}
    {w₀ w : Worker} {ctx : List InstId} (hw₀ : Left m opts w₀)
    (h : Reached m opts (.visit (.function root L₀)) w₀ ctx (.visit (.function f E)) w) :
    ∃ r w' N, (∀ n, N ≤ n → traverse m opts n (.function f E) w = .ok (r, w')) ∧
      {X | X ∈ r} = (lockPaths m (operandOf m)).exits f E ∧
      ∀ g L, (lockPaths m (operandOf m)).exits g L = ∅ ↔
        ¬ (lockPaths m (operandOf m)).Returns g := by
  have hmutex : OfMutex m opts (operandOf m) := ofMutex_operandOf hm.mutexes
  obtain ⟨r, w', hrun⟩ := reached_returns hm.accepted hw₀ h
  obtain ⟨N, hN⟩ := hrun.ends
  exact ⟨r, w', N, hN, (Left.exits hmutex hm.acyclic hw₀ h hrun).1,
    fun g L => exits_eq_empty_iff hm⟩

end Summaries

/-- `main` takes `m` and loops over a call of `toggle`, which releases `m` on one of its
branches; `spin` never returns. -/
def toggling : IRModule where
  functions := [
    ("main", { blocks := [
      .of ⟨"", .call (.function "pthread_mutex_lock") [.global "m"]⟩ [⟨"", .other []⟩] [1],
      .of ⟨"", .call (.function "toggle") []⟩ [⟨"", .other []⟩] [1, 2],
      .of ⟨"", .call (.function "spin") []⟩ [⟨"", .ret⟩]] }),
    ("toggle", { blocks := [
      .of ⟨"", .other []⟩ [] [1, 2],
      .of ⟨"", .call (.function "pthread_mutex_unlock") [.global "m"]⟩ [⟨"", .other []⟩] [2],
      .of ⟨"", .ret⟩ []] }),
    ("spin", { blocks := [.of ⟨"", .other []⟩ [] [0]] })]
  globals := [("m", false)]

theorem toggling_accepted : Accepted toggling := accepted_of_statements (by decide)

theorem toggling_sequential : Sequential toggling where
  noIndirectBr := toggling_accepted.noIndirectBr
  noThreadCreation := noThreadCreation_of_statements (by decide)
  mutexes := toggling_accepted.mutexes
  acyclic := acyclic_of_rank (fun f => if f = "main" then 1 else 0) (by decide)

theorem traverseFunction_exact_toggling : ∃ r w' N,
    (∀ n, N ≤ n → traverse toggling {} n (.function "main" {.global "m"}) {} = .ok (r, w')) ∧
      {X | X ∈ r} = (lockPaths toggling (operandOf toggling)).exits "main" {.global "m"} ∧
      ∀ g L, (lockPaths toggling (operandOf toggling)).exits g L = ∅ ↔
        ¬ (lockPaths toggling (operandOf toggling)).Returns g :=
  traverseFunction_exact toggling_sequential .new .start

end Lockout.Strator.Summaries
