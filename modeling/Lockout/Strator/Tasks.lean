import Lockout.Strator.Exact

/-! # The tasks of an analysis

`Reached` lists the tasks an analysis comes to, with the state each of them starts in,
also of an analysis that never returns or stops at an assertion. What holds at every
task is proved along it; `of_visits` carries what each visit does to the end of the
analysis. -/

namespace Lockout.Strator.Tasks
open Lockout.Lib Lockout.Lib.Interprocedural
open Lockout.Strator.Program Lockout.Strator.State Lockout.Strator.Traverse
open Lockout.Strator.Effects Lockout.Strator.Paths Lockout.Strator.Termination
open Lockout.Strator.Exact

/-- The analysis that starts with task `t₀` in state `w₀` comes to a task in some
state; the list has the call statements the task is nested in, the last call first. -/
inductive Reached (m : IRModule) (opts : Options) (t₀ : Search) (w₀ : Worker) :
    List InstId → Search → Worker → Prop
  | start : Reached m opts t₀ w₀ [] t₀ w₀
  | body {ctx f L w s} : Reached m opts t₀ w₀ ctx (.visit (.function f L)) w →
      m.entry f = some s → w.summary? f L = none → w.onStack f = false →
      Reached m opts t₀ w₀ ctx (.visit (.statement s L L)) (w.setOnStack f true)
  | goOn {ctx s E L w L' w₁} : Reached m opts t₀ w₀ ctx (.visit (.statement s E L)) w →
      w.isInCache s E L = false →
      processStatement m opts s L (w.addToCache s E L) = .ok (.goOn L', w₁) →
      Reached m opts t₀ w₀ ctx (.each E (successors m s [L'])) w₁
  | enter {ctx s E L w f L' w₁} : Reached m opts t₀ w₀ ctx (.visit (.statement s E L)) w →
      w.isInCache s E L = false →
      processStatement m opts s L (w.addToCache s E L) = .ok (.call f L', w₁) →
      Reached m opts t₀ w₀ (s :: ctx) (.visit (.function f L')) w₁
  | resume {ctx s E L w f L' w₁ exits w₂} :
      Reached m opts t₀ w₀ ctx (.visit (.statement s E L)) w → w.isInCache s E L = false →
      processStatement m opts s L (w.addToCache s E L) = .ok (.call f L', w₁) →
      Runs m opts (.visit (.function f L')) w₁ exits w₂ →
      Reached m opts t₀ w₀ ctx (.each E (successors m s (workingList opts L' exits)))
        (eraseArguments m f w₂)
  | head {ctx E s L work w} : Reached m opts t₀ w₀ ctx (.each E ((s, L) :: work)) w →
      Reached m opts t₀ w₀ ctx (.visit (.statement s E L)) w
  | rest {ctx E s L work w r w₁} : Reached m opts t₀ w₀ ctx (.each E ((s, L) :: work)) w →
      Runs m opts (.visit (.statement s E L)) w r w₁ →
      Reached m opts t₀ w₀ ctx (.each E work) w₁

section Invariants
variable {m : IRModule} {opts : Options} {mutex : InstId → Lock} {t₀ t : Search}
  {w₀ w w' : Worker} {ctx : List InstId} {r : List LockSet} {s : InstId} {E L : LockSet}

/-- What every change of the state keeps holds at every task. -/
theorem reached_keeps {I : Worker → Prop} (hI : Kept m opts I) (hw₀ : I w₀)
    (h : Reached m opts t₀ w₀ ctx t w) : I w := by
  induction h with
  | start => exact hw₀
  | body _ _ _ _ ih => exact hI.stack ih
  | goOn _ _ hs ih | enter _ _ hs ih => exact hI.step (hI.cache ih) (step_of_processStatement hs)
  | resume _ _ hs hcallee ih =>
    exact hI.erase (runs_keeps hI hcallee (hI.step (hI.cache ih) (step_of_processStatement hs)))
  | head _ ih => exact ih
  | rest _ hfirst ih => exact runs_keeps hI hfirst ih

/-- What a visit of a statement makes true and no change makes false holds in the end
of all visits. -/
theorem of_visits (Q : InstId → LockSet → LockSet → Worker → Prop)
    (hkept : ∀ s E L, Kept m opts (Q s E L))
    (hvisit : ∀ {ctx s E L w next w'}, Reached m opts t₀ w₀ ctx (.visit (.statement s E L)) w →
      w.isInCache s E L = false → processStatement m opts s L (w.addToCache s E L) = .ok (next, w') →
      Q s E L w')
    (h : Runs m opts t w r w') (ht : Reached m opts t₀ w₀ ctx t w)
    (hs : w'.isInCache s E L = true) : w.isInCache s E L = true ∨ Q s E L w' := by
  -- the visit of the statement itself
  have hnew : ∀ {ctx s' E' L' w next w₁},
      Reached m opts t₀ w₀ ctx (.visit (.statement s' E' L')) w → w.isInCache s' E' L' = false →
      processStatement m opts s' L' (w.addToCache s' E' L') = .ok (next, w₁) →
      w₁.isInCache s E L = true → w.isInCache s E L = true ∨ Q s E L w₁ := by
    intro ctx s' E' L' w next w₁ ht hnew hs hw₁
    rw [isInCache_of_statementCache (step_of_processStatement hs).sameCaches.statementCache] at hw₁
    rcases isInCache_addToCache.mp hw₁ with ⟨rfl, rfl, rfl⟩ | hold
    · exact .inr (hvisit ht hnew hs)
    · exact .inl hold
  have hQ := hkept s E L
  induction h generalizing ctx with
  | declaration | summary | recursion | cached | nil => exact .inl hs
  | function hentry hnone hstack _ ih => exact (ih (ht.body hentry hnone hstack) hs).imp_right hQ.finish
  | returned hfresh hstep => exact hnew ht hfresh hstep hs
  | goOn hfresh hstep hrest ih =>
    rcases ih (ht.goOn hfresh hstep) hs with hw₁ | hw'
    · exact (hnew ht hfresh hstep hw₁).imp_right (runs_keeps hQ hrest)
    · exact .inr hw'
  | call hfresh hstep hcallee hrest ihf ih =>
    rcases ih (ht.resume hfresh hstep hcallee) hs with hw₂ | hw'
    · rcases ihf (ht.enter hfresh hstep) hw₂ with hw₁ | hw₂
      · exact (hnew ht hfresh hstep hw₁).imp_right fun hq =>
          runs_keeps hQ hrest (hQ.erase (runs_keeps hQ hcallee hq))
      · exact .inr (runs_keeps hQ hrest (hQ.erase hw₂))
    · exact .inr hw'
  | cons hfirst hrest ih ih' =>
    rcases ih' (ht.rest hfirst) hs with hw₁ | hw'
    · exact (ih ht.head hw₁).imp_right (runs_keeps hQ hrest)
    · exact .inr hw'

/-- When the analysis ends, every task it has come to has ended, and what that has left
stays until the end. -/
theorem Reached.ends (hrun : Runs m opts t₀ w₀ r w') (h : Reached m opts t₀ w₀ ctx t w) :
    ∃ r₁ w₁, Runs m opts t w r₁ w₁ ∧ ∀ I, Kept m opts I → I w₁ → I w' := by
  induction h with
  | start => exact ⟨r, w', hrun, fun _ _ => id⟩
  | body _ hentry hnone hstack ih =>
    obtain ⟨r₁, w₁, hfunction, hkept⟩ := ih
    obtain ⟨w₂, hbody, rfl⟩ := hfunction.function_inv hentry hnone hstack
    exact ⟨r₁, w₂, hbody, fun I hI hw => hkept I hI (hI.finish hw)⟩
  | goOn _ hnew hs ih =>
    obtain ⟨r₁, w₁, hstatement, hkept⟩ := ih
    exact ⟨r₁, w₁, hstatement.goOn_inv hnew hs, hkept⟩
  | enter _ hnew hs ih =>
    obtain ⟨r₁, w₁, hstatement, hkept⟩ := ih
    obtain ⟨exits, w₂, hcallee, hrest⟩ := hstatement.call_inv hnew hs
    exact ⟨exits, w₂, hcallee, fun I hI hw => hkept I hI (runs_keeps hI hrest (hI.erase hw))⟩
  | resume _ hnew hs hcallee ih =>
    obtain ⟨r₁, w₁, hstatement, hkept⟩ := ih
    obtain ⟨exits, w₂, hcallee', hrest⟩ := hstatement.call_inv hnew hs
    obtain ⟨rfl, rfl⟩ := hcallee.unique hcallee'
    exact ⟨r₁, w₁, hrest, hkept⟩
  | head _ ih =>
    obtain ⟨r₁, w₁, heach, hkept⟩ := ih
    cases heach with
    | cons hfirst hrest => exact ⟨_, _, hfirst, fun I hI hw => hkept I hI (runs_keeps hI hrest hw)⟩
  | rest _ hfirst ih =>
    obtain ⟨r₁, w₁, heach, hkept⟩ := ih
    cases heach with
    | cons hfirst' hrest =>
      obtain ⟨rfl, rfl⟩ := hfirst.unique hfirst'
      exact ⟨_, _, hrest, hkept⟩

end Invariants

/-! ## From one traversal of a worker to the next -/

/-- The states that whole traversals leave behind, of any functions with any entry
locksets, within a task or from one task to the next. -/
inductive Left (m : IRModule) (opts : Options) : Worker → Prop
  | new : Left m opts {}
  | task {f w} : Left m opts w → Left m opts (w.startTask f)
  | next {f L w r w'} : Left m opts w → Runs m opts (.visit (.function f L)) w r w' →
      Left m opts w'

/-- Any function can be entered with any lockset. -/
def anywhere : String → LockSet → Prop := fun _ _ => True

section Traversals
variable {m : IRModule} {opts : Options} {mutex : InstId → Lock} {t : Search}
  {w₀ w w' : Worker} {ctx : List InstId} {r : List LockSet} {L L₀ : LockSet} {f root : String}

theorem memo_startTask : memo (w.startTask f) = memo w := rfl

theorem callsActivate_anywhere : Tabulation.CallsActivate (lockPaths m mutex) anywhere :=
  fun _ _ _ _ _ _ _ _ _ _ _ => trivial

theorem Left.admissible (h : Left m opts w) : Admissible m w.parentValue := by
  induction h with
  | new => exact admissible_empty
  | task _ ih => exact ih
  | next _ hrun ih => exact admissible_of_runs hrun ih

theorem Left.onStack (h : Left m opts w) (f : String) : w.onStack f = false := by
  induction h with
  | new => rfl
  | task _ ih => exact ih
  | next _ hrun ih =>
    rw [onStack_of_runs hrun]
    exact ih

theorem ready_visit (hw : Tabulation.Consistent (lockPaths m mutex) anywhere (memo w))
    (hstack : ∀ f, w.onStack f = false) : Tabulation.Ready (lockPaths m mutex) anywhere
      (searchOf (.visit (.function f L))) (memo w) := by
  refine ⟨hw, trivial, fun k hk => ?_⟩
  have hactive : w.onStack k = true := hk
  rw [hstack k] at hactive
  cases hactive

/-- What earlier traversals have left in the caches is right. -/
theorem Left.consistent (hmutex : OfMutex m opts mutex) (hacyclic : Acyclic m mutex)
    (h : Left m opts w) : Tabulation.Consistent (lockPaths m mutex) anywhere (memo w) := by
  induction h with
  | new => exact consistent_memo_empty
  | task _ ih => exact ih
  | @next f L w r w' hw hrun ih =>
    obtain ⟨hconsistent, hactive, hcallers⟩ := @ready_visit m mutex w L f ih hw.onStack
    have hsearch := tabulates hmutex hrun hw.admissible
    exact (hsearch.correct hacyclic callsActivate_anywhere hconsistent hactive
      fun {k} hk => hcallers k hk).consistent

theorem Left.reached_admissible (hw₀ : Left m opts w₀)
    (h : Reached m opts (.visit (.function root L₀)) w₀ ctx t w) : Admissible m w.parentValue :=
  reached_keeps kept_admissible hw₀.admissible h

/-- Every task starts where a search of the paths may start. -/
theorem Left.reached_ready (hmutex : OfMutex m opts mutex) (hacyclic : Acyclic m mutex)
    (hw₀ : Left m opts w₀) (h : Reached m opts (.visit (.function root L₀)) w₀ ctx t w) :
    Tabulation.Ready (lockPaths m mutex) anywhere (searchOf t) (memo w) := by
  have hA := @callsActivate_anywhere m mutex
  induction h with
  | start => exact ready_visit (hw₀.consistent hmutex hacyclic) hw₀.onStack
  | body _ hentry _ _ ih =>
    rw [memo_setOnStack]
    exact ih.body hentry
  | goOn ht _ hs ih =>
    have hw := hw₀.reached_admissible ht
    obtain ⟨effect, hkind, rfl⟩ := kind_of_processStatement hmutex hw hs
    rw [memo_processStatement hs]
    exact ih.step hkind (lists_successors fun X => List.mem_singleton)
  | enter ht _ hs ih =>
    have hw := hw₀.reached_admissible ht
    obtain ⟨hkind, rfl⟩ := kind_of_processStatement hmutex hw hs
    rw [memo_processStatement hs]
    exact ih.call hA hkind
  | resume ht hnew hs hcallee ih =>
    have hw := hw₀.reached_admissible ht
    have hw₁ := hw₀.reached_admissible (ht.enter hnew hs)
    obtain ⟨hkind, rfl⟩ := kind_of_processStatement hmutex hw hs
    have hrun := tabulates hmutex hcallee hw₁
    rw [memo_processStatement hs] at hrun
    rw [memo_of_sameCaches bookkeeping_eraseArguments.toSameCaches]
    exact ih.afterCall hacyclic hA hkind hrun (lists_successors fun X => mem_workingList)
  | head _ ih => exact ih.head
  | rest ht hfirst ih =>
    exact ih.rest hacyclic hA (tabulates hmutex hfirst (hw₀.reached_admissible ht))

/-- A function that a traversal comes to exits with what its paths exit with. -/
theorem Left.exits (hmutex : OfMutex m opts mutex) (hacyclic : Acyclic m mutex)
    (hw₀ : Left m opts w₀)
    (h : Reached m opts (.visit (.function root L₀)) w₀ ctx (.visit (.function f L)) w)
    (hrun : Runs m opts (.visit (.function f L)) w r w') :
    {X | X ∈ r} = (lockPaths m mutex).exits f L ∧
      ({X | X ∈ r} = ∅ → ¬ (lockPaths m mutex).Returns f) := by
  obtain ⟨hconsistent, hactive, hcallers⟩ := hw₀.reached_ready hmutex hacyclic h
  have hsearch := tabulates hmutex hrun (hw₀.reached_admissible h)
  exact (hsearch.correct hacyclic callsActivate_anywhere hconsistent hactive
    fun {k} hk => hcallers k hk).exact

end Traversals

/-- The states a worker takes a task in: new, or as an earlier task has left it. -/
inductive Between (m : IRModule) (opts : Options) : Worker → Prop
  | new : Between m opts {}
  | next {f w r w'} : Between m opts w →
      Runs m opts (.visit (.function f ∅)) (w.startTask f) r w' → Between m opts w'

section Searches
variable {m : IRModule} {opts : Options} {mutex : InstId → Lock} {t : Search}
  {w₀ w w' : Worker} {ctx : List InstId} {r : List LockSet} {L : LockSet} {f task : String}

theorem Between.left (h : Between m opts w) : Left m opts w := by
  induction h with
  | new => exact .new
  | next _ hrun ih => exact ih.task.next hrun

theorem admissible_startTask (h : Between m opts w) :
    Admissible m (w.startTask f).parentValue :=
  h.left.task.admissible

theorem reached_admissible (hw₀ : Between m opts w₀)
    (h : Reached m opts (.visit (.function task ∅)) (w₀.startTask task) ctx t w) :
    Admissible m w.parentValue :=
  hw₀.left.task.reached_admissible h

theorem exits_of_reached (hmutex : OfMutex m opts mutex) (hacyclic : Acyclic m mutex)
    (hw₀ : Between m opts w₀)
    (h : Reached m opts (.visit (.function task ∅)) (w₀.startTask task) ctx
      (.visit (.function f L)) w)
    (hrun : Runs m opts (.visit (.function f L)) w r w') :
    {X | X ∈ r} = (lockPaths m mutex).exits f L ∧
      ({X | X ∈ r} = ∅ → ¬ (lockPaths m mutex).Returns f) :=
  hw₀.left.task.exits hmutex hacyclic h hrun

theorem startTask_new : ({} : Worker).startTask f = {} := by
  have hflags : Function.update (fun _ : String => false) f false = fun _ => false :=
    Function.update_eq_self f fun _ => false
  exact congrArg (fun flags => { ({} : Worker) with multithreadedFunctionMap := flags }) hflags

end Searches

end Lockout.Strator.Tasks
