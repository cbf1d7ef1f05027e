import Lockout.Lib.Interprocedural
import Lockout.Strator.Effects

/-! # Locksets over paths

What the traversal is to find: the locksets that are held over the interprocedural
paths of a module (`lockPaths`). A lock inserts its mutex and an unlock erases it; a
call of a function, or of a thread's worker, goes on with any lockset at a return of
the callee; every other call leaves the lockset alone. `mutex` names the mutex of each
lock and unlock call. -/

namespace Lockout.Strator.Paths
open Lockout.Lib.Interprocedural
open Lockout.Strator.Program Lockout.Strator.State Lockout.Strator.Traverse
open Lockout.Strator.Effects

/-- The function a call of `g` with `args` enters. -/
def callTarget (m : IRModule) (g : String) (args : List Value) : Option String :=
  if isThreadCreationFunction g then (getThreadWorkerFunction m args).toOption else some g

def lockKind (m : IRModule) (mutex : InstId → Lock) (s : InstId) : Kind String LockSet :=
  match m.op? s with
  | some .ret => .exit
  | some (.call callee args) =>
    match calledFunction callee with
    | none => .step id
    | some g =>
      if isLock g then .step fun L => insert (mutex s) L
      else if isUnLock g then .step fun L => L.erase (mutex s)
      else match callTarget m g args with
        | some f => .call f id (fun _ L => L) id
        | none => .step id
  | _ => .step id

def lockPaths (m : IRModule) (mutex : InstId → Lock) : Supergraph String InstId LockSet where
  owner := InstId.func
  entry := m.entry
  succ := m.succs
  kind := lockKind m mutex
  owner_entry := func_entry
  owner_succ := func_succs

/-- No function calls itself, directly or through others or the creation of threads. -/
def Acyclic (m : IRModule) (mutex : InstId → Lock) : Prop :=
  ∀ f, ¬ Relation.TransGen (lockPaths m mutex).Calls f f

/-- A binding the traversal can make: of a bitcast to its operand, or of a formal
parameter to the actual of some call. -/
inductive MayBind (m : IRModule) : Value → Value → Prop
  | bitCast {s v} : m.op? s = some (.bitCast v) → MayBind m (.inst s) v
  | argument {s callee args g f actuals i v} : m.op? s = some (.call callee args) →
      calledFunction callee = some g → isLock g = false → isUnLock g = false →
      Resolves m g args f actuals → actuals[i]? = some v → MayBind m (.argument f i) v

def Admissible (m : IRModule) (bindings : FlowSensitiveValue) : Prop :=
  ∀ v p, bindings.lookup v = some p → MayBind m v p

/-- Every lock and unlock call is of its mutex, whatever the parameters are bound to. -/
def OfMutex (m : IRModule) (opts : Options) (mutex : InstId → Lock) : Prop :=
  ∀ {s callee args g bindings l}, m.op? s = some (.call callee args) →
    calledFunction callee = some g → (isLock g || isUnLock g) = true →
    Admissible m bindings → getLockValue m opts bindings args = .ok l → l = mutex s

/-- The function a call statement names. -/
def calledAt (m : IRModule) (s : InstId) : Option String :=
  match m.op? s with
  | some (.call callee _) => calledFunction callee
  | _ => none

/-- The first argument of a call. -/
def operandOf (m : IRModule) (s : InstId) : Value :=
  match m.op? s with
  | some (.call _ args) => args.headD (.constant "")
  | _ => .constant ""

/-- Every lock and unlock call names a global mutex. -/
def GlobalMutexes (m : IRModule) : Prop :=
  ∀ {s callee args g}, m.op? s = some (.call callee args) → calledFunction callee = some g →
    (isLock g || isUnLock g) = true → ∃ name, args = [.global name]

theorem ofMutex_operandOf {m : IRModule} {opts : Options} (h : GlobalMutexes m) :
    OfMutex m opts (operandOf m) := by
  intro s callee args g bindings l hop hcallee hlock _ hl
  obtain ⟨name, rfl⟩ := h hop hcallee hlock
  cases hl
  rw [operandOf, hop]
  rfl

section Bindings
variable {m : IRModule} {opts : Options} {s : InstId} {L : LockSet} {w w' : Worker} {next : Next}

theorem admissible_empty : Admissible m ∅ := by
  intro v p h
  simp at h

/-- One statement makes only bindings it may make. -/
theorem admissible_step (hw : Admissible m w.parentValue) (h : Step m opts s L w next w') :
    Admissible m w'.parentValue := by
  intro v p hv
  cases h with
  | returned | plain => exact hw v p hv
  | bitCast hop =>
    rcases lookup_insert_iff.mp hv with ⟨rfl, rfl⟩ | ⟨-, hv⟩
    · exact .bitCast hop
    · exact hw v p hv
  | unresolved | lock | unlock =>
    rw [parentValue_markMultithreaded] at hv
    exact hw v p hv
  | call hop hcallee hlock hunlock hresolves =>
    rcases lookup_bindArguments_eq_some hv with ⟨i, rfl, hi⟩ | hv
    · exact .argument hop hcallee hlock hunlock hresolves hi
    · rw [parentValue_inheritFlag, parentValue_markMultithreaded] at hv
      exact hw v p hv
  | load | store =>
    rw [parentValue_detectRaces] at hv
    exact hw v p hv

theorem admissible_processStatement {E : LockSet} (hw : Admissible m w.parentValue)
    (h : processStatement m opts s L (w.addToCache s E L) = .ok (next, w')) :
    Admissible m w'.parentValue := by
  have hstart : Admissible m (w.addToCache s E L).parentValue := hw
  exact admissible_step hstart (step_of_processStatement h)

theorem admissible_eraseArguments {f : String} (hw : Admissible m w.parentValue) :
    Admissible m (eraseArguments m f w).parentValue := by
  intro v p hv
  rw [lookup_eraseArguments] at hv
  split at hv
  · cases hv
  · exact hw v p hv

theorem kept_admissible : Kept m opts fun w => Admissible m w.parentValue where
  cache := id
  step := admissible_step
  stack := id
  finish := id
  erase := admissible_eraseArguments

theorem admissible_of_runs {t : Search} {r : List LockSet} (h : Runs m opts t w r w')
    (hw : Admissible m w.parentValue) : Admissible m w'.parentValue :=
  runs_keeps kept_admissible h hw

end Bindings

/-- Going on as `next` says is what a node of kind `k` does with the lockset `L`. -/
def GoesOn (k : Kind String LockSet) (L : LockSet) : Next → Prop
  | .returned => k = .exit
  | .goOn L' => ∃ effect, k = .step effect ∧ L' = effect L
  | .call f L' => k = .call f id (fun _ L => L) id ∧ L' = L

section Kinds
variable {m : IRModule} {opts : Options} {mutex : InstId → Lock} {s : InstId} {L : LockSet}
  {w w' : Worker} {next : Next}

theorem callTarget_of_resolves {g f : String} {args actuals : List Value}
    (h : Resolves m g args f actuals) : callTarget m g args = some f := by
  unfold callTarget
  cases h with
  | direct hg => rw [hg]; rfl
  | creation hg hf _ => rw [hg, hf]; rfl

theorem lockKind_of_resolves {callee : Value} {args actuals : List Value} {g f : String}
    (hop : m.op? s = some (.call callee args)) (hcallee : calledFunction callee = some g)
    (hlock : isLock g = false) (hunlock : isUnLock g = false)
    (hresolves : Resolves m g args f actuals) :
    lockKind m mutex s = .call f id (fun _ L => L) id := by
  unfold lockKind
  rw [hop]
  dsimp only
  rw [hcallee]
  dsimp only
  rw [if_neg (by rw [hlock]; nofun), if_neg (by rw [hunlock]; nofun),
    callTarget_of_resolves hresolves]

theorem calls_of_step {f : String} {L' : LockSet} (h : Step m opts s L w (.call f L') w') :
    (lockPaths m mutex).Calls s.func f := by
  cases h with
  | call hop hcallee hlock hunlock hresolves =>
    exact ⟨s, _, _, _, rfl, lockKind_of_resolves hop hcallee hlock hunlock hresolves⟩

/-- How a statement goes on is what the paths say of it. -/
theorem kind_of_step (hmutex : OfMutex m opts mutex) (hw : Admissible m w.parentValue)
    (h : Step m opts s L w next w') : GoesOn (lockKind m mutex s) L next := by
  cases h with
  | returned hop => rw [lockKind, hop]; rfl
  | bitCast hop | load hop | store hop => rw [lockKind, hop]; exact ⟨id, rfl, rfl⟩
  | unresolved hop hcallee =>
    rw [lockKind, hop]
    dsimp only
    rw [hcallee]
    exact ⟨id, rfl, rfl⟩
  | lock hop hcallee hlock hl =>
    rw [lockKind, hop]
    dsimp only
    rw [hcallee]
    dsimp only
    rw [if_pos hlock]
    rw [parentValue_markMultithreaded] at hl
    exact ⟨_, rfl, by rw [hmutex hop hcallee (by rw [hlock]; rfl) hw hl]⟩
  | unlock hop hcallee hlock hunlock hl =>
    rw [lockKind, hop]
    dsimp only
    rw [hcallee]
    dsimp only
    rw [if_neg (by rw [hlock]; nofun), if_pos hunlock]
    rw [parentValue_markMultithreaded] at hl
    exact ⟨_, rfl, by rw [hmutex hop hcallee (by rw [hlock, hunlock]; rfl) hw hl]⟩
  | call hop hcallee hlock hunlock hresolves =>
    exact ⟨lockKind_of_resolves hop hcallee hlock hunlock hresolves, rfl⟩
  | @plain op hop hplain =>
    rw [lockKind, hop]
    cases op with
    | alloca | getElementPtr | other => exact ⟨id, rfl, rfl⟩
    | _ => cases hplain

theorem kind_of_processStatement {E : LockSet} (hmutex : OfMutex m opts mutex)
    (hw : Admissible m w.parentValue)
    (h : processStatement m opts s L (w.addToCache s E L) = .ok (next, w')) :
    GoesOn (lockKind m mutex s) L next := by
  have hstart : Admissible m (w.addToCache s E L).parentValue := hw
  exact kind_of_step hmutex hstart (step_of_processStatement h)

end Kinds

end Lockout.Strator.Paths
