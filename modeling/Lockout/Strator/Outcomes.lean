import Lockout.Strator.ThreadCreation

/-! # Paths with the outcomes of trylock

Step by step along a path of one thread, `Path` keeps the calls that have not returned
and what the lock and unlock calls have done, a trylock with either result. The
traversal takes every trylock for a lock. So on every path it has a lockset for each
access without a mutex that is not held there, apart from those that a trylock was
refused last (`lockset_below_held`). -/

namespace Lockout.Strator.Outcomes
open Lockout.Lib.Interprocedural
open Lockout.Strator.Program Lockout.Strator.State Lockout.Strator.Traverse
open Lockout.Strator.Effects Lockout.Strator.Paths Lockout.Strator.Termination
open Lockout.Strator.Exact Lockout.Strator.ThreadCreation

/-! ## Paths -/

inductive LockEvent
  | acquire (l : Lock)
  /-- A trylock with a non-zero result. -/
  | refuse (l : Lock)
  | release (l : Lock)
  deriving DecidableEq

/-- How often a mutex is held after the events, the last one first. -/
def held : List LockEvent → Lock → Nat
  | [], _ => 0
  | .acquire k :: events, l => if k = l then held events l + 1 else held events l
  | .refuse _ :: events, l => held events l
  | .release k :: events, l => if k = l then held events l - 1 else held events l

/-- The last event of a mutex is a refused trylock. -/
def lastRefused : List LockEvent → Lock → Bool
  | [], _ => false
  | .refuse k :: events, l => k = l || lastRefused events l
  | .acquire k :: events, l | .release k :: events, l => k ≠ l && lastRefused events l

/-- What a statement that stays in its function can do to the mutexes. -/
inductive Acts (m : IRModule) (s : InstId) : List LockEvent → Prop
  | lock {callee args} : m.op? s = some (.call callee args) →
      calledFunction callee = some "pthread_mutex_lock" → Acts m s [.acquire (operandOf m s)]
  | trylock {callee args} : m.op? s = some (.call callee args) →
      calledFunction callee = some "pthread_mutex_trylock" → Acts m s [.acquire (operandOf m s)]
  | refused {callee args} : m.op? s = some (.call callee args) →
      calledFunction callee = some "pthread_mutex_trylock" → Acts m s [.refuse (operandOf m s)]
  | unlock {callee args} : m.op? s = some (.call callee args) →
      calledFunction callee = some "pthread_mutex_unlock" → Acts m s [.release (operandOf m s)]
  | unresolved {callee args} : m.op? s = some (.call callee args) →
      calledFunction callee = none → Acts m s []
  | other {op} : m.op? s = some op → op ≠ .ret → (∀ callee args, op ≠ .call callee args) →
      Acts m s []

/-- Statement `s` calls function `f`, which is not one of those that lock or unlock. -/
def CallsFunction (m : IRModule) (s : InstId) (f : String) : Prop :=
  ∃ callee args, m.op? s = some (.call callee args) ∧ calledFunction callee = some f ∧
    isLock f = false ∧ isUnLock f = false

/-- A path from the root comes to a statement: the events on it and the calls that have
not returned, each with the last one first. -/
inductive Path (m : IRModule) (root : String) : List LockEvent → List InstId → InstId → Prop
  | start {s} : m.entry root = some s → Path m root [] [] s
  | act {events stack s new s'} : Path m root events stack s → Acts m s new → s' ∈ m.succs s →
      Path m root (new ++ events) stack s'
  | call {events stack s f s'} : Path m root events stack s → CallsFunction m s f →
      m.entry f = some s' → Path m root events (s :: stack) s'
  | pass {events stack s f s'} : Path m root events stack s → CallsFunction m s f →
      m.entry f = none → s' ∈ m.succs s → Path m root events stack s'
  | ret {events stack c s s'} : Path m root events (c :: stack) s → m.op? s = some .ret →
      s' ∈ m.succs c → Path m root events stack s'

/-! ## What the traversal makes of them -/

/-- The lockset of the traversal after the events. -/
def tracked : List LockEvent → LockSet
  | [] => ∅
  | .acquire l :: events | .refuse l :: events => insert l (tracked events)
  | .release l :: events => (tracked events).erase l

/-- It has no mutex that is not held but those refused last. -/
theorem held_of_tracked {events : List LockEvent} {l : Lock} (h : l ∈ tracked events) :
    0 < held events l ∨ lastRefused events l = true := by
  induction events with
  | nil => cases h
  | cons event events ih =>
    cases event with
    | acquire k =>
      by_cases hk : k = l
      · subst hk
        simp [held]
      · have hold := ih (Finset.mem_of_mem_insert_of_ne h (Ne.symm hk))
        simpa [held, lastRefused, hk] using hold
    | refuse k =>
      by_cases hk : k = l
      · subst hk
        simp [lastRefused]
      · have hold := ih (Finset.mem_of_mem_insert_of_ne h (Ne.symm hk))
        simpa [held, lastRefused, hk] using hold
    | release k =>
      obtain ⟨hk, hmem⟩ := Finset.mem_erase.mp h
      simpa [held, lastRefused, Ne.symm hk] using ih hmem

section Kinds
variable {m : IRModule} {mutex : InstId → Lock} {s : InstId} {callee : Value} {args : List Value}
  {g : String} {op : Opcode}

theorem lockKind_of_lock (hop : m.op? s = some (.call callee args))
    (hcallee : calledFunction callee = some g) (hlock : isLock g = true) :
    lockKind m mutex s = .step fun L => insert (mutex s) L := by
  unfold lockKind
  rw [hop]
  dsimp only
  rw [hcallee]
  exact if_pos hlock

theorem lockKind_of_unlock (hop : m.op? s = some (.call callee args))
    (hcallee : calledFunction callee = some g) (hlock : isLock g = false)
    (hunlock : isUnLock g = true) : lockKind m mutex s = .step fun L => L.erase (mutex s) := by
  unfold lockKind
  rw [hop]
  dsimp only
  rw [hcallee]
  dsimp only
  rw [if_neg (by rw [hlock]; nofun), if_pos hunlock]

theorem lockKind_of_unresolved (hop : m.op? s = some (.call callee args))
    (hcallee : calledFunction callee = none) : lockKind m mutex s = .step id := by
  unfold lockKind
  rw [hop]
  dsimp only
  rw [hcallee]

theorem lockKind_of_ret (hop : m.op? s = some .ret) : lockKind m mutex s = .exit := by
  unfold lockKind
  rw [hop]

theorem lockKind_of_other (hop : m.op? s = some op) (hret : op ≠ .ret)
    (hcall : ∀ callee args, op ≠ .call callee args) : lockKind m mutex s = .step id := by
  unfold lockKind
  rw [hop]
  cases op with
  | ret => exact absurd rfl hret
  | call callee args => exact absurd rfl (hcall callee args)
  | _ => rfl

/-- A call of the paths goes on with the lockset its callee returns with. -/
theorem resume_of_lockKind {enter skip : LockSet → LockSet} {resume : LockSet → LockSet → LockSet}
    (h : lockKind m mutex s = .call g enter resume skip) : resume = fun _ L => L := by
  unfold lockKind at h
  split at h
  · cases h
  · split at h
    · cases h
    · split at h
      · cases h
      · split at h
        · cases h
        · split at h
          · cases h
            rfl
          · cases h
  · cases h

/-- What a statement does to the mutexes is a step of the locksets. -/
theorem Acts.kind {new events : List LockEvent} (h : Acts m s new) : ∃ effect,
    lockKind m (operandOf m) s = .step effect ∧ tracked (new ++ events) = effect (tracked events) := by
  cases h with
  | lock hop hcallee | trylock hop hcallee | refused hop hcallee =>
    exact ⟨_, lockKind_of_lock hop hcallee rfl, rfl⟩
  | unlock hop hcallee => exact ⟨_, lockKind_of_unlock hop hcallee rfl rfl, rfl⟩
  | unresolved hop hcallee => exact ⟨id, lockKind_of_unresolved hop hcallee, rfl⟩
  | other hop hret hcall => exact ⟨id, lockKind_of_other hop hret hcall, rfl⟩

theorem CallsFunction.kind (hthreads : createsThread m s = false) (h : CallsFunction m s g) :
    lockKind m mutex s = .call g id (fun _ L => L) id := by
  obtain ⟨callee, args, hop, hcallee, hlock, hunlock⟩ := h
  refine lockKind_of_resolves hop hcallee hlock hunlock (.direct ?_)
  unfold createsThread at hthreads
  rw [hop] at hthreads
  dsimp only at hthreads
  rw [hcallee] at hthreads
  exact hthreads

end Kinds

section Simulation
variable {m : IRModule} {opts : Options} {root : String} {events : List LockEvent}
  {stack : List InstId} {s : InstId}

/-- A path is one of `lockPaths`, with the lockset of the traversal. -/
theorem Path.walk (hthreads : ∀ s, createsThread m s = false) (h : Path m root events stack s) :
    ∃ frames, frames.map Prod.fst = stack ∧
      (lockPaths m (operandOf m)).Walk root ∅ frames s (tracked events) := by
  induction h with
  | start hentry => exact ⟨[], rfl, .entry hentry⟩
  | act _ hacts hs ih =>
    obtain ⟨frames, hframes, hwalk⟩ := ih
    obtain ⟨effect, hkind, htracked⟩ := hacts.kind
    refine ⟨frames, hframes, ?_⟩
    rw [htracked]
    exact hwalk.step hkind hs
  | call _ hcall hentry ih =>
    obtain ⟨frames, hframes, hwalk⟩ := ih
    exact ⟨_ :: frames, congrArg _ hframes, hwalk.call (hcall.kind (hthreads _)) hentry⟩
  | pass _ hcall hentry hs ih =>
    obtain ⟨frames, hframes, hwalk⟩ := ih
    exact ⟨frames, hframes, hwalk.pass (hcall.kind (hthreads _)) hentry hs⟩
  | ret _ hop hs ih =>
    obtain ⟨frames, hframes, hwalk⟩ := ih
    cases frames with
    | nil => cases hframes
    | cons frame frames =>
      obtain ⟨rfl, rfl⟩ := List.cons.inj hframes
      obtain ⟨p, e, hstack, -⟩ := hwalk.reach
      cases hstack with
      | frame _ _ hkind =>
        have hret := hwalk.ret (lockKind_of_ret hop) hkind hs
        rw [resume_of_lockKind hkind] at hret
        exact ⟨frames, rfl, hret⟩

/-- What was refused last was refused. -/
theorem mem_of_lastRefused {l : Lock} (h : lastRefused events l = true) : .refuse l ∈ events := by
  induction events with
  | nil => cases h
  | cons event events ih =>
    cases event with
    | refuse k =>
      rcases Bool.or_eq_true_iff.mp h with hk | h
      · rw [of_decide_eq_true hk]
        exact List.mem_cons_self
      · exact List.mem_cons_of_mem _ (ih h)
    | acquire k | release k => exact List.mem_cons_of_mem _ (ih (Bool.and_eq_true_iff.mp h).2)

/-- Without recursion and without threads, and with global mutexes, the analysis from a
root ends, and when it returns it has passed to `detectRaces`, for every access on every
path, a lockset of which each mutex is held there or was refused to the last trylock: so
one below the mutexes held where no trylock was refused. -/
theorem lockset_below_held (hglobal : GlobalMutexes m) (hacyclic : Acyclic m (operandOf m))
    (hthreads : ∀ s, createsThread m s = false) (opts : Options) (root : String) :
    ∃ N, ∀ n, N ≤ n → traverseFrom m opts n root {} ≠ .error .outOfFuel ∧
      ∀ r w, traverseFrom m opts n root {} = .ok (r, w) → ∀ events stack s,
        Path m root events stack s → isAccess m s = true →
          ∃ L, (s, L) ∈ w.detected ∧
            (∀ l ∈ L, 0 < held events l ∨ lastRefused events l = true) ∧
            ((∀ l, .refuse l ∉ events) → ∀ l ∈ L, 0 < held events l) := by
  obtain ⟨N, hN⟩ := traverseFrom_ends m opts root {} bounded_empty
  refine ⟨N, fun n hn => ⟨hN n hn, ?_⟩⟩
  intro r w hok events stack s hpath haccess
  have hrun : Runs m opts (.visit (.function root ∅)) {} r w := traverse_runs hok
  have hlogged : Logged m {} := by
    intro s L
    simp [Worker.isInCache]
  obtain ⟨frames, -, hwalk⟩ := hpath.walk hthreads
  obtain ⟨E, hactivated, hreach⟩ := hwalk.activated
  have hseen : w.isInCache s E (tracked events) = true :=
    (isInCache_iff (ofMutex_operandOf hglobal) hacyclic hrun).mpr ⟨hactivated, hreach⟩
  have hdetected := (logged_of_runs hrun hlogged s (tracked events)).mpr ⟨haccess, E, hseen⟩
  refine ⟨tracked events, hdetected, fun l hl => held_of_tracked hl, fun hnone l hl => ?_⟩
  exact (held_of_tracked hl).resolve_right fun hlast => hnone l (mem_of_lastRefused hlast)

theorem createsThread_of_statements (h : ∀ s ∈ statements m, createsThread m s = false)
    (s : InstId) : createsThread m s = false := by
  cases hinst : m.inst? s with
  | some inst => exact h s (mem_statements hinst)
  | none => simp [createsThread, IRModule.op?, hinst]

end Simulation

/-- `main` tries to lock `m`, and loads `g` whether or not it has got it. -/
def refusing : IRModule where
  functions := [("main", { blocks := [
    .of ⟨"", .call (.function "pthread_mutex_trylock") [.global "m"]⟩ [⟨"", .other []⟩] [1, 2],
    .of ⟨"", .load (.global "g")⟩
      [⟨"", .call (.function "pthread_mutex_unlock") [.global "m"]⟩, ⟨"", .ret⟩],
    .of ⟨"", .load (.global "g")⟩ [⟨"", .ret⟩]] })]
  globals := [("m", false), ("g", false)]

theorem refusing_mutexes : GlobalMutexes refusing :=
  (accepted_of_statements (m := refusing) (by decide)).mutexes

theorem refusing_threads : ∀ s, createsThread refusing s = false :=
  createsThread_of_statements (by decide)

theorem lockset_below_held_refusing : ∃ N, ∀ n, N ≤ n →
    traverseFrom refusing {} n "main" {} ≠ .error .outOfFuel ∧
      ∀ r w, traverseFrom refusing {} n "main" {} = .ok (r, w) → ∀ events stack s,
        Path refusing "main" events stack s → isAccess refusing s = true →
          ∃ L, (s, L) ∈ w.detected ∧
            (∀ l ∈ L, 0 < held events l ∨ lastRefused events l = true) ∧
            ((∀ l, .refuse l ∉ events) → ∀ l ∈ L, 0 < held events l) :=
  lockset_below_held refusing_mutexes (acyclic_of_rank (fun _ => 0) (by decide)) refusing_threads
    {} "main"

/-- `main` calls `f` with `m` held. `f` either unlocks `m`, or calls itself and then loads
`g`. -/
def unwinding : IRModule where
  functions := [
    ("main", .straight ⟨"", .call (.function "pthread_mutex_lock") [.global "m"]⟩
      [⟨"", .call (.function "f") []⟩, ⟨"", .ret⟩]),
    ("f", { blocks := [
      .of ⟨"", .other []⟩ [] [1, 2],
      .of ⟨"", .call (.function "f") []⟩ [⟨"", .load (.global "g")⟩, ⟨"", .ret⟩],
      .of ⟨"", .call (.function "pthread_mutex_unlock") [.global "m"]⟩ [⟨"", .ret⟩]] })]
  globals := [("m", false), ("g", false)]

/-- On a path the traversal has for access `s` only locksets with a mutex that is not
held there. -/
def Unsound (m : IRModule) (s : InstId) : Prop :=
  GlobalMutexes m ∧ (∀ s, createsThread m s = false) ∧ isAccess m s = true ∧
    ∃ events stack, Path m "main" events stack s ∧
      ∃ n r w, traverseFrom m {} n "main" {} = .ok (r, w) ∧
        ∀ p ∈ w.detected, p.1 = s → ∃ l ∈ p.2, held events l = 0

/-- The load of `refusing` after a refused trylock, and that of `unwinding` after the
call of `f` that has unlocked `m`. -/
theorem unsound_locksets : Unsound refusing ⟨"main", 2, 0⟩ ∧ Unsound unwinding ⟨"f", 1, 1⟩ := by
  constructor
  · have hstart : Path refusing "main" [] [] ⟨"main", 0, 0⟩ := .start rfl
    have hrefused := hstart.act (.refused rfl rfl) (by decide : ⟨"main", 0, 1⟩ ∈ _)
    have hload := hrefused.act (.other rfl nofun nofun) (by decide : ⟨"main", 2, 0⟩ ∈ _)
    exact ⟨refusing_mutexes, refusing_threads, rfl, _, _, hload, 9, _, _, rfl, by decide⟩
  · have hstart : Path unwinding "main" [] [] ⟨"main", 0, 0⟩ := .start rfl
    have hlock := hstart.act (.lock rfl rfl) (by decide : ⟨"main", 0, 1⟩ ∈ _)
    have houter : Path unwinding "main" _ _ ⟨"f", 0, 0⟩ := hlock.call ⟨_, _, rfl, rfl, rfl, rfl⟩ rfl
    have hagain := houter.act (.other rfl nofun nofun) (by decide : ⟨"f", 1, 0⟩ ∈ _)
    have hinner : Path unwinding "main" _ _ ⟨"f", 0, 0⟩ := hagain.call ⟨_, _, rfl, rfl, rfl, rfl⟩ rfl
    have hbranch := hinner.act (.other rfl nofun nofun) (by decide : ⟨"f", 2, 0⟩ ∈ _)
    have hunlock := hbranch.act (.unlock rfl rfl) (by decide : ⟨"f", 2, 1⟩ ∈ _)
    have hload := hunlock.ret rfl (by decide : ⟨"f", 1, 1⟩ ∈ _)
    exact ⟨(accepted_of_statements (m := unwinding) (by decide)).mutexes,
      createsThread_of_statements (by decide), rfl, _, _, hload, 12, _, _, rfl, by decide⟩

end Lockout.Strator.Outcomes
