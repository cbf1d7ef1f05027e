import Lockout.Lib.Transition
import Lockout.Instrumentation.Passes
import Lockout.LockTracer.Holding

/-! # Running an instrumented program

Threads execute the blocks of a module that the passes have rewritten. A mutex is
acquired at a call site that has hooks, by `pthread_mutex_trylock`, or by code that the
passes do not see (a call through a pointer, a library, an invoke); only the first kind
tells the tracer. Control flow is left open: after a block any block may follow, a call
may enter any block and may leave any number of activations by unwinding. A hooked
`pthread_mutex_lock` succeeds; one that returns an error is no step here. -/

namespace Lockout.Instrumentation.Execution
open Std
open Lockout.Lib.TextStream Lockout.Lib.Transition
open Lockout.Instrumentation.Locations Lockout.Instrumentation.Passes
open Lockout.LockTracer.Graph Lockout.LockTracer.Threads Lockout.LockTracer.Components
open Lockout.LockTracer.Holding (Depths)
open Lockout.Strator.Program

/-- An activation: the pointers its values stand for, and what is left of the block. -/
structure Frame where
  env : Value → LockAddress
  rest : List Site

structure State where
  frames : Pthread → List Frame := fun _ => []
  /-- How often each thread has acquired each mutex and not released it. -/
  depths : Depths := fun _ _ => 0
  tracerBigLock : Option Pthread := none
  tracer : Tracer
  /-- An assertion has failed. -/
  aborted : Bool := false

inductive Label
  /-- A successful acquisition; `hooked` at a call site with hooks. -/
  | acquire (t : Pthread) (m : LockAddress) (hooked : Bool)
  | release (t : Pthread) (m : LockAddress) (hooked : Bool)
  /-- `afterUnlock`, with the outcome of its assertion. -/
  | afterUnlock (t : Pthread) (m : LockAddress) (ok : Bool)
  /-- Another hook, or a step that concerns no mutex. -/
  | other (t : Pthread)
  deriving DecidableEq

/-- The state after thread `t` has come to `frames`. -/
def State.goto (s : State) (t : Pthread) (frames : List Frame) : State :=
  { s with frames := Function.update s.frames t frames }

/-- A call that does not go to one of the three mutex functions directly, or an invoke,
which is no call instruction for the passes whatever it calls. -/
def CallsOut (site : Site) : Prop :=
  ((∃ callee args, site.code = .original (.call callee args)) ∨
    ∃ operands, site.code = .original (.other operands)) ∧
    ∀ f arg, directCall site.code = some (f, arg) →
      f ≠ "pthread_mutex_lock" ∧ f ≠ "pthread_mutex_trylock" ∧ f ≠ "pthread_mutex_unlock"

/-- One step of a thread. An assertion that fails ends the program. -/
inductive Step (prog : SourceModule) : State → Label → State → Prop
  | beforeLock {s t env site rest fs arg loc} : s.aborted = false →
      s.frames t = ⟨env, site :: rest⟩ :: fs → site.code = .hook .beforeLock arg loc →
      s.tracerBigLock = none →
      Step prog s (.other t) (State.goto { s with
        tracer := (LockTracer.Events.beforeLock s.tracer t (env arg) loc).2 } t (⟨env, rest⟩ :: fs))
  | afterLock {s t env site rest fs arg loc} : s.aborted = false →
      s.frames t = ⟨env, site :: rest⟩ :: fs → site.code = .hook .afterLock arg loc →
      s.tracerBigLock = none →
      Step prog s (.other t) (State.goto { s with
        tracer := LockTracer.Events.afterLock s.tracer t (env arg) loc } t (⟨env, rest⟩ :: fs))
  | beforeUnlock {s t env site rest fs arg loc} : s.aborted = false →
      s.frames t = ⟨env, site :: rest⟩ :: fs → site.code = .hook .beforeUnlock arg loc →
      s.tracerBigLock = none →
      Step prog s (.other t) (State.goto { s with tracerBigLock := some t } t (⟨env, rest⟩ :: fs))
  | afterUnlock {s t env site rest fs arg loc tracer} : s.aborted = false →
      s.frames t = ⟨env, site :: rest⟩ :: fs → site.code = .hook .afterUnlock arg loc →
      LockTracer.Events.afterUnlock s.tracer t (env arg) loc = some tracer →
      Step prog s (.afterUnlock t (env arg) true) (State.goto { s with
        tracer := tracer
        tracerBigLock := none } t (⟨env, rest⟩ :: fs))
  | assertionFails {s t env site rest fs arg loc} : s.aborted = false →
      s.frames t = ⟨env, site :: rest⟩ :: fs → site.code = .hook .afterUnlock arg loc →
      LockTracer.Events.afterUnlock s.tracer t (env arg) loc = none →
      Step prog s (.afterUnlock t (env arg) false) { s with aborted := true }
  | memHook {s t env site rest fs h arg loc} : s.aborted = false →
      s.frames t = ⟨env, site :: rest⟩ :: fs → site.code = .hook h arg loc →
      h = .beforeStore ∨ h = .afterStore → Step prog s (.other t) (s.goto t (⟨env, rest⟩ :: fs))
  | lock {s t env site rest fs arg} : s.aborted = false →
      s.frames t = ⟨env, site :: rest⟩ :: fs →
      directCall site.code = some ("pthread_mutex_lock", arg) →
      (∀ u, u ≠ t → s.depths u (env arg) = 0) →
      Step prog s (.acquire t (env arg) true)
        (State.goto { s with depths := s.depths.acquire t (env arg) } t (⟨env, rest⟩ :: fs))
  | trylock {s t env site rest fs arg} : s.aborted = false →
      s.frames t = ⟨env, site :: rest⟩ :: fs →
      directCall site.code = some ("pthread_mutex_trylock", arg) →
      (∀ u, u ≠ t → s.depths u (env arg) = 0) →
      Step prog s (.acquire t (env arg) false)
        (State.goto { s with depths := s.depths.acquire t (env arg) } t (⟨env, rest⟩ :: fs))
  /-- The thread that unlocks a mutex has it. -/
  | unlock {s t env site rest fs arg} : s.aborted = false →
      s.frames t = ⟨env, site :: rest⟩ :: fs →
      directCall site.code = some ("pthread_mutex_unlock", arg) → 0 < s.depths t (env arg) →
      Step prog s (.release t (env arg) true)
        (State.goto { s with depths := s.depths.release t (env arg) } t (⟨env, rest⟩ :: fs))
  /-- A call acquires a mutex in code without hooks, and has not returned yet. -/
  | acquireOutside {s t env site rest fs m} : s.aborted = false →
      s.frames t = ⟨env, site :: rest⟩ :: fs → CallsOut site → (∀ u, u ≠ t → s.depths u m = 0) →
      Step prog s (.acquire t m false) { s with depths := s.depths.acquire t m }
  | releaseOutside {s t env site rest fs m} : s.aborted = false →
      s.frames t = ⟨env, site :: rest⟩ :: fs → CallsOut site → 0 < s.depths t m →
      Step prog s (.release t m false) { s with depths := s.depths.release t m }
  /-- Any other instruction, a call that returns, or a `trylock` that fails. -/
  | plain {s t env env' site rest fs op} : s.aborted = false →
      s.frames t = ⟨env, site :: rest⟩ :: fs → site.code = .original op →
      lockHooks site.code = none → Step prog s (.other t) (s.goto t (⟨env', rest⟩ :: fs))
  /-- A call enters a function of the module. -/
  | enter {s t env env' site rest fs block} : s.aborted = false →
      s.frames t = ⟨env, site :: rest⟩ :: fs → CallsOut site → block ∈ prog.blocks →
      Step prog s (.other t) (s.goto t (⟨env', block⟩ :: ⟨env, rest⟩ :: fs))
  /-- An exception leaves the activation and `n` others. -/
  | unwind {s t env site rest fs n} : s.aborted = false →
      s.frames t = ⟨env, site :: rest⟩ :: fs → CallsOut site →
      Step prog s (.other t) (s.goto t (fs.drop n))
  | branch {s t env env' fs block} : s.aborted = false → s.frames t = ⟨env, []⟩ :: fs →
      block ∈ prog.blocks → Step prog s (.other t) (s.goto t (⟨env', block⟩ :: fs))
  | ret {s t env fs} : s.aborted = false → s.frames t = ⟨env, []⟩ :: fs →
      Step prog s (.other t) (s.goto t fs)
  | spawn {s t env block} : s.aborted = false → s.frames t = [] → block ∈ prog.blocks →
      Step prog s (.other t) (s.goto t [⟨env, block⟩])

/-- A module as it is linked with the tracer: `LockInstrumenter` and then
`MemInstrumenter` have rewritten it, each with some table of locations. -/
def instrument (io : Iostream) (m : SourceModule) (t t' : LocationTable) : SourceModule :=
  (runOnModule io .memInstrumenter (runOnModule io .lockInstrumenter m t).1 t').1

/-! ## What the passes make of a block -/

/-- A call of one of the hooks that talk to the tracer. -/
def isLockHook : Code → Bool
  | .hook .beforeStore .. | .hook .afterStore .. => false
  | .hook .. => true
  | .original _ => false

/-- Every call that is looked for stands between its two hooks, and no other hook is there. -/
inductive Woven : List Site → Prop
  | nil : Woven []
  | pair {before after arg loc site rest} : lockHooks site.code = some (before, after, arg) →
      Woven rest →
      Woven ({ code := .hook before arg loc } :: site :: { code := .hook after arg loc } :: rest)
  | other {site rest} : lockHooks site.code = none → isLockHook site.code = false → Woven rest →
      Woven (site :: rest)

section Weaving
variable {io : Iostream} {t t' : LocationTable} {m : SourceModule}

theorem woven_rewriteLock {sites : List Site} (h : ∀ site ∈ sites, ∃ op, site.code = .original op) :
    Woven (rewriteBlock io lockHooks sites t).1 := by
  induction sites generalizing t with
  | nil => exact .nil
  | cons site sites ih =>
    have hrest := fun t => @ih t fun site hsite => h site (List.mem_cons_of_mem _ hsite)
    obtain ⟨op, hop⟩ := h site List.mem_cons_self
    simp only [rewriteBlock, rewriteEach, rewriteSite] at hrest ⊢
    cases hhooks : lockHooks site.code with
    | none => exact .other hhooks (by rw [hop]; rfl) (hrest _)
    | some hooks => exact .pair hhooks (hrest _)

/-- A code that gets memory hooks is a store. -/
theorem memHooks_eq_some {code : Code} {before after : Hook} {arg : Value}
    (h : memHooks code = some (before, after, arg)) :
    before = .beforeStore ∧ after = .afterStore ∧ lockHooks code = none ∧ isLockHook code = false := by
  unfold memHooks at h
  split at h
  · obtain ⟨rfl, rfl, rfl⟩ := by simpa using h
    exact ⟨rfl, rfl, rfl, rfl⟩
  · cases h

theorem memHooks_of_lockHooks {code : Code} {hooks : Hook × Hook × Value}
    (h : lockHooks code = some hooks) : memHooks code = none := by
  cases hmem : memHooks code with
  | none => rfl
  | some p =>
    rw [(memHooks_eq_some hmem).2.2.1] at h
    cases h

/-- Memory hooks come between pairs of lock hooks, never into one. -/
theorem woven_rewriteMem {sites : List Site} (h : Woven sites) :
    Woven (rewriteBlock io memHooks sites t).1 := by
  induction h generalizing t with
  | nil => exact .nil
  | @pair before after arg loc site rest hhooks _ ih =>
    have hrest := @ih t
    simp only [rewriteBlock, rewriteEach, rewriteSite] at hrest ⊢
    rw [memHooks_of_lockHooks hhooks]
    exact .pair hhooks hrest
  | @other site rest hnone hnot _ ih =>
    have hrest := fun t => @ih t
    simp only [rewriteBlock, rewriteEach, rewriteSite] at hrest ⊢
    cases hmem : memHooks site.code with
    | none => exact .other hnone hnot (hrest _)
    | some hooks =>
      obtain ⟨before, after, arg⟩ := hooks
      obtain ⟨rfl, rfl, -⟩ := memHooks_eq_some hmem
      exact .other rfl rfl (.other hnone hnot (.other rfl rfl (hrest _)))

/-- Memory hooks are no lock hooks. -/
theorem bare_rewriteMem {sites : List Site} (h : ∀ site ∈ sites, isLockHook site.code = false) :
    ∀ site ∈ (rewriteBlock io memHooks sites t).1, isLockHook site.code = false := by
  induction sites generalizing t with
  | nil => exact h
  | cons site sites ih =>
    have hrest := fun t => @ih t fun site hsite => h site (List.mem_cons_of_mem _ hsite)
    have hsite := h site List.mem_cons_self
    simp only [rewriteBlock, rewriteEach, rewriteSite] at hrest ⊢
    cases hmem : memHooks site.code with
    | none => exact List.forall_mem_cons.mpr ⟨hsite, hrest _⟩
    | some hooks =>
      obtain ⟨before, after, arg⟩ := hooks
      obtain ⟨rfl, rfl, -⟩ := memHooks_eq_some hmem
      refine List.forall_mem_cons.mpr ⟨rfl, List.forall_mem_cons.mpr ⟨hsite, ?_⟩⟩
      exact List.forall_mem_cons.mpr ⟨rfl, hrest _⟩

theorem mem_rewriteEach {α β : Type} {rewrite : α → LocationTable → β × LocationTable}
    {as : List α} {b : β} (h : b ∈ (rewriteEach rewrite as t).1) :
    ∃ a ∈ as, ∃ t, b = (rewrite a t).1 := by
  induction as generalizing t with
  | nil => cases h
  | cons a as ih =>
    rcases List.mem_cons.mp h with rfl | h
    · exact ⟨a, List.mem_cons_self, t, rfl⟩
    · obtain ⟨a', ha', t', rfl⟩ := ih h
      exact ⟨a', List.mem_cons_of_mem _ ha', t', rfl⟩

/-- A block of a rewritten module is a rewritten block. -/
theorem mem_blocks_runOnModule {pass : Pass} {block : List Site} (happlies : pass.appliesTo m = true)
    (h : block ∈ (runOnModule io pass m t).1.blocks) :
    ∃ sites ∈ m.blocks, ∃ t, block = (rewriteBlock io pass.hooks sites t).1 := by
  rw [runOnModule, if_pos happlies] at h
  obtain ⟨f', hf', hblock⟩ := List.mem_flatMap.mp h
  obtain ⟨f, hf, t₁, rfl⟩ := mem_rewriteEach hf'
  obtain ⟨sites, hsites, t₂, rfl⟩ := mem_rewriteEach hblock
  exact ⟨sites, List.mem_flatMap.mpr ⟨f, hf, hsites⟩, t₂, rfl⟩

theorem mem_sites {block : List Site} (h : block ∈ m.blocks) : ∀ site ∈ block, site ∈ m.sites := by
  intro site hsite
  obtain ⟨f, hf, hblock⟩ := List.mem_flatMap.mp h
  exact List.mem_flatMap.mpr ⟨f, hf, List.mem_flatMap.mpr ⟨block, hblock, hsite⟩⟩

theorem woven_instrument (hm : m.Pristine) (htype : m.hasMutexType = true) :
    ∀ block ∈ (instrument io m t t').blocks, Woven block := by
  intro block hblock
  obtain ⟨sites, hsites, t₁, rfl⟩ := mem_blocks_runOnModule rfl hblock
  have happlies : Pass.lockInstrumenter.appliesTo m = true := htype
  obtain ⟨original, horiginal, t₂, rfl⟩ := mem_blocks_runOnModule happlies hsites
  exact woven_rewriteMem (woven_rewriteLock fun site hsite => hm site (mem_sites horiginal site hsite))

theorem bare_instrument (hm : m.Pristine) (htype : m.hasMutexType = false) :
    ∀ block ∈ (instrument io m t t').blocks, ∀ site ∈ block, isLockHook site.code = false := by
  intro block hblock
  obtain ⟨sites, hsites, t₁, rfl⟩ := mem_blocks_runOnModule rfl hblock
  have hskip : (runOnModule io .lockInstrumenter m t).1 = m := by
    rw [runOnModule, if_neg]
    rw [Pass.appliesTo, htype]
    exact Bool.false_ne_true
  rw [hskip] at hsites
  refine bare_rewriteMem fun site hsite => ?_
  obtain ⟨op, hop⟩ := hm site (mem_sites hsites site hsite)
  rw [hop]
  rfl

end Weaving

/-! ## Where a thread stands between hooks -/

theorem lockHooks_eq_some {code : Code} {before after : Hook} {arg : Value}
    (h : lockHooks code = some (before, after, arg)) :
    (directCall code = some ("pthread_mutex_lock", arg) ∧ before = .beforeLock ∧ after = .afterLock) ∨
      (directCall code = some ("pthread_mutex_unlock", arg) ∧ before = .beforeUnlock ∧
        after = .afterUnlock) := by
  obtain ⟨⟨f, a⟩, hcall, h⟩ := Option.bind_eq_some_iff.mp h
  dsimp only at h
  split at h
  · rename_i hf
    obtain ⟨rfl, rfl, rfl⟩ := by simpa using h
    exact .inl ⟨by rw [hcall, hf], rfl, rfl⟩
  · split at h
    · rename_i hf
      obtain ⟨rfl, rfl, rfl⟩ := by simpa using h
      exact .inr ⟨by rw [hcall, hf], rfl, rfl⟩
    · cases h

/-- What may be left of a block: it starts between two pairs, at the call of a pair, or at
the hook after it. -/
inductive Place : List Site → Prop
  | between {rest} : Woven rest → Place rest
  | call {before after arg loc site rest} : lockHooks site.code = some (before, after, arg) →
      Woven rest → Place (site :: { code := .hook after arg loc } :: rest)
  | after {h arg loc rest} : h = .afterLock ∨ h = .afterUnlock → Woven rest →
      Place ({ code := .hook h arg loc } :: rest)

/-- The operation that a thread has performed and the tracer has not recorded. -/
def pendingAt (env : Value → LockAddress) (m : LockAddress) : Code → Int
  | .hook .afterLock arg _ => if env arg = m then 1 else 0
  | .hook .afterUnlock arg _ => if env arg = m then -1 else 0
  | _ => 0

def pending (frames : List Frame) (m : LockAddress) : Int :=
  match frames with
  | ⟨env, site :: _⟩ :: _ => pendingAt env m site.code
  | _ => 0

/-- Only the innermost activation can stand inside a pair. -/
def Placed : List Frame → Prop
  | [] => True
  | f :: fs => Place f.rest ∧ ∀ g ∈ fs, Woven g.rest

section Places
variable {env : Value → LockAddress} {m : LockAddress} {site : Site} {rest : List Site}
  {fs : List Frame} {h before after : Hook} {arg : Value} {loc : Location}

theorem pending_woven (hrest : Woven rest) : pending (⟨env, rest⟩ :: fs) m = 0 := by
  cases hrest with
  | nil => rfl
  | pair hhooks _ =>
    rcases lockHooks_eq_some hhooks with ⟨-, rfl, -⟩ | ⟨-, rfl, -⟩ <;> rfl
  | other _ hnot _ =>
    unfold pending pendingAt
    dsimp only
    split
    · rename_i hcode
      rw [hcode] at hnot
      cases hnot
    · rename_i hcode
      rw [hcode] at hnot
      cases hnot
    · rfl

/-- After the hook before a call comes the call. -/
theorem Place.before_hook (hplace : Place (site :: rest)) (hcode : site.code = .hook h arg loc)
    (hh : h = .beforeLock ∨ h = .beforeUnlock) :
    ∃ call after loc' rest', rest = call :: { code := .hook after arg loc' } :: rest' ∧
      lockHooks call.code = some (h, after, arg) ∧ Woven rest' := by
  cases hplace with
  | between hwoven =>
    cases hwoven with
    | pair hhooks hrest =>
      obtain ⟨rfl, rfl, rfl⟩ := Code.hook.inj hcode
      exact ⟨_, _, _, _, rfl, hhooks, hrest⟩
    | other _ hnot _ =>
      rw [hcode] at hnot
      rcases hh with rfl | rfl <;> cases hnot
  | call hhooks _ =>
    rw [hcode] at hhooks
    cases hhooks
  | after hafter _ =>
    obtain ⟨rfl, -, -⟩ := Code.hook.inj hcode
    rcases hh with rfl | rfl <;> simp at hafter

/-- After the hook after a call the pair is over. -/
theorem Place.after_hook (hplace : Place (site :: rest)) (hcode : site.code = .hook h arg loc)
    (hh : h = .afterLock ∨ h = .afterUnlock) : Woven rest := by
  cases hplace with
  | between hwoven =>
    cases hwoven with
    | pair hhooks _ =>
      obtain ⟨rfl, -, -⟩ := Code.hook.inj hcode
      rcases lockHooks_eq_some hhooks with ⟨-, rfl, -⟩ | ⟨-, rfl, -⟩ <;> simp at hh
    | other _ hnot _ =>
      rw [hcode] at hnot
      rcases hh with rfl | rfl <;> cases hnot
  | call hhooks _ =>
    rw [hcode] at hhooks
    cases hhooks
  | after _ hrest => exact hrest

/-- After a call that has hooks comes its second hook. -/
theorem Place.after_call (hplace : Place (site :: rest))
    (hhooks : lockHooks site.code = some (before, after, arg)) :
    ∃ loc rest', rest = { code := .hook after arg loc } :: rest' ∧ Woven rest' := by
  cases hplace with
  | between hwoven =>
    cases hwoven with
    | pair => cases hhooks
    | other hnone _ _ =>
      rw [hnone] at hhooks
      cases hhooks
  | call hhooks' hrest =>
    obtain ⟨rfl, rfl, rfl⟩ := by simpa using hhooks'.symm.trans hhooks
    exact ⟨_, _, rfl, hrest⟩
  | after => cases hhooks

/-- After any other code a thread is between pairs. -/
theorem Place.after_other (hplace : Place (site :: rest)) (hnone : lockHooks site.code = none)
    (hnot : isLockHook site.code = false) : Woven rest := by
  cases hplace with
  | between hwoven =>
    cases hwoven with
    | pair hhooks _ =>
      rcases lockHooks_eq_some hhooks with ⟨-, rfl, -⟩ | ⟨-, rfl, -⟩ <;> cases hnot
    | other _ _ hrest => exact hrest
  | call hhooks _ =>
    rw [hnone] at hhooks
    cases hhooks
  | after hafter _ => rcases hafter with rfl | rfl <;> cases hnot

end Places

/-! ## Counting along a run -/

/-- What a step adds to how often `t` has `m` through calls with hooks, or without. -/
def Label.gain (hooked : Bool) (t : Pthread) (m : LockAddress) : Label → Int
  | .acquire u k h => if h = hooked ∧ u = t ∧ k = m then 1 else 0
  | .release u k h => if h = hooked ∧ u = t ∧ k = m then -1 else 0
  | _ => 0

/-- The acquisitions of `m` by `t` at calls with hooks, or without, less its releases. -/
def gained (hooked : Bool) (ls : List Label) (t : Pthread) (m : LockAddress) : Int :=
  (ls.map (Label.gain hooked t m)).sum

/-- How often `t` has `m` after the operations of `ls`. -/
def stillHeld (ls : List Label) (t : Pthread) (m : LockAddress) : Int :=
  gained true ls t m + gained false ls t m

/-- All threads stand at a place, and the records have counted what is not pending. -/
structure Counts (s : State) (b : Pthread → LockAddress → Int) : Prop where
  placed : ∀ t, Placed (s.frames t)
  held : ∀ t m, s.tracer.held t m = b t m - pending (s.frames t) m

section Steps
variable {prog : SourceModule} {s s₁ s' : State} {b b' : Pthread → LockAddress → Int}
  {t : Pthread} {env : Value → LockAddress} {rest : List Site} {fs frames : List Frame} {l : Label}

@[simp] theorem frames_goto {u : Pthread} :
    (s.goto t frames).frames u = if u = t then frames else s.frames u := Function.update_apply ..

@[simp] theorem tracer_goto : (s.goto t frames).tracer = s.tracer := rfl

/-- A step of `t` alone: its place and its own counts are what has to be looked at. -/
theorem Counts.goto (h : Counts s b) (hframes : s₁.frames = s.frames) (hplaced : Placed frames)
    (hself : ∀ m, s₁.tracer.held t m = b' t m - pending frames m)
    (hother : ∀ u m, u ≠ t → s₁.tracer.held u m = s.tracer.held u m ∧ b' u m = b u m) :
    Counts (s₁.goto t frames) b' where
  placed u := by
    rw [frames_goto, hframes]
    split
    · exact hplaced
    · exact h.placed u
  held u m := by
    rw [frames_goto, tracer_goto, hframes]
    split
    · rename_i hu
      rw [hu]
      exact hself m
    · rename_i hu
      rw [(hother u m hu).1, (hother u m hu).2, h.held]

/-- A step that performs no hooked operation and is not recorded. -/
theorem Counts.goto_same (h : Counts s b) (hframes : s₁.frames = s.frames)
    (htracer : ∀ u m, s₁.tracer.held u m = s.tracer.held u m) (hplaced : Placed frames)
    (hpending : ∀ m, pending frames m = pending (s.frames t) m) : Counts (s₁.goto t frames) b :=
  h.goto hframes hplaced (fun m => by rw [htracer, h.held, hpending]) fun u m _ => ⟨htracer u m, rfl⟩

theorem Counts.place {site : Site} (h : Counts s b) (hframes : s.frames t = ⟨env, site :: rest⟩ :: fs) :
    Place (site :: rest) ∧ ∀ g ∈ fs, Woven g.rest := by
  have hplaced := h.placed t
  rw [hframes] at hplaced
  exact hplaced

theorem placed_woven (hrest : Woven rest) (hfs : ∀ g ∈ fs, Woven g.rest) :
    Placed (⟨env, rest⟩ :: fs) := ⟨.between hrest, hfs⟩

theorem pending_original {site : Site} {op : Opcode} {m : LockAddress}
    (hcode : site.code = .original op) : pending (⟨env, site :: rest⟩ :: fs) m = 0 := by
  simp [pending, pendingAt, hcode]

theorem original_of_directCall {code : Code} {p : String × Value} (h : directCall code = some p) :
    ∃ op, code = .original op := by
  unfold directCall at h
  split at h
  · exact ⟨_, rfl⟩
  · cases h

theorem lockHooks_of_lock {code : Code} {arg : Value}
    (h : directCall code = some ("pthread_mutex_lock", arg)) :
    lockHooks code = some (.beforeLock, .afterLock, arg) := by
  simp [lockHooks, h]

theorem lockHooks_of_unlock {code : Code} {arg : Value}
    (h : directCall code = some ("pthread_mutex_unlock", arg)) :
    lockHooks code = some (.beforeUnlock, .afterUnlock, arg) := by
  simp [lockHooks, h]

theorem lockHooks_of_trylock {code : Code} {arg : Value}
    (h : directCall code = some ("pthread_mutex_trylock", arg)) : lockHooks code = none := by
  simp [lockHooks, h]

theorem original_of_callsOut {site : Site} (h : CallsOut site) : ∃ op, site.code = .original op := by
  rcases h.1 with ⟨_, _, hcode⟩ | ⟨_, hcode⟩ <;> exact ⟨_, hcode⟩

theorem lockHooks_of_callsOut {site : Site} (h : CallsOut site) : lockHooks site.code = none := by
  cases hcall : directCall site.code with
  | none => simp [lockHooks, hcall]
  | some p =>
    obtain ⟨f, arg⟩ := p
    obtain ⟨hlock, -, hunlock⟩ := h.2 f arg hcall
    simp [lockHooks, hcall, hlock, hunlock]

/-- A call with hooks: the operation is pending until the second hook. -/
theorem Counts.hooked {site : Site} {before after : Hook} {arg : Value} (h : Counts s b)
    (hframes : s.frames t = ⟨env, site :: rest⟩ :: fs)
    (hhooks : lockHooks site.code = some (before, after, arg)) (hs₁ : s₁.frames = s.frames)
    (htracer : s₁.tracer = s.tracer)
    (hb : ∀ loc u m, b' u m = b u m + if u = t then pendingAt env m (.hook after arg loc) else 0) :
    Counts (s₁.goto t (⟨env, rest⟩ :: fs)) b' := by
  obtain ⟨hplace, hfs⟩ := h.place hframes
  obtain ⟨loc, rest', rfl, hrest⟩ := hplace.after_call hhooks
  have hafter : after = .afterLock ∨ after = .afterUnlock := by
    rcases lockHooks_eq_some hhooks with ⟨-, -, h⟩ | ⟨-, -, h⟩
    · exact .inl h
    · exact .inr h
  have horiginal : ∃ op, site.code = .original op := by
    rcases lockHooks_eq_some hhooks with ⟨h, -⟩ | ⟨h, -⟩ <;> exact original_of_directCall h
  obtain ⟨op, hop⟩ := horiginal
  refine h.goto hs₁ ⟨.after hafter hrest, hfs⟩ (fun m => ?_) fun u m hu => ?_
  · rw [htracer, h.held, hframes, pending_original hop, hb loc, if_pos rfl]
    simp [pending]
  · rw [htracer, hb default, if_neg hu]
    exact ⟨rfl, Int.add_zero _⟩

/-- An instruction without hooks leaves a thread between pairs, with nothing pending. -/
theorem Counts.unhooked {site : Site} {op : Opcode} (h : Counts s b)
    (hframes : s.frames t = ⟨env, site :: rest⟩ :: fs) (hcode : site.code = .original op)
    (hhooks : lockHooks site.code = none) :
    Woven rest ∧ (∀ g ∈ fs, Woven g.rest) ∧ ∀ m, pending (s.frames t) m = 0 := by
  obtain ⟨hplace, hfs⟩ := h.place hframes
  refine ⟨hplace.after_other hhooks (by rw [hcode]; rfl), hfs, fun m => ?_⟩
  rw [hframes]
  exact pending_original hcode

theorem placed_of_woven (hfs : ∀ g ∈ fs, Woven g.rest) : Placed fs ∧ ∀ m, pending fs m = 0 := by
  cases fs with
  | nil => exact ⟨trivial, fun m => rfl⟩
  | cons f fs =>
    have hf := hfs f List.mem_cons_self
    exact ⟨⟨.between hf, fun g hg => hfs g (List.mem_cons_of_mem _ hg)⟩, fun m => pending_woven hf⟩

/-- A hook before a call records nothing. -/
theorem Counts.before {site : Site} {h' : Hook} {arg : Value} {loc : Location} (h : Counts s b)
    (hframes : s.frames t = ⟨env, site :: rest⟩ :: fs) (hcode : site.code = .hook h' arg loc)
    (hh : h' = .beforeLock ∨ h' = .beforeUnlock) (hs₁ : s₁.frames = s.frames)
    (htracer : ∀ u m, s₁.tracer.held u m = s.tracer.held u m) :
    Counts (s₁.goto t (⟨env, rest⟩ :: fs)) b := by
  obtain ⟨hplace, hfs⟩ := h.place hframes
  obtain ⟨call, after, loc', rest', rfl, hhooks, hrest⟩ := hplace.before_hook hcode hh
  have horiginal : ∃ op, call.code = .original op := by
    rcases lockHooks_eq_some hhooks with ⟨h, -⟩ | ⟨h, -⟩ <;> exact original_of_directCall h
  obtain ⟨op, hop⟩ := horiginal
  refine h.goto_same hs₁ htracer ⟨.call hhooks hrest, hfs⟩ fun m => ?_
  rw [pending_original hop, hframes]
  rcases hh with rfl | rfl <;> simp [pending, pendingAt, hcode]

/-- A hook after a call records what was pending. -/
theorem Counts.after {site : Site} {h' : Hook} {arg : Value} {loc : Location} (h : Counts s b)
    (hframes : s.frames t = ⟨env, site :: rest⟩ :: fs) (hcode : site.code = .hook h' arg loc)
    (hh : h' = .afterLock ∨ h' = .afterUnlock) (hs₁ : s₁.frames = s.frames)
    (htracer : ∀ u m, s₁.tracer.held u m =
      s.tracer.held u m + if u = t then pendingAt env m site.code else 0) :
    Counts (s₁.goto t (⟨env, rest⟩ :: fs)) b := by
  obtain ⟨hplace, hfs⟩ := h.place hframes
  have hrest := hplace.after_hook hcode hh
  refine h.goto hs₁ (placed_woven hrest hfs) (fun m => ?_) fun u m hu => ?_
  · rw [htracer, h.held, hframes, if_pos rfl, pending_woven hrest]
    simp only [pending]
    omega
  · rw [htracer, if_neg hu]
    exact ⟨Int.add_zero _, rfl⟩

/-- An instruction without hooks is passed. -/
theorem Counts.passed {site : Site} {op : Opcode} (h : Counts s b)
    (hframes : s.frames t = ⟨env, site :: rest⟩ :: fs) (hcode : site.code = .original op)
    (hhooks : lockHooks site.code = none) (hs₁ : s₁.frames = s.frames)
    (htracer : s₁.tracer = s.tracer) : Counts (s₁.goto t (⟨env', rest⟩ :: fs)) b := by
  obtain ⟨hrest, hfs, hpending⟩ := h.unhooked hframes hcode hhooks
  refine h.goto_same hs₁ (fun u m => by rw [htracer]) (placed_woven hrest hfs) fun m => ?_
  rw [pending_woven hrest, hpending]

/-- A hook of a store is passed. -/
theorem Counts.memHook {site : Site} {h' : Hook} {arg : Value} {loc : Location} (h : Counts s b)
    (hframes : s.frames t = ⟨env, site :: rest⟩ :: fs) (hcode : site.code = .hook h' arg loc)
    (hh : h' = .beforeStore ∨ h' = .afterStore) : Counts (s.goto t (⟨env, rest⟩ :: fs)) b := by
  obtain ⟨hplace, hfs⟩ := h.place hframes
  have hnotLock : isLockHook site.code = false := by
    rw [hcode]
    rcases hh with rfl | rfl <;> rfl
  have hrest := hplace.after_other (by rw [hcode]; rfl) hnotLock
  refine h.goto_same rfl (fun _ _ => rfl) (placed_woven hrest hfs) fun m => ?_
  rw [pending_woven hrest, hframes]
  rcases hh with rfl | rfl <;> simp [pending, pendingAt, hcode]

/-- A thread goes on at the start of a block, on top of the activations `fs`. -/
theorem Counts.startBlock {block : List Site} (h : Counts s b) (hblock : Woven block)
    (hfs : ∀ g ∈ fs, Woven g.rest) (hpending : ∀ m, pending (s.frames t) m = 0) :
    Counts (s.goto t (⟨env', block⟩ :: fs)) b := by
  refine h.goto_same rfl (fun _ _ => rfl) (placed_woven hblock hfs) fun m => ?_
  rw [pending_woven hblock, hpending]

/-- The activations below one that has come to the end of a block. -/
theorem Counts.below (h : Counts s b) (hframes : s.frames t = ⟨env, []⟩ :: fs) :
    (∀ g ∈ fs, Woven g.rest) ∧ ∀ m, pending (s.frames t) m = 0 := by
  have hplaced := h.placed t
  rw [hframes] at hplaced ⊢
  exact ⟨hplaced.2, fun m => rfl⟩

/-- A step with no hooked operation leaves the counts as they are. -/
theorem Counts.silent {s' : State} {l : Label} (h : Counts s' b)
    (hl : ∀ t m, l.gain true t m = 0) : Counts s' fun t m => b t m + l.gain true t m := by
  simp only [hl, Int.add_zero]
  exact h

theorem Counts.aborted_or_goes_on (h : Counts s b) (hblocks : ∀ block ∈ prog.blocks, Woven block)
    (hstep : Step prog s l s') : s'.aborted = true ∨ Counts s' fun t m => b t m + l.gain true t m := by
  cases hstep with
  | beforeLock _ hframes hcode =>
    refine .inr (Counts.silent (h.before hframes hcode (.inl rfl) rfl fun u m => ?_) fun _ _ => rfl)
    exact LockTracer.Events.held_beforeLock
  | @afterLock t env site rest fs arg loc _ hframes hcode _ =>
    refine .inr (Counts.silent (h.after hframes hcode (.inl rfl) rfl fun u m => ?_) fun _ _ => rfl)
    rw [LockTracer.Events.held_afterLock, hcode]
    by_cases hu : u = t <;> simp [pendingAt, hu, @eq_comm _ m]
  | beforeUnlock _ hframes hcode =>
    exact .inr (Counts.silent (h.before hframes hcode (.inr rfl) rfl fun _ _ => rfl) fun _ _ => rfl)
  | @afterUnlock t env site rest fs arg loc tracer _ hframes hcode htracer =>
    refine .inr (Counts.silent (h.after hframes hcode (.inr rfl) rfl fun u m => ?_) fun _ _ => rfl)
    rw [LockTracer.Events.held_afterUnlock htracer, hcode]
    by_cases hu : u = t
    · by_cases hm : env arg = m <;> simp [pendingAt, hu, hm, @eq_comm _ m, Int.sub_eq_add_neg]
    · simp [hu]
  | assertionFails => exact .inl rfl
  | memHook _ hframes hcode hh => exact .inr ((h.memHook hframes hcode hh).silent fun _ _ => rfl)
  | @lock t env site rest fs arg _ hframes hcall _ =>
    refine .inr (h.hooked hframes (lockHooks_of_lock hcall) rfl rfl fun loc u m => ?_)
    simp only [Label.gain, pendingAt, @eq_comm _ t u]
    by_cases hu : u = t <;> simp [hu]
  | trylock _ hframes hcall =>
    obtain ⟨op, hop⟩ := original_of_directCall hcall
    refine .inr (Counts.silent ?_ fun _ _ => by simp [Label.gain])
    exact h.passed hframes hop (lockHooks_of_trylock hcall) rfl rfl
  | @unlock t env site rest fs arg _ hframes hcall _ =>
    refine .inr (h.hooked hframes (lockHooks_of_unlock hcall) rfl rfl fun loc u m => ?_)
    simp only [Label.gain, pendingAt, @eq_comm _ t u]
    by_cases hu : u = t <;> simp [hu]
  | acquireOutside | releaseOutside =>
    refine .inr (Counts.silent ?_ fun _ _ => by simp [Label.gain])
    exact ⟨h.placed, h.held⟩
  | plain _ hframes hcode hhooks =>
    exact .inr ((h.passed hframes hcode hhooks rfl rfl).silent fun _ _ => rfl)
  | @enter t env env' site rest fs block _ hframes hcall hblock =>
    obtain ⟨op, hcode⟩ := original_of_callsOut hcall
    obtain ⟨hrest, hfs, hpending⟩ := h.unhooked hframes hcode (lockHooks_of_callsOut hcall)
    have hall : ∀ g ∈ (⟨env, rest⟩ : Frame) :: fs, Woven g.rest :=
      List.forall_mem_cons.mpr ⟨hrest, hfs⟩
    exact .inr ((h.startBlock (hblocks block hblock) hall hpending).silent fun _ _ => rfl)
  | @unwind t env site rest fs n _ hframes hcall =>
    obtain ⟨op, hcode⟩ := original_of_callsOut hcall
    obtain ⟨-, hwoven, hpending⟩ := h.unhooked hframes hcode (lockHooks_of_callsOut hcall)
    obtain ⟨hfs, hpending'⟩ := placed_of_woven fun g hg => hwoven g (List.mem_of_mem_drop hg)
    have hcounts := h.goto_same rfl (fun _ _ => rfl) hfs fun m => by rw [hpending', hpending]
    exact .inr (hcounts.silent fun _ _ => rfl)
  | @branch t env env' fs block _ hframes hblock =>
    obtain ⟨hfs, hpending⟩ := h.below hframes
    exact .inr ((h.startBlock (hblocks block hblock) hfs hpending).silent fun _ _ => rfl)
  | @ret t env fs _ hframes =>
    obtain ⟨hwoven, hpending⟩ := h.below hframes
    obtain ⟨hfs, hpending'⟩ := placed_of_woven hwoven
    have hcounts := h.goto_same rfl (fun _ _ => rfl) hfs fun m => by rw [hpending', hpending]
    exact .inr (hcounts.silent fun _ _ => rfl)
  | @spawn t env block _ hframes hblock =>
    have hpending : ∀ m, pending (s.frames t) m = 0 := fun m => by rw [hframes]; rfl
    have hnone : ∀ g ∈ ([] : List Frame), Woven g.rest := fun _ => nofun
    exact .inr ((h.startBlock (hblocks block hblock) hnone hpending).silent fun _ _ => rfl)

/-- The assertion of `afterUnlock` passes exactly if the hooked locks of the mutex are at
least as many as its hooked unlocks. -/
theorem Counts.assertion_iff {m : LockAddress} {ok : Bool} (h : Counts s b)
    (hstep : Step prog s (.afterUnlock t m ok) s') : ok = true ↔ 0 ≤ b t m := by
  have hcount : ∀ {env : Value → LockAddress} {site : Site} {rest fs} {arg : Value} {loc : Location},
      s.frames t = ⟨env, site :: rest⟩ :: fs → site.code = .hook .afterUnlock arg loc →
      s.tracer.held t (env arg) = b t (env arg) + 1 := by
    intro env site rest fs arg loc hframes hcode
    rw [h.held, hframes]
    simp [pending, pendingAt, hcode]
  cases hstep with
  | @afterUnlock _ env site rest fs arg loc tracer _ hframes hcode htracer =>
    have hpos := LockTracer.Events.afterUnlock_isSome.mp ⟨_, htracer⟩
    rw [hcount hframes hcode] at hpos
    simp only [true_iff]
    omega
  | @assertionFails _ env site rest fs arg loc _ hframes hcode htracer =>
    have hnot : ¬ 0 < s.tracer.held t (env arg) := by
      intro hpos
      obtain ⟨tracer, hsome⟩ := LockTracer.Events.afterUnlock_isSome.mpr hpos
      rw [htracer] at hsome
      cases hsome
    rw [hcount hframes hcode] at hnot
    simp only [Bool.false_eq_true, false_iff]
    omega

end Steps

/-! ## Runs -/

/-- The program before its first step. -/
def start (tracer : Tracer) : State := { tracer := tracer }

/-- The outcome of every `afterUnlock` of a run is that its assertion passes. -/
def AssertionsHold (ls : List Label) : Prop := ∀ t m ok, .afterUnlock t m ok ∈ ls → ok = true

section Runs
variable {prog : SourceModule} {s s' : State} {b : Pthread → LockAddress → Int} {ls : List Label}
  {l : Label} {t : Pthread} {m : LockAddress}

theorem gained_cons {hooked : Bool} :
    gained hooked (l :: ls) t m = l.gain hooked t m + gained hooked ls t m := by
  simp [gained]

theorem not_aborted_of_step (h : Step prog s l s') : s.aborted = false := by
  cases h <;> assumption

/-- A program that has aborted does nothing more. -/
theorem run_of_aborted (h : Run (Step prog) s ls s') (haborted : s.aborted = true) : ls = [] := by
  cases h with
  | nil => rfl
  | cons hstep _ =>
    rw [not_aborted_of_step hstep] at haborted
    cases haborted

theorem assertionsHold_cons : AssertionsHold (l :: ls) ↔
    (∀ t m ok, l = .afterUnlock t m ok → ok = true) ∧ AssertionsHold ls := by
  constructor
  · intro hall
    exact ⟨fun t m ok hl => hall t m ok (by rw [hl]; exact List.mem_cons_self),
      fun t m ok hmem => hall t m ok (List.mem_cons_of_mem _ hmem)⟩
  · intro ⟨hfirst, hrest⟩ t m ok hmem
    rcases List.mem_cons.mp hmem with hl | hmem
    · exact hfirst t m ok hl.symm
    · exact hrest t m ok hmem

/-- What holds before each `afterUnlock` of a run, for the first label and the others. -/
theorem before_cons {P : List Label → Pthread → LockAddress → Prop} :
    (∀ ls₁ t m ok ls₂, l :: ls = ls₁ ++ .afterUnlock t m ok :: ls₂ → P ls₁ t m) ↔
      (∀ t m ok, l = .afterUnlock t m ok → P [] t m) ∧
      ∀ ls₁ t m ok ls₂, ls = ls₁ ++ .afterUnlock t m ok :: ls₂ → P (l :: ls₁) t m := by
  constructor
  · intro hall
    exact ⟨fun t m ok hl => hall [] t m ok ls (by rw [hl]; rfl),
      fun ls₁ t m ok ls₂ hls => hall (l :: ls₁) t m ok ls₂ (by rw [hls]; rfl)⟩
  · intro ⟨hfirst, hrest⟩ ls₁ t m ok ls₂ heq
    cases ls₁ with
    | nil => exact hfirst t m ok (List.cons.inj heq).1
    | cons l' ls₁ =>
      obtain ⟨rfl, hls⟩ := List.cons.inj heq
      exact hrest ls₁ t m ok ls₂ hls

/-- The outcomes of a run from a state with counts `b`. -/
theorem Counts.run (hblocks : ∀ block ∈ prog.blocks, Woven block) (h : Counts s b)
    (hrun : Run (Step prog) s ls s') : AssertionsHold ls ↔
      ∀ ls₁ t m ok ls₂, ls = ls₁ ++ .afterUnlock t m ok :: ls₂ → 0 ≤ b t m + gained true ls₁ t m := by
  have hnil : ∀ P : List Label → Pthread → LockAddress → Prop, AssertionsHold [] ↔
      ∀ ls₁ t m ok ls₂, [] = ls₁ ++ .afterUnlock t m ok :: ls₂ → P ls₁ t m := fun P =>
    iff_of_true (fun t m ok hmem => by cases hmem) fun ls₁ t m ok ls₂ heq =>
      absurd heq.symm (by simp)
  induction hrun generalizing b with
  | nil => exact hnil _
  | @cons s mid s' l ls hstep hrest ih =>
    rw [assertionsHold_cons, @before_cons _ _ fun ls₁ t m => 0 ≤ b t m + gained true ls₁ t m]
    refine and_congr ?_ ?_
    · refine forall_congr' fun t => forall_congr' fun m => forall_congr' fun ok => ?_
      refine forall_congr' fun hl => ?_
      subst hl
      rw [h.assertion_iff hstep]
      simp [gained]
    · rcases h.aborted_or_goes_on hblocks hstep with haborted | hmid
      · obtain rfl := run_of_aborted hrest haborted
        exact hnil fun ls₁ t m => 0 ≤ b t m + gained true (l :: ls₁) t m
      · refine (ih hmid).trans ?_
        simp only [gained_cons, Int.add_assoc]

theorem counts_start {ord : NodeOrder} {g : LockGraph} {tracer : Tracer}
    (h : LockTracer.Components.start ord g = some tracer) : Counts (start tracer) fun _ _ => 0 where
  placed _ := trivial
  held t m := (LockTracer.Holding.Tracks.start h).counts t m

/-- The history of the operations tells how often each thread has each mutex. -/
theorem depths_run (hrun : Run (Step prog) s ls s') :
    (s'.depths t m : Int) = s.depths t m + stillHeld ls t m := by
  induction hrun with
  | nil => simp [stillHeld, gained]
  | @cons s mid s' l ls hstep _ ih =>
    have hone : (mid.depths t m : Int) =
        s.depths t m + (l.gain true t m + l.gain false t m) := by
      cases hstep with
      | lock | trylock | acquireOutside =>
        simp only [State.goto, LockTracer.Holding.acquire_apply, Label.gain, @eq_comm _ t, @eq_comm _ m]
        split <;> simp_all
      | @unlock u _ _ _ _ _ _ _ _ hpos | @releaseOutside u _ _ _ _ _ _ _ _ hpos =>
        simp only [State.goto, LockTracer.Holding.release_apply, Label.gain, @eq_comm _ t, @eq_comm _ m]
        split
        · rename_i heq
          obtain ⟨rfl, rfl⟩ := heq
          simp
          omega
        · simp_all
      | _ => simp [State.goto, Label.gain]
    rw [ih, hone]
    simp only [stillHeld, gained_cons]
    omega

/-- In a module without lock hooks there is nothing to record. -/
def Bare (s : State) : Prop := ∀ t, ∀ f ∈ s.frames t, ∀ site ∈ f.rest, isLockHook site.code = false

theorem Bare.goto {frames : List Frame} (h : Bare s)
    (hframes : ∀ f ∈ frames, ∀ site ∈ f.rest, isLockHook site.code = false) :
    Bare (s.goto t frames) := by
  intro u f hf
  rw [frames_goto] at hf
  split at hf
  · exact hframes f hf
  · exact h u f hf

theorem Bare.step (hblocks : ∀ block ∈ prog.blocks, ∀ site ∈ block, isLockHook site.code = false)
    (h : Bare s) (hstep : Step prog s l s') : Bare s' ∧ ∀ t m ok, l ≠ .afterUnlock t m ok := by
  -- the activation that goes on is the old one, or a part of it
  have hrest : ∀ {t env env'} {site : Site} {rest : List Site} {fs},
      s.frames t = ⟨env, site :: rest⟩ :: fs →
      ∀ f ∈ (⟨env', rest⟩ : Frame) :: fs, ∀ site ∈ f.rest, isLockHook site.code = false := by
    intro t env env' site rest fs hframes
    have hall := h t
    rw [hframes] at hall
    obtain ⟨hfirst, hfs⟩ := List.forall_mem_cons.mp hall
    exact List.forall_mem_cons.mpr ⟨fun x hx => hfirst x (List.mem_cons_of_mem _ hx), hfs⟩
  have hsite : ∀ {t env} {site : Site} {rest : List Site} {fs},
      s.frames t = ⟨env, site :: rest⟩ :: fs → isLockHook site.code = false := by
    intro t env site rest fs hframes
    exact h t _ (by rw [hframes]; exact List.mem_cons_self) site List.mem_cons_self
  cases hstep with
  | beforeLock _ hframes hcode | afterLock _ hframes hcode | beforeUnlock _ hframes hcode
  | afterUnlock _ hframes hcode | assertionFails _ hframes hcode =>
    have hnot := hsite hframes
    rw [hcode] at hnot
    cases hnot
  | memHook _ hframes | lock _ hframes | trylock _ hframes | unlock _ hframes | plain _ hframes =>
    exact ⟨h.goto (hrest hframes), nofun⟩
  | acquireOutside | releaseOutside => exact ⟨h, nofun⟩
  | enter _ hframes _ hblock =>
    exact ⟨h.goto (List.forall_mem_cons.mpr ⟨hblocks _ hblock, hrest hframes⟩), nofun⟩
  | @unwind t env site rest fs n _ hframes =>
    have hfs := (List.forall_mem_cons.mp (hframes ▸ h t)).2
    exact ⟨h.goto fun f hf => hfs f (List.mem_of_mem_drop hf), nofun⟩
  | @branch t env env' fs block _ hframes hblock =>
    have hall := h t
    rw [hframes] at hall
    exact ⟨h.goto (List.forall_mem_cons.mpr ⟨hblocks _ hblock, (List.forall_mem_cons.mp hall).2⟩), nofun⟩
  | @ret t env fs _ hframes =>
    have hall := h t
    rw [hframes] at hall
    exact ⟨h.goto (List.forall_mem_cons.mp hall).2, nofun⟩
  | spawn _ _ hblock =>
    exact ⟨h.goto (List.forall_mem_cons.mpr ⟨hblocks _ hblock, nofun⟩), nofun⟩

theorem Bare.run (hblocks : ∀ block ∈ prog.blocks, ∀ site ∈ block, isLockHook site.code = false)
    (h : Bare s) (hrun : Run (Step prog) s ls s') : ∀ t m ok, .afterUnlock t m ok ∉ ls := by
  induction hrun with
  | nil => exact fun t m ok hmem => by cases hmem
  | cons hstep _ ih =>
    obtain ⟨hmid, hnot⟩ := h.step hblocks hstep
    intro t m ok hmem
    rcases List.mem_cons.mp hmem with hl | hmem
    · exact hnot t m ok hl.symm
    · exact ih hmid t m ok hmem

end Runs

/-- In every run of an instrumented program in which mutexes are unlocked by their owners,
the assertions of `Thread::unlock` hold exactly if a thread that has unlocked a mutex at
a rewritten call still has it as often as it has acquired it without hooks. -/
theorem assertions_hold_iff {io : Iostream} {source : SourceModule} (hsource : source.Pristine)
    (t t' : LocationTable) {ord : NodeOrder} {g : LockGraph} {tracer : Tracer}
    (hstart : LockTracer.Components.start ord g = some tracer) {ls : List Label} {s : State}
    (hrun : Run (Step (instrument io source t t')) (start tracer) ls s) :
    AssertionsHold ls ↔ ∀ ls₁ t m ok ls₂, ls = ls₁ ++ .afterUnlock t m ok :: ls₂ →
      gained false ls₁ t m ≤ stillHeld ls₁ t m := by
  cases htype : source.hasMutexType with
  | true =>
    rw [(counts_start hstart).run (woven_instrument hsource htype) hrun]
    simp only [stillHeld, Int.zero_add, le_add_iff_nonneg_left]
  | false =>
    have hnone := Bare.run (bare_instrument hsource htype) (fun _ _ hf => by cases hf) hrun
    constructor
    · rintro - ls₁ t m ok ls₂ rfl
      exact absurd (List.mem_append_right _ List.mem_cons_self) (hnone t m ok)
    · exact fun _ t m ok hmem => absurd hmem (hnone t m ok)

/-- `main` takes a mutex with `trylock` and unlocks it. -/
def trying : SourceModule where
  functions := [("main", [[
    { code := .original (.call (.function "pthread_mutex_trylock") [.global "m"]) },
    { code := .original (.call (.function "pthread_mutex_unlock") [.global "m"]) }]])]

/-- A run of the instrumented module in which `trylock` succeeds. -/
def tryingLabels : List Label :=
  [.other 0, .acquire 0 1 false, .other 0, .release 0 1 true, .afterUnlock 0 1 false]

theorem trying_run {tracer : Tracer}
    (hstart : LockTracer.Components.start .byAddress { name := "g" } = some tracer) :
    ∃ s, Run (Step (instrument Lib.Numerals.standard trying {} {})) (start tracer) tryingLabels s := by
  let prog := instrument Lib.Numerals.standard trying {} {}
  let arg := Value.global "m"
  let env : Value → LockAddress := fun _ => 1
  let lock : Site := { code := .original (.call (.function "pthread_mutex_trylock") [arg]) }
  let unlock : Site := { code := .original (.call (.function "pthread_mutex_unlock") [arg]) }
  obtain ⟨loc, hblock⟩ : ∃ loc, [lock, { code := .hook .beforeUnlock arg loc }, unlock,
      { code := .hook .afterUnlock arg loc }] ∈ prog.blocks := ⟨_, List.mem_cons_self⟩
  let before : Site := { code := .hook .beforeUnlock arg loc }
  let after : Site := { code := .hook .afterUnlock arg loc }
  let s₁ := (start tracer).goto 0 [⟨env, [lock, before, unlock, after]⟩]
  let s₂ := State.goto { s₁ with depths := s₁.depths.acquire 0 1 } 0 [⟨env, [before, unlock, after]⟩]
  let s₃ := State.goto { s₂ with tracerBigLock := some 0 } 0 [⟨env, [unlock, after]⟩]
  let s₄ := State.goto { s₃ with depths := s₃.depths.release 0 1 } 0 [⟨env, [after]⟩]
  have hspawn : Step prog (start tracer) (.other 0) s₁ := .spawn rfl rfl hblock
  have htry : Step prog s₁ (.acquire 0 1 false) s₂ :=
    @Step.trylock prog s₁ 0 env lock _ [] arg rfl rfl rfl fun _ _ => rfl
  have hbefore : Step prog s₂ (.other 0) s₃ :=
    @Step.beforeUnlock prog s₂ 0 env before _ [] arg loc rfl rfl rfl rfl
  have hunlock : Step prog s₃ (.release 0 1 true) s₄ :=
    @Step.unlock prog s₃ 0 env unlock _ [] arg rfl rfl rfl (Nat.lt_succ_self 0)
  -- the tracer has no record of the mutex
  have hnone : LockTracer.Events.afterUnlock tracer 0 1 loc = none := by
    rw [Option.eq_none_iff_forall_ne_some]
    intro tracer' htracer
    have hpos := LockTracer.Events.afterUnlock_isSome.mp ⟨_, htracer⟩
    rw [(LockTracer.Holding.Tracks.start hstart).counts] at hpos
    exact absurd hpos (Int.lt_irrefl 0)
  have hfails : Step prog s₄ (.afterUnlock 0 1 false) { s₄ with aborted := true } :=
    @Step.assertionFails prog s₄ 0 env after _ [] arg loc rfl rfl rfl hnone
  exact ⟨_, .cons hspawn (.cons htry (.cons hbefore (.cons hunlock (.single hfails))))⟩

theorem trying_pristine : trying.Pristine := by
  intro site hsite
  simp only [SourceModule.sites, trying, List.flatMap_cons, List.flatMap_nil, List.append_nil,
    List.mem_cons, List.not_mem_nil, or_false] at hsite
  rcases hsite with rfl | rfl <;> exact ⟨_, rfl⟩

theorem assertions_hold_iff_trying : ∃ tracer,
    LockTracer.Components.start .byAddress { name := "g" } = some tracer ∧
    ∃ s, Run (Step (instrument Lib.Numerals.standard trying {} {})) (start tracer) tryingLabels s ∧
      (AssertionsHold tryingLabels ↔
        ∀ ls₁ t m ok ls₂, tryingLabels = ls₁ ++ .afterUnlock t m ok :: ls₂ →
          gained false ls₁ t m ≤ stillHeld ls₁ t m) := by
  obtain ⟨tracer, hstart⟩ : ∃ tracer,
      LockTracer.Components.start .byAddress { name := "g" } = some tracer := ⟨_, rfl⟩
  obtain ⟨s, hrun⟩ := trying_run hstart
  exact ⟨tracer, hstart, s, hrun, assertions_hold_iff trying_pristine {} {} hstart hrun⟩

/-- The unlock of a mutex that `trylock` has acquired aborts the program. -/
theorem trylock_aborts :
    ¬ ∀ (io : Iostream) (source : SourceModule) (t t' : LocationTable) (ord : NodeOrder)
      (g : LockGraph) (tracer : Tracer) (ls : List Label) (s : State), source.Pristine →
      LockTracer.Components.start ord g = some tracer →
      Run (Step (instrument io source t t')) (start tracer) ls s → AssertionsHold ls := by
  intro hall
  obtain ⟨tracer, hstart⟩ : ∃ tracer,
      LockTracer.Components.start .byAddress { name := "g" } = some tracer := ⟨_, rfl⟩
  obtain ⟨s, hrun⟩ := trying_run hstart
  have hok := hall _ trying {} {} _ _ tracer _ s trying_pristine hstart hrun 0 1 false
    (by decide)
  cases hok

end Lockout.Instrumentation.Execution
