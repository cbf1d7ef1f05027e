import Lockout.Strator.Multithreaded
import Lockout.Strator.ThreadCreation

/-! # Upward propagation along the stack

With a propagation level the caller of a multithreaded API and the functions below it on
the stack become multithreaded too. The source does not walk the stack but the field
`currentCaller`, one for each function, which every call instruction sets for the function
it names. For a function on the stack the field is right as long as no call has named it
since it was entered, unless it was entered as the root or as the function of a thread:
no call instruction names it then, and the field is what was left there before. -/

namespace Lockout.Strator.Propagation
open Lockout.Strator.Program Lockout.Strator.State Lockout.Strator.Traverse
open Lockout.Strator.Effects Lockout.Strator.Paths Lockout.Strator.Tasks
open Lockout.Strator.Termination Lockout.Strator.Exact Lockout.Strator.ThreadCreation
open Lockout.Strator.Multithreaded (flag_setMultithreaded flag_noteCaller
  isMultiThreadedAPI_noteCaller)

/-! ## The stack of a task -/

/-- The functions that are being traversed, the innermost first. -/
def stack (s : InstId) (ctx : List InstId) : List String := s.func :: ctx.map InstId.func

/-- What a task finds on the stack, `below` being the functions of the calls it is nested in. -/
def Live (P : List String → Worker → Prop) (below : List String) (w : Worker) : Search → Prop
  | .visit (.function _ _) => P below w
  | .visit (.statement s _ _) => P (s.func :: below) w
  | .each _ work => ∃ f, (∀ c ∈ work, c.1.func = f) ∧ P (f :: below) w

/-- Exactly these functions are on the stack. -/
def OnStack (fs : List String) (w : Worker) : Prop := ∀ g, w.onStack g = true ↔ g ∈ fs

section Stack
variable {m : IRModule} {opts : Options} {root : String} {L₀ : LockSet} {w₀ w : Worker}
  {ctx : List InstId} {t : Search} {s : InstId} {E L : LockSet}

theorem onStack_reached (hw₀ : ∀ f, w₀.onStack f = false)
    (h : Reached m opts (.visit (.function root L₀)) w₀ ctx t w) :
    Live OnStack (ctx.map InstId.func) w t := by
  induction h with
  | start =>
    intro g
    simp [hw₀]
  | @body ctx f L w s _ hentry _ _ ih =>
    intro g
    rw [func_entry hentry, List.mem_cons, ← ih g]
    by_cases hg : g = f
    · simp [Worker.setOnStack, hg]
    · simp [Worker.setOnStack, hg]
  | goOn _ _ hs ih =>
    refine ⟨_, forall_successors (P := fun f => f = _) rfl, fun g => ?_⟩
    rw [(step_of_processStatement hs).sameCaches.onStack]
    exact ih g
  | enter _ _ hs ih =>
    intro g
    rw [(step_of_processStatement hs).sameCaches.onStack]
    exact ih g
  | resume _ _ hs hcallee ih =>
    refine ⟨_, forall_successors (P := fun f => f = _) rfl, fun g => ?_⟩
    rw [bookkeeping_eraseArguments.onStack, onStack_of_runs hcallee,
      (step_of_processStatement hs).sameCaches.onStack]
    exact ih g
  | head _ ih =>
    obtain ⟨f, hwork, hstack⟩ := ih
    rw [← hwork _ List.mem_cons_self] at hstack
    exact hstack
  | rest _ hfirst ih =>
    obtain ⟨f, hwork, hstack⟩ := ih
    refine ⟨f, fun c hc => hwork c (List.mem_cons_of_mem _ hc), fun g => ?_⟩
    rw [onStack_of_runs hfirst]
    exact hstack g

end Stack

/-! ## The recorded callers -/

section Callers
variable {m : IRModule} {opts : Options} {s : InstId} {L : LockSet} {w w' : Worker} {next : Next}
  {callee : Value} {c : Option String} {f g : String}

theorem currentCaller_propagateUpward {n : Nat} {c : Option String} :
    (propagateUpward n c w).currentCaller = w.currentCaller := by
  induction n generalizing c w with
  | zero => rfl
  | succ n ih =>
    unfold propagateUpward
    split
    · rfl
    · exact ih

theorem currentCaller_noteCaller {g : Option String} : (noteCaller opts s g w).currentCaller c =
    if opts.upwardPropagationLevel ≠ 0 ∧ c = g then some s.func else w.currentCaller c := by
  unfold noteCaller
  by_cases hlevel : opts.upwardPropagationLevel ≠ 0
  · have hset : (w.setCurrentCaller g s.func).currentCaller c =
        if c = g then some s.func else w.currentCaller c := Function.update_apply ..
    rw [if_pos hlevel, hset]
    simp [hlevel]
  · rw [if_neg hlevel, if_neg fun h => hlevel h.1]

theorem currentCaller_markMultithreaded :
    (markMultithreaded m opts s callee w).currentCaller =
      (noteCaller opts s (calledFunction callee) w).currentCaller := by
  unfold markMultithreaded
  dsimp only
  split
  · rw [currentCaller_propagateUpward]
    rfl
  · rfl

theorem currentCaller_call {actuals : List Value} :
    (bindArguments m f actuals
      (inheritFlag s f (markMultithreaded m opts s callee w))).currentCaller =
      (noteCaller opts s (calledFunction callee) w).currentCaller := by
  obtain ⟨bindings, heq⟩ := @bindArguments_eq m
    (inheritFlag s f (markMultithreaded m opts s callee w)) f actuals
  have hinherit : (inheritFlag s f (markMultithreaded m opts s callee w)).currentCaller =
      (markMultithreaded m opts s callee w).currentCaller := by
    unfold inheritFlag
    split <;> rfl
  rw [heq]
  exact hinherit.trans currentCaller_markMultithreaded

theorem currentCaller_detectRaces {isStore : Bool} {pointer : Value} :
    (detectRaces m opts s isStore pointer L w).currentCaller = w.currentCaller := by
  unfold detectRaces
  dsimp only
  split
  · rfl
  · split
    · rfl
    · rfl

/-- A statement sets the field of no function but the one a call names. -/
theorem currentCaller_step (h : Step m opts s L w next w') (hother : calledAt m s ≠ some g) :
    w'.currentCaller (some g) = w.currentCaller (some g) := by
  unfold calledAt at hother
  cases h with
  | returned | bitCast | plain => rfl
  | load | store => rw [currentCaller_detectRaces]
  | unresolved hop | lock hop | unlock hop =>
    rw [hop] at hother
    rw [currentCaller_markMultithreaded, currentCaller_noteCaller,
      if_neg fun heq => hother heq.2.symm]
  | call hop =>
    rw [hop] at hother
    rw [currentCaller_call, currentCaller_noteCaller, if_neg fun heq => hother heq.2.symm]

end Callers

/-- Between the start of task `t₀` in state `w₀` and state `w` a call that names `f` is
processed. -/
def Named (m : IRModule) (opts : Options) (t₀ : Search) (w₀ w : Worker) (f : String) : Prop :=
  ∃ ctx s E L w', Reached m opts t₀ w₀ ctx (.visit (.statement s E L)) w' ∧
    w'.isInCache s E L = false ∧ w.isInCache s E L = true ∧ calledAt m s = some f

section Named
variable {m : IRModule} {opts : Options} {t₀ t : Search} {w₀ w w' w₁ : Worker} {s : InstId}
  {E L : LockSet} {r : List LockSet} {next : Next} {ctx : List InstId} {f : String}

theorem Named.mono (h : Named m opts t₀ w₀ w f)
    (hcache : ∀ {s E L}, w.isInCache s E L = true → w'.isInCache s E L = true) :
    Named m opts t₀ w₀ w' f := by
  obtain ⟨ctx, s, E, L, w', hreached, hnew, hcached, hf⟩ := h
  exact ⟨ctx, s, E, L, w', hreached, hnew, hcache hcached, hf⟩

theorem isInCache_processed
    (h : processStatement m opts s L (w.addToCache s E L) = .ok (next, w')) :
    w'.isInCache s E L = true := by
  rw [isInCache_of_statementCache (step_of_processStatement h).sameCaches.statementCache]
  exact isInCache_addToCache.mpr (.inl ⟨rfl, rfl, rfl⟩)

theorem isInCache_kept {s' : InstId} {E' L' : LockSet}
    (h : processStatement m opts s L (w.addToCache s E L) = .ok (next, w'))
    (hcached : w.isInCache s' E' L' = true) : w'.isInCache s' E' L' = true := by
  rw [isInCache_of_statementCache (step_of_processStatement h).sameCaches.statementCache]
  exact isInCache_addToCache.mpr (.inr hcached)

/-- A statement that is processed on the way to state `w₁`. -/
theorem currentCaller_processed (ht : Reached m opts t₀ w₀ ctx (.visit (.statement s E L)) w)
    (hnew : w.isInCache s E L = false)
    (hs : processStatement m opts s L (w.addToCache s E L) = .ok (next, w'))
    (hcache : w'.isInCache s E L = true → w₁.isInCache s E L = true)
    (hf : ¬ Named m opts t₀ w₀ w₁ f) : w'.currentCaller (some f) = w.currentCaller (some f) := by
  have hstep := step_of_processStatement hs
  refine (currentCaller_step hstep fun hcalled => hf ?_).trans rfl
  exact ⟨ctx, s, E, L, w, ht, hnew, hcache (isInCache_processed hs), hcalled⟩

/-- A search that names `f` in no call leaves the field of `f` as it is. -/
theorem currentCaller_runs (h : Runs m opts t w r w') (ht : Reached m opts t₀ w₀ ctx t w)
    (hf : ¬ Named m opts t₀ w₀ w' f) : w'.currentCaller (some f) = w.currentCaller (some f) := by
  induction h generalizing ctx with
  | declaration | summary | recursion | cached | nil => rfl
  | function hentry hnone hstack _ ih =>
    exact ih (ht.body hentry hnone hstack) fun hnamed => hf (hnamed.mono id)
  | returned hnew hs => exact currentCaller_processed ht hnew hs id hf
  | goOn hnew hs hrest ih =>
    rw [ih (ht.goOn hnew hs) hf]
    exact currentCaller_processed ht hnew hs (isInCache_of_runs hrest) hf
  | call hnew hs hcallee hrest ihf ih =>
    rw [ih (ht.resume hnew hs hcallee) hf]
    refine (ihf (ht.enter hnew hs) fun hnamed =>
      hf (hnamed.mono fun hcached => isInCache_of_runs hrest hcached)).trans ?_
    exact currentCaller_processed ht hnew hs
      (fun hcached => isInCache_of_runs hrest (isInCache_of_runs hcallee hcached)) hf
  | cons hfirst hrest ih ih' =>
    rw [ih' (ht.rest hfirst) hf]
    exact ih ht.head fun hnamed => hf (hnamed.mono (isInCache_of_runs hrest))

/-- From the start of a task on, the field of a function that no call names stays. -/
theorem currentCaller_reached (h : Reached m opts t₀ w₀ ctx t w)
    (hf : ¬ Named m opts t₀ w₀ w f) : w.currentCaller (some f) = w₀.currentCaller (some f) := by
  induction h with
  | start => rfl
  | body _ _ _ _ ih => exact ih fun hnamed => hf (hnamed.mono id)
  | goOn ht hnew hs ih | enter ht hnew hs ih =>
    rw [currentCaller_processed ht hnew hs id hf]
    exact ih fun hnamed => hf (hnamed.mono (isInCache_kept hs))
  | resume ht hnew hs hcallee ih =>
    refine (currentCaller_runs hcallee (ht.enter hnew hs) fun hnamed => hf (hnamed.mono id)).trans ?_
    rw [currentCaller_processed ht hnew hs (isInCache_of_runs hcallee) hf]
    exact ih fun hnamed =>
      hf (hnamed.mono fun hcached => isInCache_of_runs hcallee (isInCache_kept hs hcached))
  | head _ ih => exact ih hf
  | rest ht hfirst ih =>
    rw [currentCaller_runs hfirst ht.head hf]
    exact ih fun hnamed => hf (hnamed.mono (isInCache_of_runs hfirst))

end Named

/-! ## The activations on the stack -/

/-- Task `t` and state `w` are come to in an activation of `f` that has started in state
`w'`, nested in the calls `below`; the calls `above` have been entered since. -/
structure Activation (m : IRModule) (opts : Options) (t₀ : Search) (w₀ : Worker) (t : Search)
    (w : Worker) (above below : List InstId) (f : String) (L : LockSet) (w' : Worker) : Prop where
  started : Reached m opts t₀ w₀ below (.visit (.function f L)) w'
  leads : Reached m opts (.visit (.function f L)) w' above t w

/-- The field of `f` names the caller of its activation in state `w`: it did so when the root
or the function of a thread was entered, and no call has named `f` since. -/
structure KeepsCaller (m : IRModule) (opts : Options) (below : List InstId) (f : String)
    (L : LockSet) (w' w : Worker) : Prop where
  root : below = [] → w'.currentCaller (some f) = none
  creation : ∀ s, below[0]? = some s → createsThread m s = true →
    w'.currentCaller (some f) = some s.func
  call : ¬ Named m opts (.visit (.function f L)) w' w f

/-- The function a task is in. -/
def IsIn (f : String) : Search → Prop
  | .visit (.function g _) => g = f
  | .visit (.statement s _ _) => s.func = f
  | .each _ work => ∀ c ∈ work, c.1.func = f

section Activations
variable {m : IRModule} {opts : Options} {root : String} {L₀ : LockSet} {w₀ w w' : Worker}
  {ctx above below : List InstId} {t : Search} {f : String} {L : LockSet}

/-- Every function on the stack is there by an activation. -/
theorem activation_reached (h : Reached m opts (.visit (.function root L₀)) w₀ ctx t w) :
    ∃ f, IsIn f t ∧ ∀ i g, (f :: ctx.map InstId.func)[i]? = some g →
      ∃ L w', Activation m opts (.visit (.function root L₀)) w₀ t w (ctx.take i) (ctx.drop i) g
        L w' := by
  induction h with
  | start =>
    refine ⟨root, rfl, fun i g hg => ?_⟩
    cases i with
    | zero =>
      cases hg
      exact ⟨L₀, w₀, .start, .start⟩
    | succ i => simp at hg
  | body _ hentry hnone hstack ih =>
    obtain ⟨f, rfl, hall⟩ := ih
    refine ⟨_, func_entry hentry, fun i g hg => ?_⟩
    obtain ⟨L, w', hstarted, hleads⟩ := hall i g hg
    exact ⟨L, w', hstarted, hleads.body hentry hnone hstack⟩
  | goOn _ hnew hs ih =>
    obtain ⟨f, rfl, hall⟩ := ih
    refine ⟨_, forall_successors (P := fun g => g = _) rfl, fun i g hg => ?_⟩
    obtain ⟨L, w', hstarted, hleads⟩ := hall i g hg
    exact ⟨L, w', hstarted, hleads.goOn hnew hs⟩
  | @enter ctx s E L w f L' w₁ ht hnew hs ih =>
    obtain ⟨_, rfl, hall⟩ := ih
    refine ⟨f, rfl, fun i g hg => ?_⟩
    cases i with
    | zero =>
      cases hg
      exact ⟨L', w₁, ht.enter hnew hs, .start⟩
    | succ i =>
      obtain ⟨L, w', hstarted, hleads⟩ := hall i g hg
      exact ⟨L, w', hstarted, hleads.enter hnew hs⟩
  | resume _ hnew hs hcallee ih =>
    obtain ⟨f, rfl, hall⟩ := ih
    refine ⟨_, forall_successors (P := fun g => g = _) rfl, fun i g hg => ?_⟩
    obtain ⟨L, w', hstarted, hleads⟩ := hall i g hg
    exact ⟨L, w', hstarted, hleads.resume hnew hs hcallee⟩
  | head _ ih =>
    obtain ⟨f, hwork, hall⟩ := ih
    refine ⟨f, hwork _ List.mem_cons_self, fun i g hg => ?_⟩
    obtain ⟨L, w', hstarted, hleads⟩ := hall i g hg
    exact ⟨L, w', hstarted, hleads.head⟩
  | rest _ hfirst ih =>
    obtain ⟨f, hwork, hall⟩ := ih
    refine ⟨f, fun c hc => hwork c (List.mem_cons_of_mem _ hc), fun i g hg => ?_⟩
    obtain ⟨L, w', hstarted, hleads⟩ := hall i g hg
    exact ⟨L, w', hstarted, hleads.rest hfirst⟩

/-- A function is entered with its caller recorded, where a call names it. -/
theorem KeepsCaller.started (hlevel : opts.upwardPropagationLevel ≠ 0)
    (h : Reached m opts (.visit (.function root L₀)) w₀ below (.visit (.function f L)) w')
    (hkeeps : KeepsCaller m opts below f L w' w) :
    w'.currentCaller (some f) = (below.map InstId.func)[0]? := by
  cases h with
  | start => exact hkeeps.root rfl
  | enter _ _ hs =>
    have hstep := step_of_processStatement hs
    cases hstep with
    | call hop hcallee _ _ hresolves =>
      cases hresolves with
      | direct =>
        rw [currentCaller_call, currentCaller_noteCaller, hcallee, if_pos ⟨hlevel, rfl⟩]
        rfl
      | creation hcreation =>
        refine (hkeeps.creation _ rfl ?_).trans rfl
        rw [createsThread, hop]
        dsimp only
        rw [hcallee]
        exact hcreation

/-- The field of a function on the stack names the function below. -/
theorem KeepsCaller.currentCaller (hlevel : opts.upwardPropagationLevel ≠ 0)
    (h : Activation m opts (.visit (.function root L₀)) w₀ t w above below f L w')
    (hkeeps : KeepsCaller m opts below f L w' w) :
    w.currentCaller (some f) = (below.map InstId.func)[0]? :=
  (currentCaller_reached h.leads hkeeps.call).trans (hkeeps.started hlevel h.started)

end Activations

/-! ## What one call of an API marks -/

/-- From `w` to `w'` these functions, and no others, have been put into
`multithreadedAPISet` and marked multithreaded. -/
structure Marks (marked : List String) (w w' : Worker) : Prop where
  apis : ∀ v, v ∈ w'.multithreadedAPISet ↔
    v ∈ w.multithreadedAPISet ∨ ∃ g ∈ marked, v = .function g
  flags : ∀ g, w'.multithreadedFunctionMap g = true ↔
    w.multithreadedFunctionMap g = true ∨ g ∈ marked

section Marking
variable {m : IRModule} {opts : Options} {s : InstId} {w w' : Worker} {callee : Value}
  {fs : List String} {c : Option String} {f : String} {n : Nat}

/-- The loop marks the first `n` functions of a list that the fields lead along so far. -/
theorem marks_propagateUpward (hc : 0 < n → w.currentCaller c = fs[0]?)
    (hlinked : ∀ i f, i + 1 < n → fs[i]? = some f → w.currentCaller (some f) = fs[i + 1]?) :
    Marks (fs.take n) w (propagateUpward n c w) := by
  induction n generalizing fs w c with
  | zero => exact ⟨by simp [propagateUpward], by simp [propagateUpward]⟩
  | succ n ih =>
    have hc := hc (Nat.succ_pos n)
    cases fs with
    | nil =>
      have hstop : propagateUpward (n + 1) c w = w := by
        rw [propagateUpward, hc]
        rfl
      rw [hstop]
      exact ⟨by simp, by simp⟩
    | cons f fs =>
      have hgo : propagateUpward (n + 1) c w =
          propagateUpward n (some f) ((w.addAPI f).setMultithreaded f) := by
        rw [propagateUpward, hc]
        rfl
      have hfirst : 0 < n → ((w.addAPI f).setMultithreaded f).currentCaller (some f) = fs[0]? :=
        fun hn => hlinked 0 f (by omega) rfl
      obtain ⟨hapis, hflags⟩ := ih hfirst fun i g hi hg => hlinked (i + 1) g (by omega) hg
      rw [hgo, List.take_succ_cons]
      constructor
      · intro v
        have hadd : ((w.addAPI f).setMultithreaded f).multithreadedAPISet =
            insert (.function f) w.multithreadedAPISet := rfl
        rw [hapis, hadd, Finset.mem_insert, List.exists_mem_cons_iff, or_assoc, or_left_comm]
      · intro g
        have hadd : (w.addAPI f).multithreadedFunctionMap = w.multithreadedFunctionMap := rfl
        rw [hflags, flag_setMultithreaded, hadd, List.mem_cons, or_assoc, or_left_comm]

/-- A call of an API marks the function it is in and the functions below that the fields
lead to. -/
theorem marks_markMultithreaded (hlevel : 1 ≤ opts.upwardPropagationLevel)
    (hapi : isMultiThreadedAPI m opts w callee = true)
    (hlinked : ∀ i f, i + 1 < opts.upwardPropagationLevel → (s.func :: fs)[i]? = some f →
      calledFunction callee ≠ some f ∧ w.currentCaller (some f) = (s.func :: fs)[i + 1]?) :
    Marks ((s.func :: fs).take opts.upwardPropagationLevel) w
      (markMultithreaded m opts s callee w) := by
  have hne : opts.upwardPropagationLevel ≠ 0 := by omega
  have hcaller : ∀ c, (noteCaller opts s (calledFunction callee) w).currentCaller c =
      if c = calledFunction callee then some s.func else w.currentCaller c := by
    intro c
    rw [currentCaller_noteCaller]
    simp [hne]
  unfold markMultithreaded
  dsimp only
  rw [if_pos (isMultiThreadedAPI_noteCaller.trans hapi)]
  have hstart : ((noteCaller opts s (calledFunction callee) w).setMultithreaded
      s.func).currentCaller (calledFunction callee) = (s.func :: fs)[0]? :=
    (hcaller _).trans (if_pos rfl)
  obtain ⟨hapis, hflags⟩ := marks_propagateUpward (fun _ => hstart)
    fun i f (hi : i + 1 < opts.upwardPropagationLevel) hf => by
      obtain ⟨hother, hlink⟩ := hlinked i f hi hf
      exact (hcaller _).trans ((if_neg fun heq => hother heq.symm).trans hlink)
  have hfirst : s.func ∈ (s.func :: fs).take opts.upwardPropagationLevel := by
    obtain ⟨n, hn⟩ := Nat.exists_eq_add_of_le' hlevel
    rw [hn]
    simp
  constructor
  · intro v
    have hnote : ((noteCaller opts s (calledFunction callee) w).setMultithreaded
        s.func).multithreadedAPISet = w.multithreadedAPISet := by
      unfold noteCaller
      split <;> rfl
    rw [hapis, hnote]
  · intro g
    rw [hflags, flag_setMultithreaded, flag_noteCaller]
    constructor
    · rintro ((rfl | hold) | hmem)
      · exact .inr hfirst
      · exact .inl hold
      · exact .inr hmem
    · exact Or.imp_left .inr

end Marking

/-- Where the fields of the functions that the loop passes are right, a call of a
multithreaded API marks exactly the functions on top of the stack, as many as the level
says. -/
theorem marks_stack {m : IRModule} {opts : Options} {root : String} {L₀ : LockSet} {w₀ : Worker}
    (hlevel : 1 ≤ opts.upwardPropagationLevel) (hw₀ : ∀ f, w₀.onStack f = false)
    {ctx : List InstId} {s : InstId} {E L : LockSet} {w : Worker} {callee : Value}
    {args : List Value}
    (h : Reached m opts (.visit (.function root L₀)) w₀ ctx (.visit (.statement s E L)) w)
    (hnew : w.isInCache s E L = false) (hop : m.op? s = some (.call callee args))
    (hapi : isMultiThreadedAPI m opts w callee = true)
    (hkeeps : ∀ {above below f L' w'}, ctx = above ++ below →
      above.length + 1 < opts.upwardPropagationLevel →
      Activation m opts (.visit (.function root L₀)) w₀ (.visit (.statement s E L)) w above below
        f L' w' → KeepsCaller m opts below f L' w' (w.addToCache s E L)) :
    (∀ g, w.onStack g = true ↔ g ∈ stack s ctx) ∧
      Marks ((stack s ctx).take opts.upwardPropagationLevel) (w.addToCache s E L)
        (markMultithreaded m opts s callee (w.addToCache s E L)) := by
  have hcached : isMultiThreadedAPI m opts (w.addToCache s E L) callee = true := hapi
  refine ⟨onStack_reached hw₀ h, marks_markMultithreaded hlevel hcached fun i f hi hf => ?_⟩
  obtain ⟨_, rfl, hall⟩ := activation_reached h
  obtain ⟨L', w', hact⟩ := hall i f hf
  have hle : i ≤ ctx.length := by
    have hlt := (List.getElem?_eq_some_iff.mp hf).1
    rw [List.length_cons, List.length_map] at hlt
    omega
  have hkeep := hkeeps (List.take_append_drop i ctx).symm
    (by rw [List.length_take_of_le hle]; exact hi) hact
  constructor
  · intro hcallee
    refine hkeep.call ⟨_, s, E, L, w, hact.leads, hnew, ?_, ?_⟩
    · exact isInCache_addToCache.mpr (.inl ⟨rfl, rfl, rfl⟩)
    · rw [calledAt, hop]
      exact hcallee
  · have hbefore : KeepsCaller m opts (ctx.drop i) f L' w' w := { hkeep with
      call := fun hnamed => hkeep.call (hnamed.mono fun hc => isInCache_addToCache.mpr (.inr hc)) }
    show w.currentCaller (some f) = _
    rw [hbefore.currentCaller (by omega) hact]
    simp

/-! ## Functions that are not called again -/

/-- What a statement names or enters is of smaller rank than its function. -/
def Descends (m : IRModule) (rank : String → Nat) : Prop :=
  ∀ s ∈ statements m, (∀ g ∈ calledAt m s, rank g < rank s.func) ∧
    ∀ g ∈ calleeOf m (operandOf m) s, rank g < rank s.func

/-- The task is of a function of rank `n` at most. -/
def RankLe (rank : String → Nat) (n : Nat) : Search → Prop
  | .visit (.function f _) => rank f ≤ n
  | .visit (.statement s _ _) => rank s.func ≤ n
  | .each _ work => ∀ c ∈ work, rank c.1.func ≤ n

section Ranks
variable {m : IRModule} {opts : Options} {rank : String → Nat} {L : LockSet} {w₀ w : Worker}
  {ctx : List InstId} {t : Search} {f : String}

theorem rankLe_reached (hm : Descends m rank)
    (h : Reached m opts (.visit (.function f L)) w₀ ctx t w) : RankLe rank (rank f) t := by
  induction h with
  | start => exact Nat.le_refl _
  | body _ hentry _ _ ih =>
    show rank _ ≤ rank f
    rw [func_entry hentry]
    exact ih
  | goOn _ _ _ ih | resume _ _ _ _ ih => exact forall_successors (P := fun g => rank g ≤ rank f) ih
  | @enter ctx s E L w g L' w₁ _ _ hs ih =>
    have hle : rank s.func ≤ rank f := ih
    have hcalls : (lockPaths m (operandOf m)).Calls s.func g :=
      calls_of_step (step_of_processStatement hs)
    obtain ⟨c, hc, hfunc, hcallee⟩ := statement_of_calls hcalls
    have hlower := (hm c hc).2 g hcallee
    rw [hfunc] at hlower
    exact (hlower.trans_le hle).le
  | head _ ih => exact ih _ List.mem_cons_self
  | rest _ _ ih => exact fun c hc => ih c (List.mem_cons_of_mem _ hc)

/-- No call names a function while it is being traversed. -/
theorem not_named_of_rank (hm : Descends m rank) :
    ¬ Named m opts (.visit (.function f L)) w₀ w f := by
  intro hnamed
  obtain ⟨ctx, s, E, L, w', hreached, -, -, hcalled⟩ := hnamed
  have hle : rank s.func ≤ rank f := rankLe_reached hm hreached
  have hs : s ∈ statements m := by
    cases hinst : m.inst? s with
    | some inst => exact mem_statements hinst
    | none => simp [calledAt, IRModule.op?, hinst] at hcalled
  exact absurd ((hm s hs).1 f hcalled) (by omega)

end Ranks

/-- `main` starts a thread and calls `join`, which calls an API. -/
def creating : IRModule where
  functions := [
    ("main", { blocks := [{ insts := [
      ⟨"", .call (.function "pthread_create")
        [.constant "null", .constant "null", .function "worker", .constant "null"]⟩,
      ⟨"", .call (.function "join") []⟩, ⟨"", .ret⟩] }] }),
    ("join", { blocks := [{ insts := [
      ⟨"", .call (.function "pthread_join") []⟩, ⟨"", .ret⟩] }] }),
    ("worker", { params := ["arg"], blocks := [{ insts := [
      ⟨"", .store (.argument "worker" 0) (.global "g")⟩, ⟨"", .ret⟩] }] })]
  globals := [("g", false)]

/-- `main` calls `work`, and `work` calls `retry`, which calls `work` again and an API then. -/
def retrying : IRModule where
  functions := [
    ("main", { blocks := [{ insts := [⟨"", .call (.function "work") []⟩, ⟨"", .ret⟩] }] }),
    ("work", { blocks := [{ insts := [⟨"", .call (.function "retry") []⟩, ⟨"", .ret⟩] }] }),
    ("retry", { blocks := [{ insts := [
      ⟨"", .call (.function "work") []⟩,
      ⟨"", .call (.function "pthread_join") []⟩,
      ⟨"", .ret⟩] }] })]

theorem creating_descends : Descends creating fun f =>
    if f = "main" then 2 else if f = "join" then 1 else 0 := by
  unfold Descends
  decide

/-- The call in `join` marks `join` and `main` at level two. -/
theorem marks_stack_creating : ∃ w : Worker,
    (∀ g, w.onStack g = true ↔ g ∈ ["join", "main"]) ∧
      Marks ["join", "main"] (w.addToCache ⟨"join", 0, 0⟩ ∅ ∅)
        (markMultithreaded creating { upwardPropagationLevel := 2 } ⟨"join", 0, 0⟩
          (.function "pthread_join") (w.addToCache ⟨"join", 0, 0⟩ ∅ ∅)) := by
  have hmain : Reached creating { upwardPropagationLevel := 2 } (.visit (.function "main" ∅)) {} []
      (.visit (.function "main" ∅)) {} := .start
  have hcreate := hmain.body rfl rfl rfl
  have hcall := (hcreate.resume rfl rfl (traverse_runs (n := 4) rfl)).head
  have hjoin := (hcall.enter rfl rfl).body rfl rfl rfl
  obtain ⟨hstack, hmarks⟩ := marks_stack (by decide) (fun _ => rfl) hjoin rfl rfl (by decide)
    fun {above below f L w'} hctx hlength _ => by
      -- at level two only the innermost activation is passed, and `main` calls it directly
      have hshort : above.length + 1 < 2 := hlength
      have habove : above = [] := List.length_eq_zero_iff.mp (by omega)
      subst habove
      obtain rfl : [⟨"main", 0, 1⟩] = below := hctx
      refine ⟨nofun, fun s hs hcreates => ?_, not_named_of_rank creating_descends⟩
      cases hs
      exact absurd hcreates (by decide)
  exact ⟨_, hstack, hmarks⟩

/-- The call of `work` in `retry` is skipped as recursive, but it leaves `retry` as the
caller of `work`: at level three the call of the API then marks `retry`, `work` and `retry`
again, and `main` is not marked. -/
theorem recursion_hides_caller : ¬ ∀ (m : IRModule) (opts : Options) (root : String)
    (ctx : List InstId) (s : InstId) (E L : LockSet) (w : Worker) (callee : Value)
    (args : List Value), 1 ≤ opts.upwardPropagationLevel →
    Reached m opts (.visit (.function root ∅)) {} ctx (.visit (.statement s E L)) w →
    w.isInCache s E L = false → m.op? s = some (.call callee args) →
    isMultiThreadedAPI m opts w callee = true →
    Marks ((stack s ctx).take opts.upwardPropagationLevel) (w.addToCache s E L)
      (markMultithreaded m opts s callee (w.addToCache s E L)) := by
  intro hall
  have hmain : Reached retrying { upwardPropagationLevel := 3 } (.visit (.function "main" ∅)) {} []
      (.visit (.function "main" ∅)) {} := .start
  have hwork := ((hmain.body rfl rfl rfl).enter rfl rfl).body rfl rfl rfl
  have hretry := (hwork.enter rfl rfl).body rfl rfl rfl
  have hjoin := (hretry.resume rfl rfl (.recursion rfl rfl rfl)).head
  have hmarks := hall _ _ _ _ _ _ _ _ _ _ (by decide) hjoin rfl rfl (by decide)
  have hmarked := (hmarks.flags "main").mpr (.inr (by decide))
  exact absurd hmarked (by decide)

end Lockout.Strator.Propagation
