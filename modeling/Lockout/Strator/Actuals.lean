import Lockout.Strator.Coverage
import Lockout.Strator.Mutexes
import Lockout.Strator.Reports

/-! # Accesses through parameters

A formal parameter stands for the actual of the call it was entered through, and while
the callee is traversed nothing that the actual resolves through is bound anew, as long
as the callee does not lead back to itself. So a call that is not answered from the
summaries records every access through the formal under the value of its actual
(`recorded_under_actual`). -/

namespace Lockout.Strator.Actuals
open Lockout.Lib.Interprocedural
open Lockout.Strator.Program Lockout.Strator.State Lockout.Strator.Traverse
open Lockout.Strator.Effects Lockout.Strator.Paths Lockout.Strator.Termination
open Lockout.Strator.Resolution Lockout.Strator.Exact Lockout.Strator.Tasks
open Lockout.Strator.Mutexes Lockout.Strator.Multithreaded Lockout.Strator.Territories
open Lockout.Strator.Isolation Lockout.Strator.Coverage Lockout.Strator.Reports

/-! ## Calls and accesses -/

/-- `g` calls itself, directly or through others or the creation of threads. -/
def Recursive (m : IRModule) (g : String) : Prop :=
  Relation.TransGen (lockPaths m (operandOf m)).Calls g g

/-- `s` is a load or store of `pointer`. -/
inductive Accesses (m : IRModule) (s : InstId) : Bool → Value → Prop
  | load {pointer} : m.op? s = some (.load pointer) → Accesses m s false pointer
  | store {value pointer} : m.op? s = some (.store value pointer) → Accesses m s true pointer

/-- What LLVM's verifier says of operands: they are used in their own function, and
instructions only after they have been passed. -/
structure Verified (m : IRModule) : Prop where
  isLocal : Local m
  dominated : Dominated m
  stored : ∀ s value id, m.op? s = some (.store value (.inst id)) → ¬ Avoids m id s

/-- A value is the formal parameter `i` of `f`, or a bitcast of it in `k` steps. -/
inductive Through (m : IRModule) (f : String) (i : Nat) : Nat → Value → Prop
  | formal : Through m f i 0 (.argument f i)
  | bitCast {k id v} : id.func = f → m.op? id = some (.bitCast v) → Through m f i k v →
      Through m f i (k + 1) (.inst id)

/-- Call `c` passes `actual` for parameter `i` of `g`. -/
def Passes (m : IRModule) (c : InstId) (g : String) (i : Nat) (actual : Value) : Prop :=
  ∃ callee args g' actuals, m.op? c = some (.call callee args) ∧
    calledFunction callee = some g' ∧ Resolves m g' args g actuals ∧
    i < (m.function g).params.length ∧ actuals[i]? = some actual

/-- The analysis from `root` comes to call `c` in state `w`, and enters `g` with
lockset `L` in state `w₁`. -/
inductive Enters (m : IRModule) (opts : Options) (root : String) (c : InstId) (g : String)
    (L : LockSet) (w w₁ : Worker) : Prop
  | mk {ctx E L₀} : Reached m opts (.visit (.function root ∅)) {} ctx (.visit (.statement c E L₀)) w →
      w.isInCache c E L₀ = false →
      processStatement m opts c L₀ (w.addToCache c E L₀) = .ok (.call g L, w₁) →
      Enters m opts root c g L w w₁

/-! ## What lies above a function -/

/-- A value, and all it is a cast of, belongs to functions that lead to `g`. -/
def Above (m : IRModule) (mutex : InstId → Lock) (g : String) (v : Value) : Prop :=
  ∀ u ∈ castChain v, ∀ f, home u = some f → Relation.TransGen (lockPaths m mutex).Calls f g

/-- A task is in functions that `f` leads to. -/
def Below (m : IRModule) (mutex : InstId → Lock) (f : String) : Search → Prop
  | .visit (.function g _) => Relation.ReflTransGen (lockPaths m mutex).Calls f g
  | .visit (.statement s _ _) => Relation.ReflTransGen (lockPaths m mutex).Calls f s.func
  | .each _ work => ∀ c ∈ work, Relation.ReflTransGen (lockPaths m mutex).Calls f c.1.func

section Above
variable {m : IRModule} {opts : Options} {mutex : InstId → Lock} {f g : String} {v actual : Value}
  {w w₁ w₀ : Worker} {c s : InstId} {L E : LockSet} {ctx : List InstId} {t : Search} {i : Nat}

theorem above_operand {op : Opcode} (hlocal : Local m) (hop : m.op? s = some op)
    (hv : v ∈ op.operands) (hs : Relation.TransGen (lockPaths m mutex).Calls s.func g) :
    Above m mutex g v := by
  intro u hu f hf
  rw [hlocal hop hv hu hf]
  exact hs

/-- A formal is bound in the function that calls its own, so upward. -/
theorem encloses_above (hlocal : Local m) (hw : Admissible m w.parentValue) :
    Encloses w.parentValue (Above m mutex g) where
  cast hv := fun u hu => hv u (castChain_castOperand hu)
  binding := by
    intro v p hv hp
    cases hw v p hp with
    | @bitCast s _ hop =>
      exact above_operand hlocal hop List.mem_cons_self (hv _ List.mem_cons_self s.func rfl)
    | @argument s callee args g' f actuals i _ hop hcallee hlock hunlock hresolves hi =>
      have hcalls : (lockPaths m mutex).Calls s.func f :=
        ⟨s, _, _, _, rfl, lockKind_of_resolves hop hcallee hlock hunlock hresolves⟩
      have hmem : p ∈ args := hresolves.subset (List.mem_of_getElem? hi)
      exact above_operand hlocal hop (List.mem_append_left _ hmem)
        (.head hcalls (hv _ List.mem_cons_self f rfl))

/-- Nothing above a function that is not recursive is bound while it is traversed. -/
theorem not_mayRebind_of_above (hg : ¬ Relation.TransGen (lockPaths m mutex).Calls g g)
    (hv : Above m mutex g v) : ¬ MayRebind m mutex g v := by
  intro hrebind
  cases v with
  | argument f i => exact hg (hrebind.trans (hv _ List.mem_cons_self f rfl))
  | inst id => exact hg (.trans_right hrebind (hv _ List.mem_cons_self id.func rfl))
  | _ => exact hrebind

theorem below_successors {working : List LockSet}
    (hs : Relation.ReflTransGen (lockPaths m mutex).Calls f s.func) :
    Below m mutex f (.each E (successors m s working)) :=
  forall_successors (P := fun g => Relation.ReflTransGen (lockPaths m mutex).Calls f g) hs

theorem below_callee {L' : LockSet} (hs : Relation.ReflTransGen (lockPaths m mutex).Calls f s.func)
    (h : processStatement m opts s L w = .ok (.call g L', w₁)) :
    Relation.ReflTransGen (lockPaths m mutex).Calls f g :=
  hs.tail (calls_of_step (step_of_processStatement h))

theorem reached_below (h : Reached m opts (.visit (.function f L)) w₀ ctx t w) :
    Below m mutex f t := by
  induction h with
  | start => exact .refl
  | body _ hentry _ _ ih =>
    rw [← func_entry hentry] at ih
    exact ih
  | goOn _ _ _ ih | resume _ _ _ _ ih => exact below_successors ih
  | enter _ _ hs ih => exact below_callee ih hs
  | head _ ih => exact ih _ List.mem_cons_self
  | rest _ _ ih => exact fun c hc => ih c (List.mem_cons_of_mem _ hc)

/-- A function on the stack leads to the task at hand. -/
theorem reached_onStack {root : String}
    (h : Reached m opts (.visit (.function root ∅)) {} ctx t w) (hg : w.onStack g = true) :
    Below m mutex g t := by
  induction h with
  | start => cases hg
  | @body ctx f L w s _ hentry _ _ ih =>
    show Relation.ReflTransGen _ g s.func
    rw [func_entry hentry]
    by_cases hgf : g = f
    · rw [hgf]
    · exact ih ((Function.update_of_ne hgf _ _).symm.trans hg)
  | goOn _ _ hs ih =>
    refine below_successors (ih ?_)
    rwa [(step_of_processStatement hs).sameCaches.onStack] at hg
  | enter _ _ hs ih =>
    refine below_callee (ih ?_) hs
    rwa [(step_of_processStatement hs).sameCaches.onStack] at hg
  | resume _ _ hs hcallee ih =>
    refine below_successors (ih ?_)
    rwa [bookkeeping_eraseArguments.onStack, onStack_of_runs hcallee,
      (step_of_processStatement hs).sameCaches.onStack] at hg
  | head _ ih => exact ih hg _ List.mem_cons_self
  | rest _ hfirst ih =>
    rw [onStack_of_runs hfirst] at hg
    exact fun c hc => ih hg c (List.mem_cons_of_mem _ hc)

theorem Below.spares (h : Below m mutex f t) (hv : ¬ MayRebind m mutex f v) :
    Spares m mutex v t := by
  cases t with
  | visit t =>
    cases t with
    | function | statement => exact fun hrebind => hv (hrebind.of_calls h)
  | each => exact fun c hc hrebind => hv (hrebind.of_calls (h c hc))

/-- What `f` cannot bind is bound at every task of it as it was in the beginning. -/
theorem reached_lookup (hv : ¬ MayRebind m mutex f v)
    (h : Reached m opts (.visit (.function f L)) w₀ ctx t w) :
    w.parentValue.lookup v = w₀.parentValue.lookup v := by
  induction h with
  | start => rfl
  | body _ _ _ _ ih => exact ih
  | goOn ht _ hs ih | enter ht _ hs ih =>
    have hspares := (reached_below ht).spares hv
    exact (lookup_step (step_of_processStatement hs) hspares).trans ih
  | resume ht hnew hs hcallee ih =>
    have hspares := (reached_below ht).spares hv
    have hstep := step_of_processStatement hs
    rw [lookup_erase (calls_of_step hstep) hspares,
      lookup_of_runs hcallee ((reached_below (ht.enter hnew hs)).spares hv)]
    exact (lookup_step hstep hspares).trans ih
  | head _ ih => exact ih
  | rest ht hfirst ih =>
    have hspares := (reached_below ht).spares hv
    exact (lookup_of_runs hfirst (hspares _ List.mem_cons_self)).trans ih

end Above

/-! ## From the pointer to the actual -/

/-- The casts that have been passed on the way to a task are bound. -/
def CastsPassed (m : IRModule) (bindings : FlowSensitiveValue) : Search → Prop
  | .visit (.function ..) => True
  | .visit (.statement s _ _) => CastsBound m bindings s
  | .each _ work => ∀ c ∈ work, CastsBound m bindings c.1

section Pointers
variable {m : IRModule} {opts : Options} {root f g : String} {v actual pointer r : Value}
  {w w₁ w₂ w₀ : Worker} {c s : InstId} {L E L' : LockSet} {ctx : List InstId} {t : Search}
  {i j k n : Nat} {bindings : FlowSensitiveValue} {visited : List Value} {isStore : Bool}

theorem reached_castsPassed (h : Reached m opts (.visit (.function f L)) w₀ ctx t w) :
    CastsPassed m w.parentValue t := by
  induction h with
  | start | enter => trivial
  | body _ hentry => exact fun _ _ _ _ => .inr (.entry hentry)
  | @goOn ctx s E L w L' w₁ _ _ hs ih =>
    have hstep := step_of_processStatement hs
    have hcasts : CastsBound m (w.addToCache s E L).parentValue s := ih
    intro c hc
    exact hcasts.successor (fun hop hb => lookup_inst_step hop hb hstep)
      (fun v hop => lookup_passed hop hstep) (mem_successors.mp hc).1
  | @resume ctx s E L w f L' w₁ exits w₂ _ _ hs hcallee ih =>
    have hstep := step_of_processStatement hs
    have hcasts : CastsBound m (w.addToCache s E L).parentValue s := ih
    have hcall : ∀ {id v}, m.op? id = some (.bitCast v) → w₁.parentValue.lookup (.inst id) = some v →
        (eraseArguments m f w₂).parentValue.lookup (.inst id) = some v := fun hop hb =>
      lookup_inst_erase.trans (runs_keeps (kept_cast hop) hcallee hb)
    intro c hc
    exact hcasts.successor (fun hop hb => hcall hop (lookup_inst_step hop hb hstep))
      (fun v hop => hcall hop (lookup_passed hop hstep)) (mem_successors.mp hc).1
  | head _ ih => exact ih _ List.mem_cons_self
  | rest _ hfirst ih =>
    intro c hc
    exact (ih c (List.mem_cons_of_mem _ hc)).keep fun hop hb =>
      runs_keeps (kept_cast hop) hfirst hb

theorem Through.home (h : Through m f i k v) : home v = some f := by
  cases h with
  | formal => rfl
  | bitCast hfunc => exact congrArg some hfunc

theorem Through.unique (h : Through m f i k v) (h' : Through m f i j v) : k = j := by
  induction h generalizing j with
  | formal =>
    cases h' with
    | formal => rfl
  | bitCast _ hop _ ih =>
    cases h' with
    | bitCast _ hop' h' =>
      cases hop.symm.trans hop'
      rw [ih h']

/-- A cast nearer to the formal than those visited is not among them. -/
theorem Through.notMem (h : Through m f i j v) (hj : j ≤ k)
    (hvisited : ∀ u ∈ visited, ∃ j, k < j ∧ Through m f i j u) : v ∉ visited := by
  intro hmem
  obtain ⟨j', hj', h'⟩ := hvisited v hmem
  have heq := h.unique h'
  omega

/-- The loop goes down the casts to the formal and from there to the actual. -/
theorem loop_through (hm : Verified m) (hformal : bindings.lookup (.argument f i) = some actual)
    (hactual : ∀ j, ¬ Through m f i j actual) (h : Through m f i k v)
    (hcasts : CastsBound m bindings s)
    (huse : ∀ id, v = .inst id → id.func = s.func ∧ ¬ Avoids m id s)
    (hvisited : ∀ u ∈ visited, ∃ j, k < j ∧ Through m f i j u)
    (hloop : defOperandLoop bindings n visited v = some r) :
    ∃ n' visited', defOperandLoop bindings n' visited' actual = some r ∧
      ∀ u ∈ visited', ∃ j, Through m f i j u := by
  induction h generalizing s n visited with
  | formal =>
    have hnew : Value.argument f i ∉ visited := Through.formal.notMem (Nat.le_refl _) hvisited
    have hall : ∀ u ∈ .argument f i :: visited, ∃ j, Through m f i j u := by
      intro u hu
      rcases List.mem_cons.mp hu with rfl | hu
      · exact ⟨0, .formal⟩
      · obtain ⟨j, -, hj⟩ := hvisited u hu
        exact ⟨j, hj⟩
    obtain ⟨n', hrest⟩ := defOperandLoop_follow hnew hformal
      (fun hmem => (hall _ hmem).elim hactual) hloop
    exact ⟨n', _, hrest, hall⟩
  | @bitCast k id v hfunc hop h ih =>
    obtain ⟨hhere, hpassed⟩ := huse id rfl
    have hbound : bindings.lookup (.inst id) = some v := (hcasts id v hop hhere).resolve_right hpassed
    have hcast : Through m f i (k + 1) (.inst id) := .bitCast hfunc hop h
    have hfurther : ∀ u ∈ .inst id :: visited, ∃ j, k < j ∧ Through m f i j u := by
      intro u hu
      rcases List.mem_cons.mp hu with rfl | hu
      · exact ⟨k + 1, Nat.lt_succ_self k, hcast⟩
      · obtain ⟨j, hj, hu⟩ := hvisited u hu
        exact ⟨j, by omega, hu⟩
    obtain ⟨n', hrest⟩ := defOperandLoop_follow (hcast.notMem (Nat.le_refl _) hvisited) hbound
      (h.notMem (Nat.le_refl _) hfurther) hloop
    refine ih (hcasts.used hhere hpassed) (fun id' hid' => ?_) hfurther hrest
    subst hid'
    exact hm.dominated id id' (uses_operand hop List.mem_cons_self)

theorem used_of_accesses (hm : Verified m) (h : Accesses m s isStore pointer) :
    ∀ id, pointer = .inst id → id.func = s.func ∧ ¬ Avoids m id s := by
  rintro id rfl
  cases h with
  | load hop => exact hm.dominated s id (uses_operand hop List.mem_cons_self)
  | @store value _ hop =>
    have hmem : Value.inst id ∈ (Opcode.store value (.inst id)).operands :=
      List.mem_cons_of_mem _ List.mem_cons_self
    exact ⟨hm.isLocal hop hmem (self_mem_castChain _) rfl, hm.stored s value id hop⟩

/-- A call binds the formals of its callee and nothing else. -/
theorem parentValue_of_call (hpasses : Passes m c g i actual)
    (hs : processStatement m opts c L (w.addToCache c E L) = .ok (.call g L', w₁)) :
    w₁.parentValue.lookup (.argument g i) = some actual ∧
      ∀ v, v ∉ m.arguments g → w₁.parentValue.lookup v = w.parentValue.lookup v := by
  obtain ⟨callee, args, g', actuals, hop, hcallee, hresolves, hi, hactual⟩ := hpasses
  cases step_of_processStatement hs with
  | call hop' hcallee' _ _ hresolves' =>
    cases hop.symm.trans hop'
    cases hcallee.symm.trans hcallee'
    obtain ⟨-, rfl⟩ := resolves_unique hresolves hresolves'
    refine ⟨lookup_bindArguments hi hactual, fun v hv => ?_⟩
    rw [lookup_bindArguments_of_notMem hv, parentValue_inheritFlag, parentValue_markMultithreaded]
    rfl

/-- Inside the callee a pointer through the formal resolves to what the actual resolves
to at the call. -/
theorem getDefOperand_through (hopts : opts.useParentValue = true) (hm : Verified m)
    (hg : ¬ Recursive m g) (hw : Admissible m w.parentValue)
    (hs : processStatement m opts c L (w.addToCache c E L) = .ok (.call g L', w₁))
    (hpasses : Passes m c g i actual)
    (hreached : Reached m opts (.visit (.function g L')) w₁ ctx t w₂)
    (hcasts : CastsBound m w₂.parentValue s) (haccess : Accesses m s isStore pointer)
    (hthrough : Through m g i k pointer) :
    getDefOperand opts w₂.parentValue pointer = getDefOperand opts w.parentValue actual := by
  have hcalls : (lockPaths m (operandOf m)).Calls c.func g :=
    calls_of_step (step_of_processStatement hs)
  obtain ⟨hformal, hothers⟩ := parentValue_of_call hpasses hs
  have hformal₂ : w₂.parentValue.lookup (.argument g i) = some actual :=
    (reached_lookup (show ¬ MayRebind m (operandOf m) g (.argument g i) from hg) hreached).trans
      hformal
  have habove : Above m (operandOf m) g actual := by
    obtain ⟨callee, args, g', actuals, hop, -, hresolves, -, hactual⟩ := hpasses
    have hmem : actual ∈ args := hresolves.subset (List.mem_of_getElem? hactual)
    exact above_operand hm.isLocal hop (List.mem_append_left _ hmem) (.single hcalls)
  have hnotAbove : ∀ {u j}, Through m g i j u → ¬ Above m (operandOf m) g u := fun hu habove =>
    hg (habove _ (self_mem_castChain _) g hu.home)
  have hsame : ∀ v, Above m (operandOf m) g v →
      w₂.parentValue.lookup v = w.parentValue.lookup v := by
    intro v hv
    rw [reached_lookup (not_mayRebind_of_above hg hv) hreached]
    refine hothers v fun hmem => ?_
    obtain ⟨j, -, rfl⟩ := mem_arguments.mp hmem
    exact hg (hv _ List.mem_cons_self g rfl)
  obtain ⟨n, visited, hloop, hvisited⟩ := loop_through hm hformal₂
    (fun j hj => hnotAbove hj habove) hthrough hcasts (used_of_accesses hm haccess)
    (fun _ hu => absurd hu List.not_mem_nil) (getDefOperand_loop hopts)
  refine (defOperandLoop_agree (encloses_above hm.isLocal hw) hsame habove (fun u hu => ?_)
    (getDefOperand_loop hopts) hloop).symm
  refine ⟨fun hmem => ?_, fun hmem => absurd hmem List.not_mem_nil⟩
  obtain ⟨j, hj⟩ := hvisited u hmem
  exact absurd hu (hnotAbove hj)

end Pointers

/-! ## Records -/

section Records
variable {m : IRModule} {opts : Options} {root g : String} {actual pointer v : Value}
  {w w₁ w' : Worker} {c s : InstId} {L E L' : LockSet} {ctx : List InstId} {r : List LockSet}
  {i k n : Nat} {isStore : Bool} {next : Next}

theorem processStatement_of_accesses (h : Accesses m s isStore pointer) :
    processStatement m opts s L w = .ok (.goOn L, detectRaces m opts s isStore pointer L w) := by
  cases h with
  | load hop => exact processStatement_of_step (.load hop)
  | store hop => exact processStatement_of_step (.store hop)

/-- An access that is visited in a multithreaded function is recorded under the value of
its pointer. -/
theorem recorded_of_visit (haccess : Accesses m s isStore pointer)
    (hflag : w.multithreadedFunctionMap s.func = true)
    (hvalue : m.isConstantGlobal (getDefOperand opts w.parentValue pointer) = false)
    (hs : processStatement m opts s L (w.addToCache s E L) = .ok (next, w')) :
    (getDefOperand opts w.parentValue pointer, ⟨isStore, true, s, L⟩) ∈
      recordsOf w'.valueToAccessTypeMap := by
  rw [processStatement_of_accesses haccess] at hs
  cases hs
  rw [recordsOf_detectRaces]
  exact .inr ⟨hvalue, hflag, rfl⟩

/-- A function that is not recursive is not on the stack when it is called. -/
theorem not_onStack_callee {L₀ : LockSet} (hg : ¬ Recursive m g)
    (hcall : Reached m opts (.visit (.function root ∅)) {} ctx (.visit (.statement c E L₀)) w)
    (hs : processStatement m opts c L₀ (w.addToCache c E L₀) = .ok (.call g L, w₁)) :
    w₁.onStack g = false := by
  have hstep := step_of_processStatement hs
  refine Bool.eq_false_iff.mpr fun hstacked => hg ?_
  rw [hstep.sameCaches.onStack] at hstacked
  exact .tail' (reached_onStack hcall hstacked) (calls_of_step hstep)

/-- In any module, a call from a multithreaded function that is the first to enter `g`
with its lockset, where `g` is not recursive, records every access through a formal of
`g` on the paths of `g` under the value the actual resolves to, unless that is a
constant global. -/
theorem recorded_under_actual (hopts : opts.useParentValue = true) (hm : Verified m)
    (hg : ¬ Recursive m g) (hrun : traverseFrom m opts n root {} = .ok (r, w'))
    (henters : Enters m opts root c g L w w₁)
    (hflag : w₁.multithreadedFunctionMap c.func = true) (hfirst : w.summary? g L = none)
    (hpasses : Passes m c g i actual)
    (hvalue : m.isConstantGlobal (getDefOperand opts w.parentValue actual) = false)
    (hpath : OnPath m g s) (haccess : Accesses m s isStore pointer)
    (hthrough : Through m g i k pointer) :
    ∃ L', (getDefOperand opts w.parentValue actual, ⟨isStore, true, s, L'⟩) ∈
      recordsOf w'.valueToAccessTypeMap := by
  cases henters with
  | @mk ctx E L₀ hcall hnew hs =>
    have hstep := step_of_processStatement hs
    have hcallee := hcall.enter hnew hs
    have hadm : Admissible m w.parentValue := reached_keeps kept_admissible admissible_empty hcall
    have hfirst₁ : w₁.summary? g L = none := by
      rw [Worker.summary?, hstep.sameCaches.functionCache]
      exact hfirst
    obtain ⟨exits, w₂, hrun₁, hkept⟩ := hcallee.ends (traverse_runs hrun)
    -- the call makes the summary, so it visits `s`, and visits it for the first time
    obtain ⟨L', hvisited, hunvisited⟩ := visits_path (reached_summarised hcallee).2 hfirst₁
      (not_onStack_callee hg hcall hs) hrun₁ hpath
    refine ⟨L', hkept _ kept_recordsOf ?_⟩
    have hrecorded := of_visits (fun s' _ L' w₂ => s' = s →
      (getDefOperand opts w.parentValue actual, ⟨isStore, true, s', L'⟩) ∈
        recordsOf w₂.valueToAccessTypeMap) ?_ ?_ hrun₁ .start hvisited
    · rcases hrecorded with hold | hrecorded
      · cases hunvisited.symm.trans hold
      · exact hrecorded rfl
    · exact fun s' _ L' => kept_recordsOf.imp
    · intro ctx s' E' L' w₂ next w₃ hreached hfresh hs' heq
      subst heq
      have hresolves := getDefOperand_through hopts hm hg hadm hs hpasses hreached
        (reached_castsPassed hreached) haccess hthrough
      have hflagged : w₂.multithreadedFunctionMap s'.func = true :=
        reached_flagged (flag_callee hstep hflag) hreached
      rw [← hresolves] at hvalue ⊢
      exact recorded_of_visit haccess hflagged hvalue hs'

end Records

/-! ## Modules -/

/-- `main` calls `set` twice with `m` held. -/
def passing : IRModule where
  functions := [
    ("main", { blocks := [{ insts := [
      ⟨"", .call (.function "pthread_mutex_lock") [.global "m"]⟩,
      ⟨"", .call (.function "set") [.global "a"]⟩,
      ⟨"", .call (.function "set") [.global "b"]⟩,
      ⟨"", .ret⟩] }] }),
    ("set", { params := ["p"], blocks := [{ insts := [
      ⟨"q", .bitCast (.argument "set" 0)⟩,
      ⟨"", .store (.constant "1") (.inst ⟨"set", 0, 0⟩)⟩,
      ⟨"", .ret⟩] }] })]
  globals := [("m", false), ("a", false), ("b", false)]

/-- The first call of `get` passes a constant. -/
def reading : IRModule where
  functions := [
    ("main", { blocks := [{ insts := [
      ⟨"", .call (.function "pthread_mutex_lock") [.global "m"]⟩,
      ⟨"", .call (.function "get") [.global "k"]⟩,
      ⟨"", .call (.function "get") [.global "a"]⟩,
      ⟨"", .ret⟩] }] }),
    ("get", { params := ["p"], blocks := [{ insts := [
      ⟨"", .load (.argument "get" 0)⟩, ⟨"", .ret⟩] }] })]
  globals := [("m", false), ("k", true), ("a", false)]

/-- `walk` calls itself with `b`. -/
def walking : IRModule where
  functions := [
    ("main", { blocks := [{ insts := [
      ⟨"", .call (.function "pthread_mutex_lock") [.global "m"]⟩,
      ⟨"", .call (.function "walk") [.global "a"]⟩,
      ⟨"", .ret⟩] }] }),
    ("walk", { params := ["p"], blocks := [{ insts := [
      ⟨"", .load (.argument "walk" 0)⟩,
      ⟨"", .call (.function "walk") [.global "b"]⟩,
      ⟨"", .ret⟩] }] })]
  globals := [("m", false), ("a", false), ("b", false)]

/-- The analysis comes to two calls of `g` with lockset `L`, in multithreaded functions,
which pass the globals `a` and `b`, and what `s` accesses through the formal is not
recorded under `v`, one of the two. -/
structure Unrecorded (m : IRModule) (g : String) (L : LockSet) (a b : String) (s : InstId)
    (v : Value) : Prop where
  calls : ∃ c c' w w₁ u u₁, Enters m {} "main" c g L w w₁ ∧ Enters m {} "main" c' g L u u₁ ∧
    w₁.multithreadedFunctionMap c.func = true ∧ u₁.multithreadedFunctionMap c'.func = true ∧
    Passes m c g 0 (.global a) ∧ Passes m c' g 0 (.global b)
  value : a ≠ b ∧ (v = .global a ∨ v = .global b)
  access : OnPath m g s ∧ ∃ isStore k pointer, Accesses m s isStore pointer ∧ Through m g 0 k pointer
  missing : ∃ n r w', traverseFrom m {} n "main" {} = .ok (r, w') ∧
    ∀ isStore L', (v, ⟨isStore, true, s, L'⟩) ∉ recordsOf w'.valueToAccessTypeMap

theorem notMem_recordsOf {final : ValueToAccessTypeMap} {v : Value} {a : AccessType}
    (h : final.lookup v = none) : (v, a) ∉ recordsOf final := by
  intro hmem
  obtain ⟨accesses, hlookup, -⟩ := hmem
  cases h.symm.trans hlookup

/-- `Verified`, as a check of straight-line functions. -/
def storesEarlier (m : IRModule) (s : InstId) : Bool :=
  match m.op? s with
  | some (.store _ (.inst id)) => id.func = s.func ∧ id.block = s.block ∧ id.index < s.index
  | _ => true

theorem stored_of_statements {m : IRModule} (h : ∀ s ∈ statements m, storesEarlier m s = true) :
    ∀ s value id, m.op? s = some (.store value (.inst id)) → ¬ Avoids m id s := by
  intro s value id hop
  obtain ⟨inst, hinst, -⟩ := Option.map_eq_some_iff.mp hop
  have hs := h s (mem_statements hinst)
  unfold storesEarlier at hs
  rw [hop] at hs
  obtain ⟨hfunc, hblock, hindex⟩ := of_decide_eq_true hs
  exact not_avoids_of_lt hfunc hblock hindex

theorem passing_verified : Verified passing where
  isLocal := local_of_statements (by decide)
  dominated := dominated_of_statements (by decide)
  stored := stored_of_statements (by decide)

theorem passing_acyclic : Acyclic passing (operandOf passing) :=
  acyclic_of_rank (fun f => if f = "main" then 1 else 0) (by decide)

/-- Both calls of `set` are come to in the multithreaded `main`. -/
theorem passing_enters : ∃ w w₁ u u₁,
    Enters passing {} "main" ⟨"main", 0, 1⟩ "set" {.global "m"} w w₁ ∧
    Enters passing {} "main" ⟨"main", 0, 2⟩ "set" {.global "m"} u u₁ ∧
    w.summary? "set" {.global "m"} = none ∧
    getDefOperand {} w.parentValue (.global "a") = .global "a" ∧
    w₁.multithreadedFunctionMap "main" = true ∧ u₁.multithreadedFunctionMap "main" = true := by
  have hmain : Reached passing {} (.visit (.function "main" ∅)) {} []
      (.visit (.function "main" ∅)) {} := .start
  have hlock := hmain.body rfl rfl rfl
  have hfirst := (hlock.goOn rfl rfl).head
  have hsecond := (hfirst.resume rfl rfl (traverse_runs (n := 6) rfl)).head
  exact ⟨_, _, _, _, .mk hfirst rfl rfl, .mk hsecond rfl rfl, rfl, rfl, rfl, rfl⟩

theorem passing_passes {c : InstId} {name : String}
    (hop : passing.op? c = some (.call (.function "set") [.global name])) :
    Passes passing c "set" 0 (.global name) :=
  ⟨_, _, _, _, hop, rfl, .direct rfl, by decide, rfl⟩

theorem passing_onPath : OnPath passing "set" ⟨"set", 0, 1⟩ :=
  .next (.entry rfl) (by decide) (by decide)

theorem passing_through : Through passing "set" 0 1 (.inst ⟨"set", 0, 0⟩) :=
  .bitCast rfl rfl .formal

/-- The store of `set` is recorded under `a`. -/
theorem recorded_under_actual_passing : ∃ r w', traverseFrom passing {} 12 "main" {} = .ok (r, w') ∧
    ∃ L', (.global "a", ⟨true, true, ⟨"set", 0, 1⟩, L'⟩) ∈ recordsOf w'.valueToAccessTypeMap := by
  obtain ⟨r, w', hrun⟩ : ∃ r w', traverseFrom passing {} 12 "main" {} = .ok (r, w') := ⟨_, _, rfl⟩
  obtain ⟨w, w₁, u, u₁, henters, -, hfirst, hvalue, hflag, -⟩ := passing_enters
  have hrecorded := recorded_under_actual rfl passing_verified (passing_acyclic "set") hrun henters
    hflag hfirst (passing_passes rfl) (by rw [hvalue]; rfl) passing_onPath (.store rfl)
    passing_through
  rw [hvalue] at hrecorded
  exact ⟨r, w', hrun, hrecorded⟩

/-- The second call of `set` is answered from the summaries. -/
theorem passing_unrecorded :
    Unrecorded passing "set" {.global "m"} "a" "b" ⟨"set", 0, 1⟩ (.global "b") where
  calls := by
    obtain ⟨w, w₁, u, u₁, hfirst, hsecond, -, -, hflag, hflag'⟩ := passing_enters
    exact ⟨_, _, w, w₁, u, u₁, hfirst, hsecond, hflag, hflag', passing_passes rfl, passing_passes rfl⟩
  value := ⟨by decide, .inr rfl⟩
  access := ⟨passing_onPath, true, _, _, .store rfl, passing_through⟩
  missing := ⟨12, _, _, rfl, fun _ _ => notMem_recordsOf rfl⟩

/-- What resolves to a constant global is left out. -/
theorem reading_unrecorded :
    Unrecorded reading "get" {.global "m"} "k" "a" ⟨"get", 0, 0⟩ (.global "k") where
  calls := by
    have hmain : Reached reading {} (.visit (.function "main" ∅)) {} []
        (.visit (.function "main" ∅)) {} := .start
    have hfirst := ((hmain.body rfl rfl rfl).goOn rfl rfl).head
    have hsecond := (hfirst.resume rfl rfl (traverse_runs (n := 6) rfl)).head
    exact ⟨_, _, _, _, _, _, .mk hfirst rfl rfl, .mk hsecond rfl rfl, rfl, rfl,
      ⟨_, _, _, _, rfl, rfl, .direct rfl, by decide, rfl⟩,
      ⟨_, _, _, _, rfl, rfl, .direct rfl, by decide, rfl⟩⟩
  value := ⟨by decide, .inl rfl⟩
  access := ⟨.entry rfl, false, _, _, .load rfl, .formal⟩
  missing := ⟨12, _, _, rfl, fun _ _ => notMem_recordsOf rfl⟩

/-- The call of `walk` in `walk` is skipped. -/
theorem walking_unrecorded :
    Unrecorded walking "walk" {.global "m"} "a" "b" ⟨"walk", 0, 0⟩ (.global "b") where
  calls := by
    have hmain : Reached walking {} (.visit (.function "main" ∅)) {} []
        (.visit (.function "main" ∅)) {} := .start
    have hfirst := ((hmain.body rfl rfl rfl).goOn rfl rfl).head
    have hload := (hfirst.enter rfl rfl).body rfl rfl rfl
    have hsecond := (hload.goOn rfl rfl).head
    exact ⟨_, _, _, _, _, _, .mk hfirst rfl rfl, .mk hsecond rfl rfl, rfl, rfl,
      ⟨_, _, _, _, rfl, rfl, .direct rfl, by decide, rfl⟩,
      ⟨_, _, _, _, rfl, rfl, .direct rfl, by decide, rfl⟩⟩
  value := ⟨by decide, .inr rfl⟩
  access := ⟨.entry rfl, false, _, _, .load rfl, .formal⟩
  missing := ⟨12, _, _, rfl, fun _ _ => notMem_recordsOf rfl⟩

theorem unrecorded_actuals :
    Unrecorded passing "set" {.global "m"} "a" "b" ⟨"set", 0, 1⟩ (.global "b") ∧
    Unrecorded reading "get" {.global "m"} "k" "a" ⟨"get", 0, 0⟩ (.global "k") ∧
    Unrecorded walking "walk" {.global "m"} "a" "b" ⟨"walk", 0, 0⟩ (.global "b") :=
  ⟨passing_unrecorded, reading_unrecorded, walking_unrecorded⟩

end Lockout.Strator.Actuals
