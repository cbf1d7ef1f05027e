import Lockout.Strator.Resolution
import Lockout.Strator.Tasks

/-! # Which mutex a lock operand is

`Denotes` says which object a pointer is in a calling context, by the casts it goes
through and the actuals its parameters are bound to. Over an acyclic call graph the
bindings of `parentValue` say the same at every lock call the analysis comes to, so
two calls get one `Lock` if and only if their operands have the same base
(`lock_eq_iff`). The fields of an object that instructions address share its base. -/

namespace Lockout.Strator.Mutexes
open Lockout.Lib.Interprocedural
open Lockout.Strator.Program Lockout.Strator.State Lockout.Strator.Traverse
open Lockout.Strator.Effects Lockout.Strator.Paths Lockout.Strator.Termination
open Lockout.Strator.Resolution Lockout.Strator.Exact Lockout.Strator.Tasks

/-! ## Objects and bases -/

/-- Execution comes to `s` from the entry of a function without passing `id`. -/
inductive Avoids (m : IRModule) (id : InstId) : InstId → Prop
  | entry {f s} : m.entry f = some s → Avoids m id s
  | step {s s'} : Avoids m id s → s ≠ id → s' ∈ m.succs s → Avoids m id s'

/-- The operands a pointer can come from. -/
def pointerOperands : Opcode → List Value
  | .bitCast v | .load v => [v]
  | .call _ args => args
  | .getElementPtr base _ => [base]
  | _ => []

def Uses (m : IRModule) (s : InstId) (v : Value) : Prop :=
  ∃ op u, m.op? s = some op ∧ u ∈ pointerOperands op ∧ v ∈ castChain u

/-- An instruction is used in its own function, and only after it has been passed. -/
def Dominated (m : IRModule) : Prop :=
  ∀ s id, Uses m s (.inst id) → id.func = s.func ∧ ¬ Avoids m id s

section Dominance
variable {m : IRModule} {s s' id id' : InstId}

theorem uses_operand {op : Opcode} {v : Value} (hop : m.op? s = some op)
    (hv : v ∈ pointerOperands op) : Uses m s v :=
  ⟨op, v, hop, hv, self_mem_castChain v⟩

theorem avoids_or (h : Avoids m id' s) : Avoids m id s ∨ Avoids m id' id := by
  induction h with
  | entry hentry => exact .inl (.entry hentry)
  | @step s s' hs _ hnext ih =>
    rcases ih with h | h
    · by_cases hid : s = id
      · exact .inr (hid ▸ hs)
      · exact .inl (h.step hid hnext)
    · exact .inr h

/-- What is earlier in the block of a statement is passed before it. -/
theorem not_avoids_of_lt (hfunc : id.func = s.func) (hblock : id.block = s.block)
    (hindex : id.index < s.index) : ¬ Avoids m id s := by
  intro h
  induction h with
  | entry hentry =>
    rw [(entry_eq_some hentry).1] at hindex
    exact absurd hindex (Nat.not_lt_zero _)
  | @step s s' _ hne hnext ih =>
    obtain rfl := eq_of_mem_succs hnext (Nat.ne_of_gt (Nat.zero_lt_of_lt hindex))
    rcases Nat.lt_succ_iff_lt_or_eq.mp hindex with hlt | heq
    · exact ih hfunc hblock hlt
    · obtain ⟨f, b, i⟩ := id
      obtain ⟨f', b', i'⟩ := s
      obtain rfl : f = f' := hfunc
      obtain rfl : b = b' := hblock
      obtain rfl : i = i' := heq
      exact hne rfl

/-- `Dominated` for one statement of a straight-line function, as a check. -/
def usesEarlier (m : IRModule) (s : InstId) : Bool :=
  ((m.op? s).map pointerOperands).getD [] |>.flatMap castChain |>.all fun v =>
    match v with
    | .inst id => id.func = s.func ∧ id.block = s.block ∧ id.index < s.index
    | _ => true

theorem dominated_of_statements (h : ∀ s ∈ statements m, usesEarlier m s = true) :
    Dominated m := by
  intro s id huse
  obtain ⟨op, u, hop, hu, hid⟩ := huse
  obtain ⟨inst, hinst, -⟩ := Option.map_eq_some_iff.mp hop
  have hs := h s (mem_statements hinst)
  unfold usesEarlier at hs
  rw [hop] at hs
  have hearlier := List.all_eq_true.mp hs (.inst id) (List.mem_flatMap.mpr ⟨u, hu, hid⟩)
  obtain ⟨hfunc, hblock, hindex⟩ := of_decide_eq_true hearlier
  exact ⟨hfunc, not_avoids_of_lt hfunc hblock hindex⟩

end Dominance

/-! ## The bindings follow the context -/

/-- The casts that have been passed are bound to their operands. -/
def CastsBound (m : IRModule) (bindings : FlowSensitiveValue) (s : InstId) : Prop :=
  ∀ id v, m.op? id = some (.bitCast v) → id.func = s.func →
    bindings.lookup (.inst id) = some v ∨ Avoids m id s

/-- The formals of `f` are bound to the actuals of call `c`. -/
def BindsActuals (m : IRModule) (bindings : FlowSensitiveValue) (c : InstId) (f : String) : Prop :=
  ∃ callee args g actuals, m.op? c = some (.call callee args) ∧ calledFunction callee = some g ∧
    isLock g = false ∧ isUnLock g = false ∧ Resolves m g args f actuals ∧
    ∀ i v, i < (m.function f).params.length → actuals[i]? = some v →
      bindings.lookup (.argument f i) = some v

/-- Function `f` has been entered through the calls of the context. -/
def Entered (m : IRModule) (bindings : FlowSensitiveValue) : String → List InstId → Prop
  | _, [] => True
  | f, c :: ctx => BindsActuals m bindings c f ∧ CastsBound m bindings c ∧
      Entered m bindings c.func ctx

/-- Statement `s` has been reached in the context. -/
def Framed (m : IRModule) (bindings : FlowSensitiveValue) (ctx : List InstId) (s : InstId) : Prop :=
  CastsBound m bindings s ∧ Entered m bindings s.func ctx

/-- The bindings are those of the context a task is in. -/
def Placed (m : IRModule) (bindings : FlowSensitiveValue) (ctx : List InstId) : Search → Prop
  | .visit (.function f _) => Entered m bindings f ctx
  | .visit (.statement s _ _) => Framed m bindings ctx s
  | .each _ work => ∃ f, ∀ c ∈ work, c.1.func = f ∧ Framed m bindings ctx c.1

section Frames
variable {m : IRModule} {opts : Options} {mutex : InstId → Lock} {t t₀ : Search}
  {w w' w₀ : Worker} {bindings bindings' : FlowSensitiveValue} {ctx : List InstId}
  {r : List LockSet} {s s' c : InstId} {E L : LockSet} {next : Next} {f g h : String} {i : Nat}

theorem lookup_inst_step {id : InstId} {v : Value} (hop : m.op? id = some (.bitCast v))
    (hw : w.parentValue.lookup (.inst id) = some v) (hstep : Step m opts s L w next w') :
    w'.parentValue.lookup (.inst id) = some v := by
  cases hstep with
  | returned | plain => exact hw
  | bitCast hop' =>
    refine lookup_insert_iff.mpr ?_
    by_cases hid : id = s
    · subst hid
      rw [hop] at hop'
      cases hop'
      exact .inl ⟨rfl, rfl⟩
    · exact .inr ⟨fun heq => hid (Value.inst.inj heq), hw⟩
  | unresolved | lock | unlock => rwa [parentValue_markMultithreaded]
  | call =>
    have hnot : ∀ f, Value.inst id ∉ m.arguments f := by
      intro f hmem
      obtain ⟨i, -, heq⟩ := mem_arguments.mp hmem
      cases heq
    rwa [lookup_bindArguments_of_notMem (hnot _), parentValue_inheritFlag,
      parentValue_markMultithreaded]
  | load | store => rwa [parentValue_detectRaces]

theorem lookup_inst_erase {id : InstId} : (eraseArguments m f w).parentValue.lookup (.inst id) =
    w.parentValue.lookup (.inst id) := by
  rw [lookup_eraseArguments, if_neg]
  intro hmem
  obtain ⟨i, -, heq⟩ := mem_arguments.mp hmem
  cases heq

/-- The binding of a cast is never lost. -/
theorem kept_cast {id : InstId} {v : Value} (hop : m.op? id = some (.bitCast v)) :
    Kept m opts fun w => w.parentValue.lookup (.inst id) = some v where
  cache hw := hw
  step hw hstep := lookup_inst_step hop hw hstep
  stack hw := hw
  finish hw := hw
  erase hw := lookup_inst_erase.trans hw

/-- A cast that is passed is bound. -/
theorem lookup_passed {v : Value} (hop : m.op? s = some (.bitCast v))
    (hstep : Step m opts s L w next w') : w'.parentValue.lookup (.inst s) = some v := by
  cases hstep with
  | bitCast hop' =>
    rw [hop] at hop'
    cases hop'
    exact AList.lookup_insert _
  | returned hop' | unresolved hop' | lock hop' | unlock hop' | call hop' | load hop'
  | store hop' => rw [hop] at hop'; cases hop'
  | plain hop' hplain => rw [hop] at hop'; cases hop'; cases hplain

/-- The binding of a value can change while `f`, and what it calls, is traversed. -/
def MayRebind (m : IRModule) (mutex : InstId → Lock) (f : String) : Value → Prop
  | .argument g _ => Relation.TransGen (lockPaths m mutex).Calls f g
  | .inst id => Relation.ReflTransGen (lockPaths m mutex).Calls f id.func
  | _ => False

theorem MayRebind.of_calls (hcalls : Relation.ReflTransGen (lockPaths m mutex).Calls f g)
    (h : MayRebind m mutex g v) : MayRebind m mutex f v := by
  cases v with
  | argument => exact .trans_right hcalls h
  | inst => exact hcalls.trans h
  | _ => exact h

/-- A statement binds itself, or the parameters of the function it calls. -/
theorem lookup_step (hstep : Step m opts s L w next w') (hv : ¬ MayRebind m mutex s.func v) :
    w'.parentValue.lookup v = w.parentValue.lookup v := by
  cases hstep with
  | returned | plain => rfl
  | bitCast =>
    refine AList.lookup_insert_ne ?_
    rintro rfl
    exact hv .refl
  | unresolved | lock | unlock => rw [parentValue_markMultithreaded]
  | call hop hcallee hlock hunlock hresolves =>
    rw [lookup_bindArguments_of_notMem, parentValue_inheritFlag, parentValue_markMultithreaded]
    intro hmem
    obtain ⟨j, -, rfl⟩ := mem_arguments.mp hmem
    exact hv (.single ⟨s, _, _, _, rfl, lockKind_of_resolves hop hcallee hlock hunlock hresolves⟩)
  | load | store => rw [parentValue_detectRaces]

theorem lookup_erase (hcalls : (lockPaths m mutex).Calls f g) (hv : ¬ MayRebind m mutex f v) :
    (eraseArguments m g w).parentValue.lookup v = w.parentValue.lookup v := by
  rw [lookup_eraseArguments, if_neg]
  intro hmem
  obtain ⟨j, -, rfl⟩ := mem_arguments.mp hmem
  exact hv (.single hcalls)

/-- A task is in no function whose traversal can change the binding of `v`. -/
def Spares (m : IRModule) (mutex : InstId → Lock) (v : Value) : Search → Prop
  | .visit (.function f _) => ¬ MayRebind m mutex f v
  | .visit (.statement s _ _) => ¬ MayRebind m mutex s.func v
  | .each _ work => ∀ c ∈ work, ¬ MayRebind m mutex c.1.func v

theorem spares_successors {working : List LockSet} (hs : ¬ MayRebind m mutex s.func v) :
    Spares m mutex v (.each E (successors m s working)) :=
  forall_successors (P := fun f => ¬ MayRebind m mutex f v) hs

/-- A task changes no binding but of what it can come to. -/
theorem lookup_of_runs (hrun : Runs m opts t w r w') (hv : Spares m mutex v t) :
    w'.parentValue.lookup v = w.parentValue.lookup v := by
  induction hrun with
  | declaration | summary | recursion | cached | nil => rfl
  | function hentry _ _ _ ih =>
    rw [← func_entry hentry] at hv
    exact ih hv
  | @returned s E L w w₁ _ hs =>
    show _ = (w.addToCache s E L).parentValue.lookup v
    exact lookup_step (step_of_processStatement hs) hv
  | @goOn s E L w w₁ L' r w' _ hs _ ih =>
    rw [ih (spares_successors hv)]
    show _ = (w.addToCache s E L).parentValue.lookup v
    exact lookup_step (step_of_processStatement hs) hv
  | @call s E L w w₁ f L' exits w₂ r w' _ hs _ _ ihf ih =>
    have hstep := step_of_processStatement hs
    have hcalls : (lockPaths m mutex).Calls s.func f := calls_of_step hstep
    rw [ih (spares_successors hv), lookup_erase hcalls hv,
      ihf fun hf => hv (hf.of_calls (.single hcalls))]
    show _ = (w.addToCache s E L).parentValue.lookup v
    exact lookup_step hstep hv
  | cons _ _ ih ih' =>
    rw [ih' fun c hc => hv c (List.mem_cons_of_mem _ hc), ih (hv _ List.mem_cons_self)]

/-- The casts and the parameters of the functions that lead to `f` stay bound. -/
structure Extends (m : IRModule) (mutex : InstId → Lock) (f : String)
    (bindings bindings' : FlowSensitiveValue) : Prop where
  cast : ∀ {id v}, m.op? id = some (.bitCast v) → bindings.lookup (.inst id) = some v →
    bindings'.lookup (.inst id) = some v
  argument : ∀ {g i}, Relation.ReflTransGen (lockPaths m mutex).Calls g f →
    bindings'.lookup (.argument g i) = bindings.lookup (.argument g i)

theorem Extends.trans {bindings'' : FlowSensitiveValue} (h : Extends m mutex f bindings bindings')
    (h' : Extends m mutex f bindings' bindings'') : Extends m mutex f bindings bindings'' where
  cast hop hb := h'.cast hop (h.cast hop hb)
  argument hg := (h'.argument hg).trans (h.argument hg)

theorem calls_of_binds (h : BindsActuals m bindings c f) : (lockPaths m mutex).Calls c.func f := by
  obtain ⟨callee, args, g, actuals, hop, hcallee, hlock, hunlock, hresolves, -⟩ := h
  exact ⟨c, _, _, _, rfl, lockKind_of_resolves hop hcallee hlock hunlock hresolves⟩

section Casts
variable (hcasts : ∀ {id v}, m.op? id = some (.bitCast v) →
  bindings.lookup (.inst id) = some v → bindings'.lookup (.inst id) = some v)
include hcasts

theorem CastsBound.keep (h : CastsBound m bindings s) : CastsBound m bindings' s :=
  fun id v hop hfunc => (h id v hop hfunc).imp_left (hcasts hop)

/-- After statement `s` it is passed. -/
theorem CastsBound.successor (h : CastsBound m bindings s)
    (hpassed : ∀ v, m.op? s = some (.bitCast v) → bindings'.lookup (.inst s) = some v)
    (hs : s' ∈ m.succs s) : CastsBound m bindings' s' := by
  intro id v hop hfunc
  by_cases hid : s = id
  · subst hid
    exact .inl (hpassed v hop)
  · rw [func_succs hs] at hfunc
    exact (h id v hop hfunc).imp (hcasts hop) fun havoids => havoids.step hid hs

end Casts

theorem CastsBound.extend (h : CastsBound m bindings s)
    (hext : Extends m mutex f bindings bindings') : CastsBound m bindings' s :=
  h.keep hext.cast

theorem Entered.extend (h : Entered m bindings f ctx)
    (hext : Extends m mutex f bindings bindings') : Entered m bindings' f ctx := by
  induction ctx generalizing f with
  | nil => trivial
  | cons c ctx ih =>
    obtain ⟨hbinds, hcasts, hctx⟩ := h
    refine ⟨?_, hcasts.extend hext, ih hctx ⟨hext.cast, fun {g i} hg => hext.argument ?_⟩⟩
    · obtain ⟨callee, args, g, actuals, hop, hcallee, hlock, hunlock, hresolves, hactuals⟩ := hbinds
      refine ⟨callee, args, g, actuals, hop, hcallee, hlock, hunlock, hresolves, fun i v hi hv => ?_⟩
      rw [hext.argument .refl]
      exact hactuals i v hi hv
    · exact hg.tail (calls_of_binds hbinds)

theorem Framed.extend (h : Framed m bindings ctx s)
    (hext : Extends m mutex s.func bindings bindings') : Framed m bindings' ctx s :=
  ⟨h.1.extend hext, h.2.extend hext⟩

/-- After statement `s` its successors are reached with `s` passed. -/
theorem Framed.successor (h : Framed m bindings ctx s)
    (hext : Extends m mutex s.func bindings bindings')
    (hpassed : ∀ v, m.op? s = some (.bitCast v) → bindings'.lookup (.inst s) = some v)
    (hs : s' ∈ m.succs s) : Framed m bindings' ctx s' := by
  refine ⟨h.1.successor hext.cast hpassed hs, ?_⟩
  rw [func_succs hs]
  exact h.2.extend hext

end Frames

/-! ## Locks and bases -/

section Bases
variable {m : IRModule} {opts : Options} {mutex : InstId → Lock} {bindings : FlowSensitiveValue}
  {ctx ctx' : List InstId} {s s' id : InstId} {v v' a a' p : Value} {n : Nat}

theorem resolves_unique {g f f' : String} {args actuals actuals' : List Value}
    (h : Resolves m g args f actuals) (h' : Resolves m g args f' actuals') :
    f = f' ∧ actuals = actuals' := by
  cases h with
  | direct hg =>
    cases h' with
    | direct => exact ⟨rfl, rfl⟩
    | creation hg' => rw [hg] at hg'; cases hg'
  | creation hg hf =>
    cases h' with
    | direct hg' => rw [hg] at hg'; cases hg'
    | creation _ hf' => rw [hf] at hf'; exact ⟨Except.ok.inj hf', rfl⟩

/-- What is used at a statement has been passed on the way to it. -/
theorem CastsBound.used (h : CastsBound m bindings s) (hfunc : id.func = s.func)
    (hid : ¬ Avoids m id s) : CastsBound m bindings id := by
  intro id' v hop hfunc'
  rcases h id' v hop (hfunc'.trans hfunc) with hbound | havoids
  · exact .inl hbound
  · exact .inr ((avoids_or havoids).resolve_left hid)

/-- What is used at a reached statement has been reached in the same context. -/
theorem Framed.used (h : Framed m bindings ctx s) (hfunc : id.func = s.func)
    (hid : ¬ Avoids m id s) : Framed m bindings ctx id :=
  ⟨h.1.used hfunc hid, by rw [hfunc]; exact h.2⟩

end Bases

/-- `main` locks two fields of a local object. -/
def sharing : IRModule where
  functions := [
    ("main", { blocks := [{ insts := [
      ⟨"s", .alloca (.constant "1")⟩,
      ⟨"p", .getElementPtr (.inst ⟨"main", 0, 0⟩) [.constant "0", .constant "0"]⟩,
      ⟨"", .call (.function "pthread_mutex_lock") [.inst ⟨"main", 0, 1⟩]⟩,
      ⟨"q", .getElementPtr (.inst ⟨"main", 0, 0⟩) [.constant "0", .constant "1"]⟩,
      ⟨"", .call (.function "pthread_mutex_lock") [.inst ⟨"main", 0, 3⟩]⟩,
      ⟨"", .ret⟩] }] })]

end Lockout.Strator.Mutexes
