import Mathlib.Order.CompletePartialOrder
import Lockout.Strator.Resolution
import Lockout.Strator.Termination

/-! # What a traversal depends on

The functions a traversal can enter are a territory: all that its functions call or
start as threads, as far as they have a body. A traversal within a territory reads and
changes only what a worker keeps about these functions. Here is what each change of the
state does to two states that agree there (`SameOn`), and to another territory. -/

namespace Lockout.Strator.Territories
open Lockout.Strator.Program Lockout.Strator.State Lockout.Strator.Traverse
open Lockout.Strator.Effects Lockout.Strator.Resolution Lockout.Strator.Termination

/-! ## Territories -/

/-- A statement of `f` calls `g`, or starts it as a thread. -/
inductive Uses (m : IRModule) (f : String) : String → Prop
  | callee {s callee args g} : s.func = f → m.op? s = some (.call callee args) →
      calledFunction callee = some g → Uses m f g
  | enters {s callee args g h actuals} : s.func = f → m.op? s = some (.call callee args) →
      calledFunction callee = some g → Resolves m g args h actuals → Uses m f h

structure Territory (m : IRModule) where
  mem : Set String
  body : ∀ {f}, f ∈ mem → m.entry f ≠ none
  closed : ∀ {f g}, f ∈ mem → Uses m f g → m.entry g ≠ none → g ∈ mem

/-- The functions with a body that the traversal of `root` can come to. -/
def territoryOf (m : IRModule) (root : String) : Territory m where
  mem := {f | m.entry f ≠ none ∧ Relation.ReflTransGen (Uses m) root f}
  body h := h.1
  closed h huses hbody := ⟨hbody, h.2.tail huses⟩

/-- The function a local value belongs to. -/
def home : Value → Option String
  | .inst id => some id.func
  | .argument f _ => some f
  | _ => none

/-- A value that is global or belongs to a function of the territory. -/
def Territory.Owns {m : IRModule} (T : Territory m) (v : Value) : Prop :=
  ∀ f, home v = some f → f ∈ T.mem

/-- So is everything the value is a cast of. -/
def Territory.OwnsChain {m : IRModule} (T : Territory m) (v : Value) : Prop :=
  ∀ u ∈ castChain v, T.Owns u

/-- Every local value is an operand in its own function only. -/
def Local (m : IRModule) : Prop :=
  ∀ {s op v u f}, m.op? s = some op → v ∈ op.operands → u ∈ castChain v → home u = some f →
    f = s.func

/-- What the workers `w` and `u` keep about a territory is the same. -/
structure SameOn {m : IRModule} (T : Territory m) (w u : Worker) : Prop where
  functionCache : ∀ f ∈ T.mem, w.functionCache f = u.functionCache f
  onStack : ∀ f ∈ T.mem, w.onStack f = u.onStack f
  statementCache : ∀ s, s.func ∈ T.mem → w.statementCache s = u.statementCache s
  flags : ∀ f ∈ T.mem, w.multithreadedFunctionMap f = u.multithreadedFunctionMap f
  callers : ∀ f ∈ T.mem, w.currentCaller (some f) = u.currentCaller (some f)
  api : ∀ f ∈ T.mem, .function f ∈ w.multithreadedAPISet ↔ .function f ∈ u.multithreadedAPISet
  bindings : ∀ v, T.Owns v → w.parentValue.lookup v = u.parentValue.lookup v

/-- What a worker keeps about a territory stays within it. -/
structure Settled {m : IRModule} (T : Territory m) (w : Worker) : Prop where
  callers : ∀ f ∈ T.mem, ∀ c, w.currentCaller (some f) = some c → c ∈ T.mem
  bindings : ∀ v p, T.Owns v → w.parentValue.lookup v = some p → T.OwnsChain p
  /-- Only functions with a body are made multithreaded APIs. -/
  apis : ∀ v ∈ w.multithreadedAPISet, ∃ f, v = .function f ∧ m.entry f ≠ none

section Congruence
variable {m : IRModule} {T : Territory m} {w u u' : Worker} {s : InstId} {E L : LockSet}
  {f g : String} {v p : Value} {r : List LockSet} {opts : Options}

theorem SameOn.refl : SameOn T w w where
  functionCache _ _ := rfl
  onStack _ _ := rfl
  statementCache _ _ := rfl
  flags _ _ := rfl
  callers _ _ := rfl
  api _ _ := Iff.rfl
  bindings _ _ := rfl

theorem SameOn.symm (h : SameOn T w u) : SameOn T u w where
  functionCache f hf := (h.functionCache f hf).symm
  onStack f hf := (h.onStack f hf).symm
  statementCache s hs := (h.statementCache s hs).symm
  flags f hf := (h.flags f hf).symm
  callers f hf := (h.callers f hf).symm
  api f hf := (h.api f hf).symm
  bindings v hv := (h.bindings v hv).symm

theorem SameOn.trans (h : SameOn T w u) (h' : SameOn T u u') : SameOn T w u' where
  functionCache f hf := (h.functionCache f hf).trans (h'.functionCache f hf)
  onStack f hf := (h.onStack f hf).trans (h'.onStack f hf)
  statementCache s hs := (h.statementCache s hs).trans (h'.statementCache s hs)
  flags f hf := (h.flags f hf).trans (h'.flags f hf)
  callers f hf := (h.callers f hf).trans (h'.callers f hf)
  api f hf := (h.api f hf).trans (h'.api f hf)
  bindings v hv := (h.bindings v hv).trans (h'.bindings v hv)

theorem SameOn.addToCache (h : SameOn T w u) :
    SameOn T (w.addToCache s E L) (u.addToCache s E L) := by
  refine { h with statementCache := fun s' hs' => ?_ }
  unfold Worker.addToCache
  simp only [Function.update_apply]
  split
  · rename_i heq
    rw [h.statementCache s (heq ▸ hs')]
  · exact h.statementCache s' hs'

theorem SameOn.setOnStack {b : Bool} (h : SameOn T w u) :
    SameOn T (w.setOnStack f b) (u.setOnStack f b) := by
  refine { h with onStack := fun g hg => ?_ }
  simp [Worker.setOnStack, Function.update_apply, h.onStack g hg]

theorem SameOn.finishFunction (h : SameOn T w u) :
    SameOn T (finishFunction f L r w) (finishFunction f L r u) := by
  refine { h with functionCache := fun g hg => ?_, onStack := fun g hg => ?_ }
  · rw [functionCache_finishFunction, functionCache_finishFunction]
    split
    · rename_i heq
      rw [h.functionCache f (heq ▸ hg)]
    · exact h.functionCache g hg
  · rw [onStack_finishFunction, onStack_finishFunction, h.onStack g hg]

theorem SameOn.noteCaller {c : Option String} (h : SameOn T w u) :
    SameOn T (noteCaller opts s c w) (noteCaller opts s c u) := by
  unfold State.noteCaller
  split
  · refine { h with callers := fun g hg => ?_ }
    simp [Worker.setCurrentCaller, Function.update_apply, h.callers g hg]
  · exact h

theorem SameOn.setMultithreaded (h : SameOn T w u) :
    SameOn T (w.setMultithreaded f) (u.setMultithreaded f) := by
  refine { h with flags := fun g hg => ?_ }
  simp [Worker.setMultithreaded, Function.update_apply, h.flags g hg]

theorem SameOn.startTask (h : SameOn T w u) : SameOn T (w.startTask f) (u.startTask f) := by
  refine { h with flags := fun g hg => ?_ }
  simp [Worker.startTask, Function.update_apply, h.flags g hg]

theorem SameOn.addAPI (h : SameOn T w u) : SameOn T (w.addAPI f) (u.addAPI f) := by
  refine { h with api := fun g hg => ?_ }
  simp [Worker.addAPI, h.api g hg]

theorem SameOn.setParentValue (h : SameOn T w u) :
    SameOn T (w.setParentValue v p) (u.setParentValue v p) := by
  refine { h with bindings := fun v' hv' => ?_ }
  by_cases heq : v' = v
  · subst heq
    simp [Worker.setParentValue]
  · simp [Worker.setParentValue, AList.lookup_insert_ne heq, h.bindings v' hv']

theorem SameOn.bindArguments {actuals : List Value} (h : SameOn T w u) :
    SameOn T (bindArguments m f actuals w) (bindArguments m f actuals u) := by
  unfold State.bindArguments
  generalize (m.arguments f).zip actuals = bindings
  induction bindings generalizing w u with
  | nil => exact h
  | cons b bindings ih => exact ih h.setParentValue

theorem SameOn.eraseArguments (h : SameOn T w u) :
    SameOn T (eraseArguments m f w) (eraseArguments m f u) := by
  refine { h with bindings := fun v hv => ?_ }
  rw [lookup_eraseArguments, lookup_eraseArguments, h.bindings v hv]

theorem SameOn.inheritFlag (h : SameOn T w u) (hs : s.func ∈ T.mem) :
    SameOn T (inheritFlag s f w) (inheritFlag s f u) := by
  unfold State.inheritFlag
  rw [h.flags s.func hs]
  split
  · exact h.setMultithreaded
  · exact h

end Congruence

/-! ## Values of a territory -/

section Values
variable {m : IRModule} {T : Territory m} {w u : Worker} {s : InstId} {opts : Options}
  {v : Value} {args : List Value} {op : Opcode}

theorem castChain_castOperand : castChain (castOperand v) ⊆ castChain v := by
  cases v with
  | constCast ty operand => exact List.subset_cons_self _ _
  | _ => exact List.Subset.refl _

theorem Territory.OwnsChain.owns (h : T.OwnsChain v) : T.Owns v := h v (self_mem_castChain v)

/-- `Local`, as a check of every statement. -/
theorem local_of_statements (h : ∀ s ∈ statements m,
    ∀ v ∈ ((m.op? s).map Opcode.operands).getD [], ∀ u ∈ castChain v,
      home u = none ∨ home u = some s.func) : Local m := by
  intro s op v u f hop hv hu hf
  obtain ⟨inst, hinst, -⟩ := Option.map_eq_some_iff.mp hop
  have hs := h s (mem_statements hinst) v (by rw [hop]; exact hv) u hu
  rw [hf] at hs
  rcases hs with hs | hs
  · cases hs
  · exact Option.some.inj hs

theorem ownsChain_operand (hlocal : Local m) (hs : s.func ∈ T.mem) (hop : m.op? s = some op)
    (hv : v ∈ op.operands) : T.OwnsChain v := by
  intro u hu f hf
  rw [hlocal hop hv hu hf]
  exact hs

theorem ownsChain_args {callee : Value} (hlocal : Local m) (hs : s.func ∈ T.mem)
    (hop : m.op? s = some (.call callee args)) : ∀ v ∈ args, T.OwnsChain v := fun _ hv =>
  ownsChain_operand hlocal hs hop (List.mem_append_left _ hv)

/-- What a value of the territory resolves to stays in the territory. -/
theorem encloses_ownsChain (hw : Settled T w) : Encloses w.parentValue T.OwnsChain where
  cast hv := fun x hx => hv x (castChain_castOperand hx)
  binding hv hp := hw.bindings _ _ hv.owns hp

theorem getDefOperand_congr (h : SameOn T w u) (hw : Settled T w) (hv : T.OwnsChain v) :
    getDefOperand opts w.parentValue v = getDefOperand opts u.parentValue v :=
  getDefOperand_agree (encloses_ownsChain hw) (fun v hv => (h.bindings v hv.owns).symm) hv

theorem ownsChain_firstOperand (hlocal : Local m) {id : InstId} (hid : T.Owns (.inst id))
    (h : firstOperand m (.inst id) = some v) : T.OwnsChain v := by
  obtain ⟨op, hop, hhead⟩ := Option.bind_eq_some_iff.mp h
  exact ownsChain_operand hlocal (hid id.func rfl) hop (List.mem_of_head? hhead)

theorem getLockValue_congr (h : SameOn T w u) (hw : Settled T w) (hlocal : Local m)
    (hargs : ∀ v ∈ args, T.OwnsChain v) :
    getLockValue m opts w.parentValue args = getLockValue m opts u.parentValue args := by
  fun_cases getLockValue m opts w.parentValue args with
  | case1 id operand hfirst =>
    have hid : T.Owns (.inst id) := (hargs _ List.mem_cons_self).owns
    simp only [getLockValue, hfirst]
    rw [getDefOperand_congr h hw (ownsChain_firstOperand hlocal hid hfirst)]
  | case2 id hfirst => simp only [getLockValue, hfirst]
  | case3 name => rfl
  | case4 base indices =>
    simp only [getLockValue]
    rw [getDefOperand_congr h hw (hargs _ List.mem_cons_self)]
  | case5 operand => simp only [getLockValue]
  | case6 => simp only [getLockValue]

end Values

/-! ## One statement -/

section Steps
variable {m : IRModule} {T : Territory m} {w w' u u' : Worker} {s : InstId} {E L : LockSet}
  {opts : Options} {callee pointer : Value} {args actuals : List Value} {f g : String} {next : Next}
  {isStore : Bool}

theorem Settled.noteCaller {c : Option String} (hw : Settled T w) (hs : s.func ∈ T.mem) :
    Settled T (noteCaller opts s c w) := by
  unfold State.noteCaller
  split
  · refine { hw with callers := fun f hf caller hcaller => ?_ }
    simp only [Worker.setCurrentCaller, Function.update_apply] at hcaller
    split at hcaller
    · cases hcaller
      exact hs
    · exact hw.callers f hf caller hcaller
  · exact hw

theorem Settled.addAPI (hw : Settled T w) (hf : f ∈ T.mem) : Settled T (w.addAPI f) := by
  refine { hw with apis := fun v hv => ?_ }
  rcases Finset.mem_insert.mp hv with rfl | hv
  · exact ⟨f, rfl, T.body hf⟩
  · exact hw.apis v hv

theorem Settled.propagateUpward {n : Nat} {c : Option String} (hw : Settled T w)
    (hc : ∀ f, w.currentCaller c = some f → f ∈ T.mem) : Settled T (propagateUpward n c w) := by
  induction n generalizing c w with
  | zero => exact hw
  | succ n ih =>
    unfold State.propagateUpward
    cases hcaller : w.currentCaller c with
    | none => exact hw
    | some caller =>
      have hmem := hc caller hcaller
      have hnext : Settled T ((w.addAPI caller).setMultithreaded caller) :=
        { hw.addAPI hmem with }
      exact ih hnext (hw.callers caller hmem)

theorem Settled.detectRaces (hw : Settled T w) :
    Settled T (detectRaces m opts s isStore pointer L w) := by
  unfold State.detectRaces
  dsimp only
  split
  · exact { hw with }
  · split
    · exact { hw with }
    · exact { hw with }

/-- The caller of the function that is called is known where it is propagated to. -/
theorem currentCaller_noteCaller {c : Option String} (hlevel : opts.upwardPropagationLevel ≠ 0) :
    (noteCaller opts s c w).currentCaller c = some s.func := by
  unfold State.noteCaller
  rw [if_pos hlevel]
  exact Function.update_self ..

/-- The callers from `c` on are the same, and functions of the territory. -/
theorem SameOn.propagateUpward {n : Nat} {c : Option String} (h : SameOn T w u)
    (hw : Settled T w) (hsame : w.currentCaller c = u.currentCaller c)
    (hc : ∀ f, w.currentCaller c = some f → f ∈ T.mem) :
    SameOn T (propagateUpward n c w) (propagateUpward n c u) := by
  induction n generalizing c w u with
  | zero => exact h
  | succ n ih =>
    unfold State.propagateUpward
    rw [← hsame]
    cases hcaller : w.currentCaller c with
    | none => exact h
    | some caller =>
      have hmem := hc caller hcaller
      have hnext : Settled T ((w.addAPI caller).setMultithreaded caller) :=
        { hw.addAPI hmem with }
      exact ih h.addAPI.setMultithreaded hnext (h.callers caller hmem) (hw.callers caller hmem)

/-- So what is made multithreaded upward from a call are functions of the territory. -/
theorem callers_of_noteCaller (hlevel : opts.upwardPropagationLevel ≠ 0) (hs : s.func ∈ T.mem)
    {c : Option String} : ∀ f, ((noteCaller opts s c w).setMultithreaded s.func).currentCaller c =
      some f → f ∈ T.mem := by
  intro f hf
  cases (currentCaller_noteCaller hlevel).symm.trans hf
  exact hs

theorem mem_apiSet_congr (h : SameOn T w u) (hw : Settled T w) (hu : Settled T u)
    (hs : s.func ∈ T.mem) (hop : m.op? s = some (.call callee args)) :
    callee ∈ w.multithreadedAPISet ↔ callee ∈ u.multithreadedAPISet := by
  by_cases hcallee : ∃ g, callee = .function g ∧ m.entry g ≠ none
  · obtain ⟨g, rfl, hbody⟩ := hcallee
    exact h.api g (T.closed hs (.callee rfl hop rfl) hbody)
  · exact ⟨fun hmem => absurd (hw.apis callee hmem) hcallee,
      fun hmem => absurd (hu.apis callee hmem) hcallee⟩

theorem isMultiThreadedAPI_congr (h : SameOn T w u) (hw : Settled T w) (hu : Settled T u)
    (hs : s.func ∈ T.mem) (hop : m.op? s = some (.call callee args)) :
    isMultiThreadedAPI m opts w callee = isMultiThreadedAPI m opts u callee := by
  simp only [isMultiThreadedAPI, mem_apiSet_congr h hw hu hs hop]

theorem SameOn.markMultithreaded (h : SameOn T w u) (hw : Settled T w) (hu : Settled T u)
    (hs : s.func ∈ T.mem) (hop : m.op? s = some (.call callee args)) :
    SameOn T (markMultithreaded m opts s callee w) (markMultithreaded m opts s callee u) := by
  have hnote : SameOn T (State.noteCaller opts s (calledFunction callee) w)
      (State.noteCaller opts s (calledFunction callee) u) := h.noteCaller
  unfold State.markMultithreaded
  dsimp only
  rw [isMultiThreadedAPI_congr hnote (hw.noteCaller hs) (hu.noteCaller hs) hs hop]
  split
  · by_cases hlevel : opts.upwardPropagationLevel = 0
    · rw [hlevel]
      exact hnote.setMultithreaded
    · refine hnote.setMultithreaded.propagateUpward { hw.noteCaller hs with } ?_
        (callers_of_noteCaller hlevel hs)
      exact (currentCaller_noteCaller hlevel).trans (currentCaller_noteCaller hlevel).symm
  · exact hnote

theorem Settled.markMultithreaded (hw : Settled T w) (hs : s.func ∈ T.mem) :
    Settled T (markMultithreaded m opts s callee w) := by
  have hnote : Settled T (State.noteCaller opts s (calledFunction callee) w) := hw.noteCaller hs
  unfold State.markMultithreaded
  dsimp only
  split
  · by_cases hlevel : opts.upwardPropagationLevel = 0
    · rw [hlevel]
      exact { hnote with }
    · exact Settled.propagateUpward { hnote with } (callers_of_noteCaller hlevel hs)
  · exact hnote

theorem Settled.inheritFlag (hw : Settled T w) : Settled T (inheritFlag s f w) := by
  unfold State.inheritFlag
  split
  · exact { hw with }
  · exact hw

theorem Settled.eraseArguments (hw : Settled T w) : Settled T (eraseArguments m f w) := by
  refine { hw with bindings := fun v p hv hp => ?_ }
  rw [lookup_eraseArguments] at hp
  split at hp
  · cases hp
  · exact hw.bindings v p hv hp

theorem mem_territory_of_argument {v : Value} (hv : T.Owns v) (h : v ∈ m.arguments f) :
    f ∈ T.mem := by
  obtain ⟨i, -, rfl⟩ := mem_arguments.mp h
  exact hv f rfl

theorem Settled.bindArguments (hw : Settled T w) (hactuals : ∀ v ∈ actuals, T.OwnsChain v) :
    Settled T (bindArguments m f actuals w) := by
  have hbindings : ∀ v p, T.Owns v →
      (State.bindArguments m f actuals w).parentValue.lookup v = some p → T.OwnsChain p := by
    intro v p hv hp
    rcases lookup_bindArguments_eq_some hp with ⟨i, -, hi⟩ | hp
    · exact hactuals p (List.mem_of_getElem? hi)
    · exact hw.bindings v p hv hp
  obtain ⟨bindings, heq⟩ := @bindArguments_eq m w f actuals
  rw [heq] at hbindings ⊢
  exact { hw with bindings := hbindings }

theorem ownsChain_actuals (hresolves : Resolves m g args f actuals)
    (hargs : ∀ v ∈ args, T.OwnsChain v) : ∀ v ∈ actuals, T.OwnsChain v :=
  fun v hv => hargs v (hresolves.subset hv)

/-- One statement of the territory leaves what is kept about it within it. -/
theorem Settled.step (hlocal : Local m) (hs : s.func ∈ T.mem) (hw : Settled T w)
    (h : Step m opts s L w next w') : Settled T w' := by
  cases h with
  | returned | plain => exact hw
  | bitCast hop =>
    refine { hw with bindings := fun v p hv hp => ?_ }
    rcases lookup_insert_iff.mp hp with ⟨-, rfl⟩ | ⟨-, hp⟩
    · exact ownsChain_operand hlocal hs hop List.mem_cons_self
    · exact hw.bindings v p hv hp
  | unresolved | lock | unlock => exact hw.markMultithreaded hs
  | call hop _ _ _ hresolves =>
    exact (hw.markMultithreaded hs).inheritFlag.bindArguments
      (ownsChain_actuals hresolves (ownsChain_args hlocal hs hop))
  | load | store => exact hw.detectRaces

theorem sameOn_detectRaces : SameOn T w (detectRaces m opts s isStore pointer L w) := by
  have hsame : SameOn T w w := .refl
  unfold detectRaces
  dsimp only
  split
  · exact { hsame with }
  · split
    · exact { hsame with }
    · exact { hsame with }

theorem SameOn.detectRaces (h : SameOn T w u) :
    SameOn T (detectRaces m opts s isStore pointer L w) (detectRaces m opts s isStore pointer L u) :=
  (sameOn_detectRaces.symm.trans h).trans sameOn_detectRaces

end Steps

/-! ## Other territories -/

section Frames
variable {m : IRModule} {T T' : Territory m} {w w' : Worker} {s : InstId} {E L : LockSet}
  {opts : Options} {callee : Value} {args actuals : List Value} {f g : String} {next : Next}

/-- What a function of one territory uses is not in another that is disjoint. -/
theorem notMem_of_uses (hdisj : Disjoint T.mem T'.mem) (hf : f ∈ T.mem) (h : Uses m f g) :
    g ∉ T'.mem := fun hg =>
  Set.disjoint_left.mp hdisj (T.closed hf h (T'.body hg)) hg

theorem sameOn_addToCache (hs : s.func ∉ T.mem) : SameOn T w (w.addToCache s E L) := by
  refine { @SameOn.refl m T w with statementCache := fun s' hs' => ?_ }
  have hne : s' ≠ s := fun h => hs (h ▸ hs')
  exact (Function.update_of_ne hne _ _).symm

/-- An update at one function is none at the functions of a territory without it. -/
theorem update_of_notMem {α : Type} {state : String → α} {x : α} (hf : f ∉ T.mem) :
    ∀ g ∈ T.mem, state g = Function.update state f x g := by
  intro g hg
  have hne : g ≠ f := fun h => hf (h ▸ hg)
  exact (Function.update_of_ne hne _ _).symm

theorem sameOn_setOnStack {b : Bool} (hf : f ∉ T.mem) : SameOn T w (w.setOnStack f b) :=
  { @SameOn.refl m T w with onStack := update_of_notMem hf }

theorem sameOn_finishFunction {r : List LockSet} (hf : f ∉ T.mem) :
    SameOn T w (finishFunction f L r w) :=
  { @SameOn.refl m T w with
    functionCache := update_of_notMem hf
    onStack := update_of_notMem hf }

theorem sameOn_setMultithreaded (hf : f ∉ T.mem) : SameOn T w (w.setMultithreaded f) :=
  { @SameOn.refl m T w with flags := update_of_notMem hf }

theorem sameOn_startTask (hf : f ∉ T.mem) : SameOn T w (w.startTask f) :=
  { @SameOn.refl m T w with flags := update_of_notMem hf }

theorem sameOn_addAPI (hf : f ∉ T.mem) : SameOn T w (w.addAPI f) := by
  refine { @SameOn.refl m T w with api := fun g hg => ?_ }
  have hne : g ≠ f := fun h => hf (h ▸ hg)
  simp [Worker.addAPI, hne]

theorem sameOn_noteCaller {c : Option String} (hc : ∀ g, c = some g → g ∉ T.mem) :
    SameOn T w (noteCaller opts s c w) := by
  unfold noteCaller
  split
  · refine { @SameOn.refl m T w with callers := fun g hg => ?_ }
    exact (Function.update_of_ne (fun h => hc g h.symm hg) _ _).symm
  · exact .refl

theorem sameOn_propagateUpward (hdisj : Disjoint T.mem T'.mem) {n : Nat} {c : Option String}
    (hw : Settled T w) (hc : ∀ f, w.currentCaller c = some f → f ∈ T.mem) :
    SameOn T' w (propagateUpward n c w) := by
  induction n generalizing c w with
  | zero => exact .refl
  | succ n ih =>
    unfold propagateUpward
    cases hcaller : w.currentCaller c with
    | none => exact .refl
    | some caller =>
      have hmem := hc caller hcaller
      have hnot : caller ∉ T'.mem := Set.disjoint_left.mp hdisj hmem
      have hnext : Settled T ((w.addAPI caller).setMultithreaded caller) :=
        { hw.addAPI hmem with }
      have hmark := (sameOn_addAPI hnot).trans (sameOn_setMultithreaded (w := w.addAPI caller) hnot)
      exact hmark.trans (ih hnext (hw.callers caller hmem))

theorem sameOn_markMultithreaded (hdisj : Disjoint T.mem T'.mem) (hw : Settled T w)
    (hs : s.func ∈ T.mem) (hop : m.op? s = some (.call callee args)) :
    SameOn T' w (markMultithreaded m opts s callee w) := by
  have hnote : SameOn T' w (noteCaller opts s (calledFunction callee) w) :=
    sameOn_noteCaller fun g hg => notMem_of_uses hdisj hs (.callee rfl hop hg)
  have hnot : s.func ∉ T'.mem := Set.disjoint_left.mp hdisj hs
  unfold markMultithreaded
  dsimp only
  split
  · refine (hnote.trans (sameOn_setMultithreaded hnot)).trans ?_
    by_cases hlevel : opts.upwardPropagationLevel = 0
    · rw [hlevel]
      exact .refl
    · exact sameOn_propagateUpward hdisj { hw.noteCaller hs with }
        (callers_of_noteCaller hlevel hs)
  · exact hnote

theorem sameOn_inheritFlag (hf : f ∉ T.mem) : SameOn T w (inheritFlag s f w) := by
  unfold inheritFlag
  split
  · exact sameOn_setMultithreaded hf
  · exact .refl

theorem sameOn_bindArguments (hf : f ∉ T.mem) : SameOn T w (bindArguments m f actuals w) := by
  have hbindings : ∀ v, T.Owns v →
      w.parentValue.lookup v = (bindArguments m f actuals w).parentValue.lookup v := fun v hv =>
    (lookup_bindArguments_of_notMem fun hmem => hf (mem_territory_of_argument hv hmem)).symm
  obtain ⟨bindings, heq⟩ := @bindArguments_eq m w f actuals
  rw [heq] at hbindings ⊢
  exact { @SameOn.refl m T w with bindings := hbindings }

theorem sameOn_eraseArguments (hf : f ∉ T.mem) : SameOn T w (eraseArguments m f w) := by
  refine { @SameOn.refl m T w with bindings := fun v hv => ?_ }
  rw [lookup_eraseArguments, if_neg fun hmem => hf (mem_territory_of_argument hv hmem)]

/-- A statement of one territory leaves alone what is kept about another. -/
theorem sameOn_step (hdisj : Disjoint T.mem T'.mem) (hw : Settled T w) (hs : s.func ∈ T.mem)
    (h : Step m opts s L w next w') : SameOn T' w w' := by
  cases h with
  | returned | plain => exact .refl
  | bitCast =>
    refine { @SameOn.refl m T' w with bindings := fun v hv => (AList.lookup_insert_ne ?_).symm }
    intro h
    subst h
    exact Set.disjoint_left.mp hdisj hs (hv s.func rfl)
  | unresolved hop | lock hop | unlock hop => exact sameOn_markMultithreaded hdisj hw hs hop
  | call hop hcallee _ _ hresolves =>
    have hf := notMem_of_uses hdisj hs (.enters rfl hop hcallee hresolves)
    exact ((sameOn_markMultithreaded hdisj hw hs hop).trans (sameOn_inheritFlag hf)).trans
      (sameOn_bindArguments hf)
  | load | store => exact sameOn_detectRaces

end Frames

end Lockout.Strator.Territories
