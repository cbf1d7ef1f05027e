import Lockout.Lib.Editing
import Lockout.Instrumentation.Passes

/-! # Inserting the hooks

The loops of both passes over the instructions of a block, with the cursor they insert
around. The instructions a pass inserts are told apart from those of the program, and
an inserted cast is named by the pointer it casts. The calls of `initialize` and
`finalize` in `main` are left out. -/

namespace Lockout.Instrumentation.Insertion
open Std
open Lockout.Lib.TextStream Lockout.Lib.Editing Lockout.Instrumentation.Locations
open Lockout.Strator.Program (Opcode Value)
open Lockout.Strator.State (calledFunction)
open Lockout.LockTracer.Threads (Location)

inductive HookFunction
  | beforeLock
  | afterLock
  | beforeUnlock
  | afterUnlock
  | beforeStore
  | afterStore
  | beforeLoad
  deriving DecidableEq

/-- The name a hook function is created with. -/
def HookFunction.name : HookFunction → String
  | .beforeLock => "_Z10beforeLockP15pthread_mutex_ti"
  | .afterLock => "_Z9afterLockP15pthread_mutex_ti"
  | .beforeUnlock => "_Z12beforeUnlockP15pthread_mutex_ti"
  | .afterUnlock => "_Z11afterUnlockP15pthread_mutex_ti"
  | .beforeStore => "_Z11beforeStorePvi"
  | .afterStore => "_Z10afterStorePvi"
  | .beforeLoad => "_Z10beforeLoadPvi"

/-- An instruction of the program with its debug location. -/
structure Line where
  op : Opcode
  file : String := ""
  line : Nat := 0
  deriving DecidableEq

inductive Operand
  | value (v : Value)
  /-- The result of an inserted cast of `pointer` to `i8*`. -/
  | cast (pointer : Value)
  deriving DecidableEq

inductive Inst
  | program (l : Line)
  | pointerCast (pointer : Value)
  | call (h : HookFunction) (arg : Operand) (loc : Location)
  deriving DecidableEq

namespace Inst

/-- What is left of an instruction when the inserted ones are deleted. -/
def original? : Inst → Option Line
  | program l => some l
  | pointerCast _ | call .. => none

/-- The name of the function a `CallInst` calls directly. -/
def calledName : Inst → Option String
  | program ⟨.call callee _, _, _⟩ => calledFunction callee
  | program _ | pointerCast _ => none
  | call h _ _ => some h.name

/-- `getArgOperand(0)`. The callee comes after the arguments, so that it is the first
operand of a call without any. -/
def argOperand : Inst → Operand
  | program l => .value (l.op.operands.headD (.constant ""))
  | pointerCast pointer => .value pointer
  | call _ arg _ => arg

/-- The pointer operand, where the instruction is a `StoreInst`. -/
def storePointer : Inst → Option Value
  | program ⟨.store _ pointer, _, _⟩ => some pointer
  | _ => none

/-- Inserted instructions have no debug location. -/
def location (io : Iostream) : Inst → String
  | program l => Locations.location io l.file l.line
  | pointerCast _ | call .. => Locations.location io "" 0

end Inst

section Bodies
variable (io : Iostream)

/-- The branch of `LockInstrumenter` for a call it looks for. -/
def surround (before after : HookFunction) (c : Cursor Inst) (t : LocationTable) :
    Cursor Inst × LocationTable :=
  let arg := c.here.argOperand
  let (loc, t) := t.getLocationIndex (c.here.location io)
  ((c.insertBefore (.call before arg loc)).insertAfter (.call after arg loc), t)

/-- The loop body of `LockInstrumenter`. -/
def lockBody (c : Cursor Inst) (t : LocationTable) : Cursor Inst × LocationTable :=
  match c.here.calledName with
  | none => (c, t)
  | some name =>
    if name = "pthread_mutex_lock" then surround io .beforeLock .afterLock c t
    else if name = "pthread_mutex_unlock" then surround io .beforeUnlock .afterUnlock c t
    else (c, t)

/-- The loop body of `MemInstrumenter`. -/
def memBody (c : Cursor Inst) (t : LocationTable) : Cursor Inst × LocationTable :=
  match c.here.storePointer with
  | some pointer =>
    let c := c.insertBefore (.pointerCast pointer)
    let (loc, t) := t.getLocationIndex (c.here.location io)
    ((c.insertBefore (.call .beforeStore (.cast pointer) loc)).insertAfter
      (.call .afterStore (.cast pointer) loc), t)
  | none =>
    -- the branch for loads casts to `StoreInst` as well
    match c.here.storePointer with
    | some pointer =>
      let c := c.insertBefore (.pointerCast pointer)
      let (loc, t) := t.getLocationIndex (c.here.location io)
      (c.insertBefore (.call .beforeLoad (.value pointer) loc), t)
    | none => (c, t)

end Bodies

/-- The blocks of each function. -/
abbrev Functions (α : Type) := List (String × List (List α))

/-- A module before a pass has inserted anything. -/
structure BareModule where
  functions : Functions Line
  /-- `getTypeByName("union.pthread_mutex_t")` finds a type. -/
  hasMutexType : Bool := true

abbrev LoopBody := Cursor Inst → LocationTable → Cursor Inst × LocationTable

/-- The loop over the instructions of a block. -/
def overBlock (body : LoopBody) (fuel : Nat) (block : List Line) (t : LocationTable) :
    Option (List Inst × LocationTable) :=
  walk body fuel [] (block.map Inst.program) t

def overFunction (body : LoopBody) (fuel : Nat) (f : String × List (List Line)) (t : LocationTable) :
    Option ((String × List (List Inst)) × LocationTable) :=
  (each (overBlock body fuel) f.2 t).map fun (blocks, t) => ((f.1, blocks), t)

/-- The loops over functions, blocks and instructions. -/
def overModule (body : LoopBody) (fuel : Nat) (functions : Functions Line) (t : LocationTable) :
    Option (Functions Inst × LocationTable) :=
  each (overFunction body fuel) functions t

def lockInstrument (io : Iostream) (fuel : Nat) (m : BareModule) (t : LocationTable) :
    Option (Functions Inst × LocationTable) :=
  if m.hasMutexType then overModule (lockBody io) fuel m.functions t
  else some (m.functions.map fun f => (f.1, f.2.map fun block => block.map Inst.program), t)

def memInstrument (io : Iostream) (fuel : Nat) (m : BareModule) (t : LocationTable) :
    Option (Functions Inst × LocationTable) :=
  overModule (memBody io) fuel m.functions t

/-! ## What stands around an instruction -/

/-- What a pass puts before and after an instruction, for the index of its location. -/
abbrev Wrapping := Line → Option (Location → List Inst × List Inst)

/-- The hooks of `pthread_mutex_lock` and `pthread_mutex_unlock`. -/
def hooksOf (name : String) : Option (HookFunction × HookFunction) :=
  if name = "pthread_mutex_lock" then some (.beforeLock, .afterLock)
  else if name = "pthread_mutex_unlock" then some (.beforeUnlock, .afterUnlock)
  else none

def lockWrapping : Wrapping := fun l =>
  ((Inst.program l).calledName.bind hooksOf).map fun (before, after) loc =>
    ([.call before (Inst.program l).argOperand loc], [.call after (Inst.program l).argOperand loc])

def memWrapping : Wrapping := fun l =>
  (Inst.program l).storePointer.map fun pointer loc =>
    ([.pointerCast pointer, .call .beforeStore (.cast pointer) loc],
      [.call .afterStore (.cast pointer) loc])

section Wrappings
variable (io : Iostream) (wrapping : Wrapping)

def indexOf (l : Line) (t : LocationTable) : Location :=
  (t.getLocationIndex (location io l.file l.line)).1

def front (l : Line) (t : LocationTable) : List Inst :=
  ((wrapping l).map fun w => (w (indexOf io l t)).1).getD []

def back (l : Line) (t : LocationTable) : List Inst :=
  ((wrapping l).map fun w => (w (indexOf io l t)).2).getD []

def tableAfter (l : Line) (t : LocationTable) : LocationTable :=
  if (wrapping l).isSome then t.allocate (location io l.file l.line) else t

/-- The loop body `body` wraps every instruction of the program as `wrapping` says. -/
abbrev Wraps (body : LoopBody) : Prop :=
  Inserts body Inst.program (front io wrapping) (back io wrapping) (tableAfter io wrapping)

/-- A line has become `part`, and the index it was given is the one in `t`. -/
def Part (t : LocationTable) (l : Line) (part : List Inst) : Prop :=
  (wrapping l = none ∧ part = [.program l]) ∨
    ∃ w i, wrapping l = some w ∧ t.locIndex[location io l.file l.line]? = some i ∧
      part = (w i).1 ++ .program l :: (w i).2

/-- A block has become `insts`. -/
def Wrapped (t : LocationTable) (block : List Line) (insts : List Inst) : Prop :=
  ∃ parts, insts = parts.flatten ∧ List.Forall₂ (Part io wrapping t) block parts

end Wrappings

section Facts
variable {io : Iostream} {wrapping : Wrapping} {body : LoopBody}

theorem wraps_lock : Wraps io lockWrapping (lockBody io) where
  element l before after t := by
    unfold front back tableAfter lockWrapping
    cases hname : (Inst.program l).calledName with
    | none => simp [lockBody, hname]
    | some name =>
      by_cases hlock : name = "pthread_mutex_lock"
      · simp [lockBody, hname, hlock, hooksOf, surround, indexOf, Inst.location,
          LocationTable.getLocationIndex, Cursor.insertBefore, Cursor.insertAfter]
      · by_cases hunlock : name = "pthread_mutex_unlock"
        · simp [lockBody, hname, hunlock, hooksOf, surround, indexOf, Inst.location,
            LocationTable.getLocationIndex, Cursor.insertBefore, Cursor.insertAfter]
        · simp [lockBody, hname, hlock, hunlock, hooksOf]
  inserted l t x hx before after t' := by
    obtain ⟨h, arg, loc, rfl⟩ : ∃ h arg loc, x = .call h arg loc := by
      unfold back lockWrapping at hx
      cases hhooks : (Inst.program l).calledName.bind hooksOf with
      | none => simp [hhooks] at hx
      | some pair => exact ⟨_, _, _, by simpa [hhooks] using hx⟩
    cases h <;> rfl

theorem wraps_mem : Wraps io memWrapping (memBody io) where
  element l before after t := by
    unfold front back tableAfter memWrapping
    cases hstore : (Inst.program l).storePointer with
    | none => simp [memBody, hstore]
    | some pointer =>
      simp [memBody, hstore, indexOf, Inst.location, LocationTable.getLocationIndex,
        Cursor.insertBefore, Cursor.insertAfter]
  inserted l t x hx before after t' := by
    unfold back memWrapping at hx
    cases hstore : (Inst.program l).storePointer with
    | none => simp [hstore] at hx
    | some pointer =>
      obtain rfl : x = .call .afterStore (.cast pointer) (indexOf io l t) := by
        simpa [hstore] using hx
      rfl

end Facts

/-! ## The loops end -/

section Loops
variable (io : Iostream) (wrapping : Wrapping)

/-- What the loop over a block does. -/
def BlockStep (t : LocationTable) (block : List Line) (insts : List Inst) (t' : LocationTable) : Prop :=
  ∃ parts, insts = parts.flatten ∧ Chain (Around Inst.program (front io wrapping)
    (back io wrapping) (tableAfter io wrapping)) t block parts t'

/-- What the loop over the blocks of a function does. -/
def FunctionStep (t : LocationTable) (f : String × List (List Line)) (f' : String × List (List Inst))
    (t' : LocationTable) : Prop :=
  f'.1 = f.1 ∧ Chain (BlockStep io wrapping) t f.2 f'.2 t'

end Loops

section LoopFacts
variable {io : Iostream} {wrapping : Wrapping} {body : LoopBody} {s s' t : LocationTable}

theorem overModule_yields (h : Wraps io wrapping body) :
    Yields (overModule body) (Chain (FunctionStep io wrapping)) := by
  have hblocks : Yields (fun k => each (overBlock body k)) (Chain (BlockStep io wrapping)) :=
    each_yields (walk_yields h)
  refine each_yields fun f t => ?_
  obtain ⟨blocks, t', hchain, n, hn⟩ := hblocks f.2 t
  refine ⟨(f.1, blocks), t', ⟨rfl, hchain⟩, n, fun k hk => ?_⟩
  have hrun := hn k hk
  dsimp only at hrun
  rw [overFunction, hrun]
  rfl

theorem settles_part : Settles Extends (Around Inst.program (front io wrapping)
    (back io wrapping) (tableAfter io wrapping)) (Part io wrapping) := by
  rintro s l part s' ⟨rfl, rfl⟩
  unfold front back tableAfter
  cases hw : wrapping l with
  | none => exact ⟨.refl s, fun t _ => .inl ⟨hw, rfl⟩⟩
  | some w =>
    refine ⟨extends_allocate, fun t ht => .inr ⟨w, indexOf io l s, hw, ht _ _ ?_, rfl⟩⟩
    exact getElem?_getLocationIndex

theorem settles_block : Settles Extends (BlockStep io wrapping) (Wrapped io wrapping) := by
  rintro s block insts s' ⟨parts, rfl, hchain⟩
  obtain ⟨hextends, hparts⟩ := settles_part.chain Extends.refl Extends.trans hchain
  exact ⟨hextends, fun t ht => ⟨parts, rfl, hparts t ht⟩⟩

/-- The functions of a module, each with its blocks changed as `Q` says. -/
def AllBlocks (Q : List Line → List Inst → Prop) (functions : Functions Line)
    (functions' : Functions Inst) : Prop :=
  List.Forall₂ (fun f f' => f'.1 = f.1 ∧ List.Forall₂ Q f.2 f'.2) functions functions'

theorem wrapped_of_steps {functions : Functions Line} {functions' : Functions Inst}
    (h : Chain (FunctionStep io wrapping) s functions functions' s') :
    AllBlocks (Wrapped io wrapping s') functions functions' := by
  have hfunction : Settles Extends (FunctionStep io wrapping) fun t f f' =>
      f'.1 = f.1 ∧ List.Forall₂ (Wrapped io wrapping t) f.2 f'.2 := by
    rintro s f f' s' ⟨hname, hchain⟩
    obtain ⟨hextends, hblocks⟩ := settles_block.chain Extends.refl Extends.trans hchain
    exact ⟨hextends, fun t ht => ⟨hname, hblocks t ht⟩⟩
  exact (hfunction.chain Extends.refl Extends.trans h).2 s' (.refl s')

end LoopFacts

/-! ## Places in a wrapped block -/

/-- No wrapping holds an instruction of the program. -/
def Fresh (wrapping : Wrapping) : Prop :=
  ∀ l w i, wrapping l = some w → ∀ x ∈ (w i).1 ++ (w i).2, x.original? = none

section Wrapped
variable {io : Iostream} {wrapping : Wrapping} {t : LocationTable} {block : List Line}
  {insts xs ys : List Inst} {l : Line} {x : Inst}

theorem fresh_lock : Fresh lockWrapping := by
  intro l w i hw x hx
  obtain ⟨⟨before, after⟩, -, rfl⟩ := Option.map_eq_some_iff.mp hw
  simp only [List.cons_append, List.nil_append, List.mem_cons, List.not_mem_nil, or_false] at hx
  rcases hx with rfl | rfl <;> rfl

theorem fresh_mem : Fresh memWrapping := by
  intro l w i hw x hx
  obtain ⟨pointer, -, rfl⟩ := Option.map_eq_some_iff.mp hw
  simp only [List.cons_append, List.nil_append, List.mem_cons, List.not_mem_nil, or_false] at hx
  rcases hx with rfl | rfl | rfl <;> rfl

/-- Deleting what has been inserted gives the block back. -/
theorem Wrapped.original (hfresh : Fresh wrapping) (h : Wrapped io wrapping t block insts) :
    insts.filterMap Inst.original? = block := by
  obtain ⟨parts, rfl, hparts⟩ := h
  refine filterMap_flatten hparts fun l part hpart => ?_
  rcases hpart with ⟨-, rfl⟩ | ⟨w, i, hw, -, rfl⟩
  · rfl
  · have hnone : ∀ x ∈ (w i).1 ++ (w i).2, x.original? = none := hfresh l w i hw
    have hfront : (w i).1.filterMap Inst.original? = [] :=
      List.filterMap_eq_nil_iff.mpr fun x hx => hnone x (List.mem_append_left _ hx)
    have hback : (w i).2.filterMap Inst.original? = [] :=
      List.filterMap_eq_nil_iff.mpr fun x hx => hnone x (List.mem_append_right _ hx)
    rw [List.filterMap_append, List.filterMap_cons, hfront, hback]
    rfl

/-- An instruction of the program has its wrapping directly around it. -/
theorem Wrapped.around (hfresh : Fresh wrapping) (h : Wrapped io wrapping t block insts)
    (hl : insts = xs ++ .program l :: ys) {w : Location → List Inst × List Inst}
    (hw : wrapping l = some w) :
    ∃ i, t.locIndex[location io l.file l.line]? = some i ∧ (w i).1 <:+ xs ∧ (w i).2 <+: ys := by
  obtain ⟨parts, rfl, hparts⟩ := h
  obtain ⟨a, -, part, hpart, us, vs, hsplit, hus, hvs⟩ := exists_part hparts hl
  rcases hpart with ⟨hnone, rfl⟩ | ⟨w', i, hw', hi, rfl⟩
  · have hlen := congrArg List.length hsplit
    obtain ⟨rfl, rfl⟩ : us = [] ∧ vs = [] := by
      simp only [List.length_cons, List.length_nil, List.length_append] at hlen
      exact ⟨List.eq_nil_of_length_eq_zero (by omega), List.eq_nil_of_length_eq_zero (by omega)⟩
    obtain rfl : a = l := by simpa using hsplit
    rw [hw] at hnone
    cases hnone
  · have hfree : ∀ zs : List Inst, (∀ x ∈ zs, x.original? = none) → Inst.program l ∉ zs := by
      intro zs hzs hmem
      cases hzs _ hmem
    have hboth := hfresh a w' i hw'
    obtain ⟨rfl, ha, rfl⟩ := (List.append_cons_inj_of_notMem
      (hfree _ fun x hx => hboth x (List.mem_append_left _ hx))
      (hfree _ fun x hx => hboth x (List.mem_append_right _ hx))).mp hsplit
    obtain rfl : a = l := by simpa using ha
    obtain rfl : w' = w := Option.some.inj (hw'.symm.trans hw)
    exact ⟨i, hi, hus, hvs⟩

/-- An inserted instruction belongs to the wrapping of one instruction. -/
theorem Wrapped.inserted (h : Wrapped io wrapping t block insts) (hx : insts = xs ++ x :: ys)
    (hnone : x.original? = none) : ∃ l w i us vs, wrapping l = some w ∧
      (w i).1 ++ .program l :: (w i).2 = us ++ x :: vs ∧ us <:+ xs ∧ vs <+: ys := by
  obtain ⟨parts, rfl, hparts⟩ := h
  obtain ⟨l, -, part, hpart, us, vs, hsplit, hus, hvs⟩ := exists_part hparts hx
  rcases hpart with ⟨-, rfl⟩ | ⟨w, i, hw, -, rfl⟩
  · have hmem : x ∈ [Inst.program l] := hsplit ▸ List.mem_append_right _ List.mem_cons_self
    rw [List.mem_singleton.mp hmem] at hnone
    cases hnone
  · exact ⟨l, w, i, us, vs, hw, hsplit, hus, hvs⟩

end Wrapped

/-! ## The calls of the lock functions -/

/-- `insts` is what `LockInstrumenter` should make of `block`, with the indices of `t`. -/
structure LockHooked (io : Iostream) (t : LocationTable) (block : List Line) (insts : List Inst) :
    Prop where
  original : insts.filterMap Inst.original? = block
  /-- A direct call has its two hooks directly around it, with its first argument. -/
  hooked : ∀ {name before after}, hooksOf name = some (before, after) →
    ∀ xs l args ys, insts = xs ++ .program l :: ys → l.op = .call (.function name) args →
      ∃ arg i, (∀ x ∈ args.head?, arg = .value x) ∧
        t.locIndex[location io l.file l.line]? = some i ∧
        [.call before arg i] <:+ xs ∧ [.call after arg i] <+: ys
  /-- Every inserted instruction is the hook of a direct call next to it. -/
  only : ∀ xs x ys, insts = xs ++ x :: ys → x.original? = none →
    ∃ l name args before after arg i, l.op = .call (.function name) args ∧
      hooksOf name = some (before, after) ∧
      (x = .call before arg i ∧ [.program l] <+: ys ∨ x = .call after arg i ∧ [.program l] <:+ xs)

/-- `insts` is what `MemInstrumenter` should make of `block`, with the indices of `t`. -/
structure MemHooked (io : Iostream) (t : LocationTable) (block : List Line) (insts : List Inst) :
    Prop where
  original : insts.filterMap Inst.original? = block
  stores : ∀ xs l value pointer ys, insts = xs ++ .program l :: ys → l.op = .store value pointer →
    ∃ i, t.locIndex[location io l.file l.line]? = some i ∧
      [.pointerCast pointer, .call .beforeStore (.cast pointer) i] <:+ xs ∧
      [.call .afterStore (.cast pointer) i] <+: ys
  loads : ∀ xs l pointer ys, insts = xs ++ .program l :: ys → l.op = .load pointer →
    ∃ i, t.locIndex[location io l.file l.line]? = some i ∧
      [.call .beforeLoad (.value pointer) i] <:+ xs

section Hooked
variable {io : Iostream} {t : LocationTable} {block : List Line} {insts : List Inst} {l : Line}

theorem lockWrapping_of_call {name : String} {args : List Value} {before after : HookFunction}
    (hl : l.op = .call (.function name) args) (h : hooksOf name = some (before, after)) :
    lockWrapping l = some fun loc => ([.call before (Inst.program l).argOperand loc],
      [.call after (Inst.program l).argOperand loc]) := by
  obtain ⟨op, file, line⟩ := l
  subst hl
  simp [lockWrapping, Inst.calledName, calledFunction, h]

theorem call_of_lockWrapping {w : Location → List Inst × List Inst} (h : lockWrapping l = some w) :
    ∃ name args before after, l.op = .call (.function name) args ∧
      hooksOf name = some (before, after) ∧
      w = fun loc => ([.call before (Inst.program l).argOperand loc],
        [.call after (Inst.program l).argOperand loc]) := by
  obtain ⟨⟨before, after⟩, hhooks, rfl⟩ := Option.map_eq_some_iff.mp h
  obtain ⟨name, hname, hhooks⟩ := Option.bind_eq_some_iff.mp hhooks
  have hcall : ∃ args, l.op = .call (.function name) args := by
    obtain ⟨op, file, line⟩ := l
    cases op <;> simp only [Inst.calledName, reduceCtorEq] at hname
    rename_i callee args
    cases callee <;> simp only [calledFunction, reduceCtorEq, Option.some.injEq] at hname
    exact ⟨args, by rw [hname]⟩
  obtain ⟨args, hargs⟩ := hcall
  exact ⟨name, args, before, after, hargs, hhooks, rfl⟩

/-- Where there is an argument it is the one the hooks get. -/
theorem argOperand_of_call {callee : Value} {args : List Value} (hl : l.op = .call callee args) :
    ∀ x ∈ args.head?, (Inst.program l).argOperand = .value x := by
  intro x hx
  obtain ⟨rest, rfl⟩ := List.head?_eq_some_iff.mp hx
  rw [Inst.argOperand, hl]
  rfl

theorem lockHooked_of_wrapped (h : Wrapped io lockWrapping t block insts) :
    LockHooked io t block insts where
  original := h.original fresh_lock
  hooked hhooks xs l args ys hsplit hl := by
    obtain ⟨i, hi, hfront, hback⟩ := h.around fresh_lock hsplit (lockWrapping_of_call hl hhooks)
    exact ⟨_, i, argOperand_of_call hl, hi, hfront, hback⟩
  only xs x ys hsplit hx := by
    obtain ⟨l, w, i, us, vs, hw, hpart, hus, hvs⟩ := h.inserted hsplit hx
    obtain ⟨name, args, before, after, hl, hhooks, rfl⟩ := call_of_lockWrapping hw
    refine ⟨l, name, args, before, after, (Inst.program l).argOperand, i, hl, hhooks, ?_⟩
    simp only [List.cons_append, List.nil_append] at hpart
    match us, hpart with
    | [], hpart =>
      simp only [List.nil_append, List.cons.injEq] at hpart
      obtain ⟨rfl, rfl⟩ := hpart
      exact .inl ⟨rfl, (List.prefix_append [_] _).trans hvs⟩
    | [u], hpart =>
      -- the call itself has not been inserted
      simp only [List.cons_append, List.nil_append, List.cons.injEq] at hpart
      obtain ⟨-, rfl, -⟩ := hpart
      cases hx
    | [u, u'], hpart =>
      simp only [List.cons_append, List.nil_append, List.cons.injEq] at hpart
      obtain ⟨-, rfl, rfl, -⟩ := hpart
      exact .inr ⟨rfl, (List.suffix_append [u] _).trans hus⟩
    | u :: u' :: u'' :: us, hpart => simp at hpart

theorem memWrapping_eq (l : Line) : memWrapping l = none ∨ ∃ value pointer,
    l.op = .store value pointer ∧ memWrapping l = some fun loc =>
      ([.pointerCast pointer, .call .beforeStore (.cast pointer) loc],
        [.call .afterStore (.cast pointer) loc]) := by
  obtain ⟨op, file, line⟩ := l
  cases op
  case store value pointer => exact .inr ⟨value, pointer, rfl, rfl⟩
  all_goals exact .inl rfl

theorem stores_of_wrapped (h : Wrapped io memWrapping t block insts) {xs ys : List Inst}
    {value pointer : Value} (hsplit : insts = xs ++ .program l :: ys)
    (hl : l.op = .store value pointer) :
    ∃ i, t.locIndex[location io l.file l.line]? = some i ∧
      [.pointerCast pointer, .call .beforeStore (.cast pointer) i] <:+ xs ∧
      [.call .afterStore (.cast pointer) i] <+: ys := by
  rcases memWrapping_eq l with hnone | ⟨value', pointer', hl', hw⟩
  · obtain ⟨op, file, line⟩ := l
    subst hl
    cases hnone
  · rw [hl'] at hl
    cases hl
    exact h.around fresh_mem hsplit hw

theorem program_mem (h : Wrapped io memWrapping t block insts) (hl : .program l ∈ insts) :
    l ∈ block := by
  rw [← h.original fresh_mem]
  exact List.mem_filterMap.mpr ⟨_, hl, rfl⟩

theorem memHooked_of_wrapped (h : Wrapped io memWrapping t block insts)
    (hno : ∀ l ∈ block, ∀ pointer, l.op ≠ .load pointer) : MemHooked io t block insts where
  original := h.original fresh_mem
  stores xs l value pointer ys hsplit hl := stores_of_wrapped h hsplit hl
  loads xs l pointer ys hsplit hl := by
    have hmem : .program l ∈ insts := hsplit ▸ List.mem_append_right _ List.mem_cons_self
    exact absurd hl (hno l (program_mem h hmem) pointer)

/-- The branch for loads is never taken. -/
theorem beforeLoad_notMem (h : Wrapped io memWrapping t block insts) {arg : Operand} {i : Location} :
    .call .beforeLoad arg i ∉ insts := by
  intro hmem
  obtain ⟨xs, ys, hsplit⟩ := List.append_of_mem hmem
  obtain ⟨l, w, j, us, vs, hw, hpart, -⟩ := h.inserted hsplit rfl
  rcases memWrapping_eq l with hnone | ⟨value, pointer, -, hw'⟩
  · rw [hw] at hnone
    cases hnone
  · obtain rfl := Option.some.inj (hw.symm.trans hw')
    have hload : Inst.call .beforeLoad arg i ∈ us ++ .call .beforeLoad arg i :: vs := by simp
    rw [← hpart] at hload
    simp at hload

end Hooked

/-- `LockInstrumenter` puts hooks around the direct calls of the two lock functions and
nowhere else, and what was there stays as it was. -/
theorem lock_calls_hooked (io : Iostream) (m : BareModule) (t : LocationTable)
    (hm : m.hasMutexType = true) :
    ∃ functions t', (∃ n, ∀ k, n ≤ k → lockInstrument io k m t = some (functions, t')) ∧
      AllBlocks (LockHooked io t') m.functions functions := by
  obtain ⟨functions, t', hsteps, n, hn⟩ := overModule_yields wraps_lock m.functions t
  refine ⟨functions, t', ⟨n, fun k hk => ?_⟩, ?_⟩
  · rw [lockInstrument, if_pos hm]
    exact hn k hk
  · exact (wrapped_of_steps hsteps).imp fun f f' hf =>
      ⟨hf.1, hf.2.imp fun _ _ => lockHooked_of_wrapped⟩

/-- Two critical sections without an instruction between them. -/
def adjacent : BareModule where
  functions := [("main", [[
    ⟨.call (.function "pthread_mutex_lock") [.global "m"], "main.c", 12⟩,
    ⟨.call (.function "pthread_mutex_unlock") [.global "m"], "main.c", 13⟩,
    ⟨.call (.function "pthread_mutex_lock") [.global "m"], "main.c", 14⟩,
    ⟨.call (.function "pthread_mutex_unlock") [.global "m"], "main.c", 15⟩]])]

theorem lock_calls_hooked_adjacent : adjacent.hasMutexType = true ∧
    ∃ functions t', (∃ n, ∀ k, n ≤ k →
        lockInstrument Lib.Numerals.standard k adjacent {} = some (functions, t')) ∧
      AllBlocks (LockHooked Lib.Numerals.standard t') adjacent.functions functions :=
  ⟨rfl, lock_calls_hooked Lib.Numerals.standard adjacent {} rfl⟩

/-! ## Loads -/

/-- The loops of `MemInstrumenter` end, and every block is as it should be. -/
def MemCorrect (io : Iostream) (m : BareModule) (t : LocationTable) : Prop :=
  ∃ functions t', (∃ n, ∀ k, n ≤ k → memInstrument io k m t = some (functions, t')) ∧
    AllBlocks (MemHooked io t') m.functions functions

def BareModule.HasNoLoad (m : BareModule) : Prop :=
  ∀ f ∈ m.functions, ∀ block ∈ f.2, ∀ l ∈ block, ∀ pointer, l.op ≠ .load pointer

/-- `MemInstrumenter` does what it should on just the modules without a load. -/
theorem memCorrect_iff (io : Iostream) (m : BareModule) (t : LocationTable) :
    MemCorrect io m t ↔ m.HasNoLoad := by
  obtain ⟨functions, t', hsteps, n, hn⟩ := @overModule_yields io _ _ wraps_mem m.functions t
  have hwrapped := wrapped_of_steps hsteps
  constructor
  · rintro ⟨functions', t'', ⟨n', hn'⟩, hcorrect⟩ f hf block hblock l hl pointer hload
    have hsame := (hn (max n n') (by omega)).symm.trans (hn' (max n n') (by omega))
    obtain ⟨rfl, rfl⟩ := Prod.mk.inj (Option.some.inj hsame)
    obtain ⟨f', ⟨-, hcorrect⟩, -, hwrapped⟩ := exists_common hcorrect hwrapped hf
    obtain ⟨insts, hhooked, hinsts⟩ := exists_common hcorrect hwrapped hblock
    rw [← hhooked.original] at hl
    obtain ⟨inst, hmem, hinst⟩ := List.mem_filterMap.mp hl
    obtain rfl : inst = .program l := by
      cases inst with
      | program l' => rw [Option.some.inj hinst]
      | pointerCast _ | call _ _ _ => cases hinst
    obtain ⟨xs, ys, hsplit⟩ := List.append_of_mem hmem
    obtain ⟨i, -, hfront⟩ := hhooked.loads xs l pointer ys hsplit hload
    have hcall : Inst.call .beforeLoad (.value pointer) i ∈ xs := hfront.subset (by simp)
    exact beforeLoad_notMem hinsts (hsplit ▸ List.mem_append_left _ hcall)
  · intro hno
    refine ⟨functions, t', ⟨n, hn⟩, ?_⟩
    have hboth := (List.forall₂_and_left _ _).mpr ⟨hno, hwrapped⟩
    exact hboth.imp fun f f' hf => ⟨hf.2.1, ((List.forall₂_and_left _ _).mpr ⟨hf.1, hf.2.2⟩).imp
      fun _ _ hblock => memHooked_of_wrapped hblock.2 hblock.1⟩

/-- A function that reads a variable. -/
def loading : BareModule where
  functions := [("main", [[⟨.load (.global "g"), "main.c", 3⟩, ⟨.ret, "main.c", 4⟩]])]

theorem loading_not_hooked : ¬ ∀ (io : Iostream) (m : BareModule) (t : LocationTable),
    MemCorrect io m t := by
  intro hall
  obtain ⟨functions, t', ⟨n, hn⟩, hblocks⟩ := hall Lib.Numerals.standard loading {}
  have hrun : memInstrument Lib.Numerals.standard (n + 3) loading {} = some ([("main",
      [[.program ⟨.load (.global "g"), "main.c", 3⟩, .program ⟨.ret, "main.c", 4⟩]])], {}) := rfl
  rw [hn _ (by omega)] at hrun
  obtain ⟨rfl, rfl⟩ := Prod.mk.inj (Option.some.inj hrun)
  obtain ⟨⟨-, hblocks⟩, -⟩ := List.forall₂_cons.mp hblocks
  obtain ⟨hhooked, -⟩ := List.forall₂_cons.mp hblocks
  obtain ⟨i, hi, -⟩ := hhooked.loads [] _ _ _ rfl rfl
  simp at hi

/-! ## The passes without a cursor

Without the casts the loops do what `runOnModule` of the pass does. -/

def HookFunction.hook? : HookFunction → Option Passes.Hook
  | .beforeLock => some .beforeLock
  | .afterLock => some .afterLock
  | .beforeUnlock => some .beforeUnlock
  | .afterUnlock => some .afterUnlock
  | .beforeStore => some .beforeStore
  | .afterStore => some .afterStore
  | .beforeLoad => none

/-- The value that is passed, cast or not. -/
def Operand.passed : Operand → Value
  | .value v | .cast v => v

def Line.site (l : Line) : Passes.Site := ⟨.original l.op, l.file, l.line⟩

def Inst.site? : Inst → Option Passes.Site
  | program l => some l.site
  | pointerCast _ => none
  | call h arg loc => h.hook?.map fun hook => { code := .hook hook arg.passed loc }

def sitesOf (f : String × List (List Line)) : String × List (List Passes.Site) :=
  (f.1, f.2.map fun block => block.map Line.site)

def eraseCasts (f : String × List (List Inst)) : String × List (List Passes.Site) :=
  (f.1, f.2.map fun insts => insts.filterMap Inst.site?)

/-- The wrapping of `l` is, but for the casts, the hooks `hooks` puts around it. -/
def Agrees (wrapping : Wrapping) (hooks : Passes.Code → Option (Passes.Hook × Passes.Hook × Value))
    (l : Line) : Prop :=
  (wrapping l = none ∧ hooks (.original l.op) = none) ∨
    ∃ w before after arg, wrapping l = some w ∧ hooks (.original l.op) = some (before, after, arg) ∧
      ∀ i, (w i).1.filterMap Inst.site? = [{ code := .hook before arg i }] ∧
        (w i).2.filterMap Inst.site? = [{ code := .hook after arg i }]

/-- Every direct call of a lock function has an argument. -/
def BareModule.PassesMutexes (m : BareModule) : Prop :=
  ∀ f ∈ m.functions, ∀ block ∈ f.2, ∀ l ∈ block, ∀ name args,
    l.op = .call (.function name) args → (hooksOf name).isSome → args ≠ []

section Erasing
variable {io : Iostream} {wrapping : Wrapping} {body : LoopBody} {t t' : LocationTable}
  {hooks : Passes.Code → Option (Passes.Hook × Passes.Hook × Value)}

/-- A walk that maps what each step makes is the chain of the mapped steps. -/
theorem rewriteEach_of_chain {α β γ δ : Type} {P : LocationTable → α → β → LocationTable → Prop}
    {rewrite : γ → LocationTable → δ × LocationTable} {f : α → γ} {g : β → δ} {as : List α}
    {bs : List β} (h : Chain P t as bs t')
    (hstep : ∀ a ∈ as, ∀ t b t', P t a b t' → rewrite (f a) t = (g b, t')) :
    Passes.rewriteEach rewrite (as.map f) t = (bs.map g, t') := by
  induction h with
  | nil t => rfl
  | cons hP _ ih =>
    have hfirst := hstep _ List.mem_cons_self _ _ _ hP
    have hrest := ih fun a ha => hstep a (List.mem_cons_of_mem _ ha)
    simp [Passes.rewriteEach, hfirst, hrest]

theorem rewriteSite_of_around {l : Line} {part : List Inst} (hl : Agrees wrapping hooks l)
    (h : Around Inst.program (front io wrapping) (back io wrapping) (tableAfter io wrapping) t l
      part t') :
    Passes.rewriteSite io hooks l.site t = (part.filterMap Inst.site?, t') := by
  obtain ⟨rfl, rfl⟩ := h
  unfold front back tableAfter Passes.rewriteSite
  rcases hl with ⟨hw, hhooks⟩ | ⟨w, before, after, arg, hw, hhooks, hsites⟩
  · simp [Line.site, hw, hhooks, Inst.site?]
  · obtain ⟨hfront, hback⟩ := hsites (indexOf io l t)
    simp only [hw, Option.map_some, Option.getD_some, List.filterMap_append, List.filterMap_cons,
      hfront, hback, Line.site, hhooks]
    rfl

theorem rewriteBlock_of_step {block : List Line} {insts : List Inst}
    (hblock : ∀ l ∈ block, Agrees wrapping hooks l) (h : BlockStep io wrapping t block insts t') :
    Passes.rewriteBlock io hooks (block.map Line.site) t = (insts.filterMap Inst.site?, t') := by
  obtain ⟨parts, rfl, hchain⟩ := h
  rw [Passes.rewriteBlock, rewriteEach_of_chain hchain fun l hl t part t' hpart =>
    rewriteSite_of_around (hblock l hl) hpart, List.filterMap_flatten]

/-- The loops with the cursor do what the walk over the sites does. -/
theorem overModule_erases (hbody : Wraps io wrapping body) {functions : Functions Line}
    (h : ∀ f ∈ functions, ∀ block ∈ f.2, ∀ l ∈ block, Agrees wrapping hooks l) (t : LocationTable) :
    ∃ n, ∀ k, n ≤ k →
      (overModule body k functions t).map (fun (functions, t) => (functions.map eraseCasts, t)) =
        some (Passes.rewriteEach (Passes.rewriteFunction io hooks) (functions.map sitesOf) t) := by
  obtain ⟨functions', t', hsteps, n, hn⟩ := overModule_yields hbody functions t
  refine ⟨n, fun k hk => ?_⟩
  rw [hn k hk, rewriteEach_of_chain hsteps, Option.map_some]
  rintro f hf t f' t' ⟨hname, hchain⟩
  have hblocks := rewriteEach_of_chain hchain fun block hblock t insts t' hstep =>
    rewriteBlock_of_step (h f hf block hblock) hstep
  rw [Passes.rewriteFunction, sitesOf, hblocks, ← hname]
  rfl

theorem agrees_lock {l : Line} (hl : ∀ name args, l.op = .call (.function name) args →
    (hooksOf name).isSome → args ≠ []) : Agrees lockWrapping Passes.lockHooks l := by
  cases hw : lockWrapping l with
  | some w =>
    obtain ⟨name, args, before, after, hcall, hhooks, rfl⟩ := call_of_lockWrapping hw
    obtain ⟨arg, args, rfl⟩ := List.exists_cons_of_ne_nil (hl name args hcall (by simp [hhooks]))
    have harg : (Inst.program l).argOperand = .value arg := argOperand_of_call hcall arg rfl
    unfold hooksOf at hhooks
    split at hhooks
    · rename_i hname
      obtain ⟨rfl, rfl⟩ := Prod.mk.inj (Option.some.inj hhooks)
      refine .inr ⟨_, .beforeLock, .afterLock, arg, hw, ?_, fun i => ?_⟩
      · simp [hcall, hname, Passes.lockHooks, Passes.directCall, calledFunction]
      · simp [harg, Inst.site?, HookFunction.hook?, Operand.passed]
    · split at hhooks
      · rename_i hlock hname
        obtain ⟨rfl, rfl⟩ := Prod.mk.inj (Option.some.inj hhooks)
        refine .inr ⟨_, .beforeUnlock, .afterUnlock, arg, hw, ?_, fun i => ?_⟩
        · simp [hcall, hname, Passes.lockHooks, Passes.directCall, calledFunction]
        · simp [harg, Inst.site?, HookFunction.hook?, Operand.passed]
      · cases hhooks
  | none =>
    refine .inl ⟨hw, ?_⟩
    obtain ⟨op, file, line⟩ := l
    cases op
    case call callee args =>
      have hnone : (calledFunction callee).bind hooksOf = none := Option.map_eq_none_iff.mp hw
      cases args with
      | nil => rfl
      | cons arg args =>
        cases hcallee : calledFunction callee with
        | none => simp [Passes.lockHooks, Passes.directCall, hcallee]
        | some name =>
          rw [hcallee, Option.bind_some] at hnone
          unfold hooksOf at hnone
          simp only [Passes.lockHooks, Passes.directCall, hcallee, Option.map_some, Option.bind_some]
          split at hnone
          · cases hnone
          · split at hnone
            · cases hnone
            · simp [*]
    all_goals rfl

theorem agrees_mem (l : Line) : Agrees memWrapping Passes.memHooks l := by
  rcases memWrapping_eq l with hw | ⟨value, pointer, hstore, hw⟩
  · refine .inl ⟨hw, ?_⟩
    obtain ⟨op, file, line⟩ := l
    cases op
    case store value pointer => cases hw
    all_goals rfl
  · refine .inr ⟨_, .beforeStore, .afterStore, pointer, hw, by simp [hstore, Passes.memHooks], ?_⟩
    intro i
    simp [Inst.site?, HookFunction.hook?, Operand.passed, List.filterMap_cons]

end Erasing

def BareModule.source (m : BareModule) : Passes.SourceModule :=
  ⟨m.functions.map sitesOf, m.hasMutexType⟩

/-- Where the lock functions are called with their argument, `LockInstrumenter` inserts
what the pass without a cursor does. -/
theorem lockInstrument_erases {io : Iostream} {m : BareModule} (hm : m.PassesMutexes)
    (t : LocationTable) : ∃ n, ∀ k, n ≤ k →
      (lockInstrument io k m t).map (fun (functions, t) => (functions.map eraseCasts, t)) =
        some ((Passes.runOnModule io .lockInstrumenter m.source t).1.functions,
          (Passes.runOnModule io .lockInstrumenter m.source t).2) := by
  unfold lockInstrument Passes.runOnModule Passes.Pass.appliesTo BareModule.source
  cases m.hasMutexType with
  | true =>
    exact overModule_erases wraps_lock (fun f hf block hblock l hl =>
      agrees_lock (hm f hf block hblock l hl)) t
  | false =>
    have hblock : ∀ block : List Line,
        (block.map Inst.program).filterMap Inst.site? = block.map Line.site := by
      intro block
      rw [List.filterMap_map]
      exact congrFun List.filterMap_eq_map block
    refine ⟨0, fun k _ => ?_⟩
    simp [eraseCasts, sitesOf, Function.comp_def, hblock]

/-- A module that locks a mutex. -/
def locking : BareModule where
  functions := [("main", [[⟨.call (.function "pthread_mutex_lock") [.global "m"], "main.c", 3⟩,
    ⟨.ret, "main.c", 4⟩]])]

theorem locking_passes : locking.PassesMutexes := by
  intro f hf block hblock l hl name args hop hhook
  obtain rfl := List.mem_singleton.mp hf
  obtain rfl := List.mem_singleton.mp hblock
  obtain rfl | hl := List.mem_cons.mp hl
  · obtain ⟨-, rfl⟩ : _ ∧ [.global "m"] = args := by simpa using hop
    exact List.cons_ne_nil _ _
  · obtain rfl := List.mem_singleton.mp hl
    exact absurd hop nofun

theorem lockInstrument_erases_locking : ∃ n, ∀ k, n ≤ k →
    (lockInstrument Lib.Numerals.standard k locking {}).map
        (fun (functions, t) => (functions.map eraseCasts, t)) =
      some ((Passes.runOnModule Lib.Numerals.standard .lockInstrumenter locking.source {}).1.functions,
        (Passes.runOnModule Lib.Numerals.standard .lockInstrumenter locking.source {}).2) :=
  lockInstrument_erases locking_passes {}

theorem memInstrument_erases {io : Iostream} (m : BareModule) (t : LocationTable) :
    ∃ n, ∀ k, n ≤ k →
      (memInstrument io k m t).map (fun (functions, t) => (functions.map eraseCasts, t)) =
        some ((Passes.runOnModule io .memInstrumenter m.source t).1.functions,
          (Passes.runOnModule io .memInstrumenter m.source t).2) :=
  overModule_erases wraps_mem (fun _ _ _ _ l _ => agrees_mem l) t

end Lockout.Instrumentation.Insertion
