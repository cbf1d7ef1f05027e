import Mathlib.Data.List.Range
import Mathlib.Logic.Function.Basic
import Lockout.Lib.Renumbering

/-! # The nodes of the points-to graph

`IdentifyObjects` numbers the objects and the pointer values of a module, those of one
function in one run: the function, its result, its variable arguments and its pointer
arguments. `OptimizeConstraints` numbers all nodes anew, and keeps these runs together
(`block_optimizeConstraints`). -/

namespace Lockout.Andersens.Objects
open Lockout.Lib.Renumbering

/-! ## Modules -/

inductive Ty
  | pointer
  | other
  deriving DecidableEq

/-- Values that have a node. Functions and arguments are named by their places. -/
inductive Value
  | global (i : Nat)
  | function (f : Nat)
  | argument (f i : Nat)
  | inst (f i : Nat)
  | inlineAsm (id : Nat)
  deriving DecidableEq

structure Instruction where
  type : Ty := .other
  isAlloca : Bool := false
  isMallocCall : Bool := false
  /-- The inline assembly that is called. -/
  inlineAsm : Option Nat := none

structure Function where
  returnType : Ty
  isVarArg : Bool
  args : List Ty
  body : List Instruction := []

structure Module where
  globals : Nat
  functions : List Function

/-! ## `IdentifyObjects` -/

def numberSpecialNodes : Nat := 3

structure NodeMaps where
  valueNodes : Value → Option Nat := fun _ => none
  objectNodes : Value → Option Nat := fun _ => none
  returnNodes : Nat → Option Nat := fun _ => none
  varargNodes : Nat → Option Nat := fun _ => none
  maxK : Nat → Option Nat := fun _ => none
  intNode : Nat := 3
  aggregateNode : Nat := 4
  pthreadSpecificNode : Nat := 5

structure Numbering extends NodeMaps where
  numObjects : Nat := 6

namespace Numbering
variable (s : Numbering)

/-- `ValueNodes[V] = NumObjects++`, and the same of the other maps. -/
def addValue (v : Value) : Numbering :=
  { s with
    valueNodes := Function.update s.valueNodes v (some s.numObjects)
    numObjects := s.numObjects + 1 }

def addObject (v : Value) : Numbering :=
  { s with
    objectNodes := Function.update s.objectNodes v (some s.numObjects)
    numObjects := s.numObjects + 1 }

def addReturn (f : Nat) : Numbering :=
  { s with
    returnNodes := Function.update s.returnNodes f (some s.numObjects)
    numObjects := s.numObjects + 1 }

def addVararg (f : Nat) : Numbering :=
  { s with
    varargNodes := Function.update s.varargNodes f (some s.numObjects)
    numObjects := s.numObjects + 1 }

def setMaxK (first : Nat) : Numbering :=
  { s with maxK := Function.update s.maxK first (some (s.numObjects - first)) }

end Numbering

/-- The pointer arguments of `f` from the `i`-th on. -/
def addArguments (f : Nat) (s : Numbering) (i : Nat) : List Ty → Numbering
  | [] => s
  | arg :: args =>
    addArguments f (if arg = .pointer then s.addValue (.argument f i) else s) (i + 1) args

/-- An instruction that defines a pointer. -/
def addPointer (f i : Nat) (inst : Instruction) (s : Numbering) : Numbering :=
  let s := s.addValue (.inst f i)
  let s := if inst.isAlloca then s.addObject (.inst f i) else s
  if inst.isMallocCall then s.addObject (.inst f i) else s

def addInstruction (f i : Nat) (inst : Instruction) (s : Numbering) : Numbering :=
  let s := if inst.type = .pointer then addPointer f i inst s else s
  match inst.inlineAsm with
  | some callee => s.addValue (.inlineAsm callee)
  | none => s

/-- The instructions of `f` from the `i`-th on. -/
def addInstructions (f : Nat) (s : Numbering) (i : Nat) : List Instruction → Numbering
  | [] => s
  | inst :: insts => addInstructions f (addInstruction f i inst s) (i + 1) insts

/-- The nodes of a function before those of its arguments. -/
def addSignature (f : Nat) (fn : Function) (s : Numbering) : Numbering :=
  let s := s.addValue (.function f)
  let s := if fn.returnType = .pointer then s.addReturn f else s
  if fn.isVarArg then s.addVararg f else s

def addFunction (f : Nat) (fn : Function) (s : Numbering) : Numbering :=
  let first := s.numObjects
  let s := addSignature f fn s
  let s := (addArguments f s 0 fn.args).setMaxK first
  addInstructions f s 0 fn.body

/-- The functions from the `f`-th on. -/
def addFunctions (s : Numbering) (f : Nat) : List Function → Numbering
  | [] => s
  | fn :: fns => addFunctions (addFunction f fn s) (f + 1) fns

def identifyObjects (m : Module) : Numbering :=
  let s : Numbering := {}
  let s := (List.range m.globals).foldl
    (fun s i => (s.addObject (.global i)).addValue (.global i)) s
  let s := (List.range m.functions.length).foldl (fun s f => s.addObject (.function f)) s
  addFunctions s 0 m.functions

/-! ## The run of a function -/

def pointers (args : List Ty) : Nat := args.countP fun arg => arg = .pointer

/-- How far the `i`-th argument, if it is a pointer, is behind the function. -/
def Function.position (fn : Function) (i : Nat) : Nat :=
  1 + (if fn.returnType = .pointer then 1 else 0) + (if fn.isVarArg then 1 else 0) +
    pointers (fn.args.take i)

def Function.size (fn : Function) : Nat := fn.position fn.args.length

/-- The maps have the nodes of function `f` as a run from `first` on. -/
structure Block (f : Nat) (fn : Function) (s : NodeMaps) (first : Nat) : Prop where
  value : s.valueNodes (.function f) = some first
  result : s.returnNodes f ≠ none ↔ fn.returnType = .pointer
  argument : ∀ {i}, fn.args[i]? = some .pointer →
    s.valueNodes (.argument f i) = some (first + fn.position i)
  maxK : s.maxK first = some fn.size

/-- What comes after `s` in the numbering leaves the nodes of function `f` as they are. -/
structure Keeps (f : Nat) (s s' : Numbering) : Prop where
  grows : s.numObjects ≤ s'.numObjects
  function : s'.valueNodes (.function f) = s.valueNodes (.function f)
  argument : ∀ i, s'.valueNodes (.argument f i) = s.valueNodes (.argument f i)
  returnNodes : s'.returnNodes f = s.returnNodes f
  maxK : ∀ n < s.numObjects, s'.maxK n = s.maxK n

section Keeping
variable {f g i first : Nat} {s s' s'' : Numbering} {v : Value} {fn : Function}

theorem Keeps.refl (f : Nat) (s : Numbering) : Keeps f s s :=
  ⟨Nat.le_refl _, rfl, fun _ => rfl, rfl, fun _ _ => rfl⟩

theorem Keeps.trans (h : Keeps f s s') (h' : Keeps f s' s'') : Keeps f s s'' where
  grows := h.grows.trans h'.grows
  function := h'.function.trans h.function
  argument i := (h'.argument i).trans (h.argument i)
  returnNodes := h'.returnNodes.trans h.returnNodes
  maxK n hn := (h'.maxK n (by have := h.grows; omega)).trans (h.maxK n hn)

theorem Keeps.ite {c : Prop} {_ : Decidable c} (h : Keeps f s s') :
    Keeps f s (if c then s' else s) := by
  split
  · exact h
  · exact .refl f s

theorem keeps_addValue (hfunction : v ≠ .function f) (hargument : ∀ i, v ≠ .argument f i) :
    Keeps f s (s.addValue v) where
  grows := Nat.le_succ _
  function := Function.update_of_ne hfunction.symm ..
  argument i := Function.update_of_ne (hargument i).symm ..
  returnNodes := rfl
  maxK _ _ := rfl

theorem keeps_addObject : Keeps f s (s.addObject v) :=
  ⟨Nat.le_succ _, rfl, fun _ => rfl, rfl, fun _ _ => rfl⟩

theorem keeps_addReturn (hg : g ≠ f) : Keeps f s (s.addReturn g) :=
  ⟨Nat.le_succ _, rfl, fun _ => rfl, Function.update_of_ne hg.symm .., fun _ _ => rfl⟩

theorem keeps_addVararg : Keeps f s (s.addVararg g) :=
  ⟨Nat.le_succ _, rfl, fun _ => rfl, rfl, fun _ _ => rfl⟩

theorem Keeps.setMaxK (h : Keeps f s s') : Keeps f s (s'.setMaxK s.numObjects) where
  grows := h.grows
  function := h.function
  argument := h.argument
  returnNodes := h.returnNodes
  maxK n hn := (Function.update_of_ne (by omega) _ _).trans (h.maxK n hn)

theorem keeps_addArguments (hg : g ≠ f) {args : List Ty} :
    Keeps f s (addArguments g s i args) := by
  induction args generalizing s i with
  | nil => exact .refl f s
  | cons arg args ih =>
    have hvalue : Keeps f s (s.addValue (.argument g i)) :=
      keeps_addValue nofun fun j heq => hg (Value.argument.inj heq).1
    exact .trans (.ite hvalue) ih

theorem keeps_addPointer {inst : Instruction} : Keeps f s (addPointer g i inst s) := by
  unfold addPointer
  refine .trans (.trans ?_ (.ite keeps_addObject)) (.ite keeps_addObject)
  exact keeps_addValue nofun nofun

theorem keeps_addInstruction {inst : Instruction} : Keeps f s (addInstruction g i inst s) := by
  have hpointer : Keeps f s (if inst.type = .pointer then addPointer g i inst s else s) :=
    keeps_addPointer.ite
  unfold addInstruction
  dsimp only
  cases inst.inlineAsm with
  | some callee => exact hpointer.trans (keeps_addValue nofun nofun)
  | none => exact hpointer

theorem keeps_addInstructions {insts : List Instruction} :
    Keeps f s (addInstructions g s i insts) := by
  induction insts generalizing s i with
  | nil => exact .refl f s
  | cons inst insts ih => exact keeps_addInstruction.trans ih

/-- Numbering another function keeps the nodes of this one. -/
theorem keeps_addFunction (hg : g ≠ f) : Keeps f s (addFunction g fn s) := by
  have hvalue : Keeps f s (s.addValue (.function g)) :=
    keeps_addValue (fun heq => hg (Value.function.inj heq)) nofun
  have hsignature : Keeps f s (addSignature g fn s) :=
    .trans (.trans hvalue (.ite (keeps_addReturn hg))) (.ite keeps_addVararg)
  exact (hsignature.trans (keeps_addArguments hg)).setMaxK.trans keeps_addInstructions

theorem Block.keeps {s s' : Numbering} (h : Block f fn s.toNodeMaps first)
    (hfirst : first < s.numObjects) (hkeeps : Keeps f s s') :
    Block f fn s'.toNodeMaps first where
  value := hkeeps.function.trans h.value
  result := by rw [hkeeps.returnNodes]; exact h.result
  argument hi := (hkeeps.argument _).trans (h.argument hi)
  maxK := (hkeeps.maxK _ hfirst).trans h.maxK

end Keeping

section Arguments
variable {f i j : Nat} {s : Numbering} {args : List Ty} {v : Value}

theorem pointers_cons {arg : Ty} :
    pointers (arg :: args) = (if arg = .pointer then 1 else 0) + pointers args := by
  simp [pointers, List.countP_cons, Nat.add_comm]

theorem numObjects_ite {c : Prop} [Decidable c] {s' : Numbering}
    (h : s'.numObjects = s.numObjects + 1) :
    (if c then s' else s).numObjects = s.numObjects + if c then 1 else 0 := by
  split
  · exact h
  · rfl

theorem numObjects_addArguments :
    (addArguments f s i args).numObjects = s.numObjects + pointers args := by
  induction args generalizing s i with
  | nil => rfl
  | cons arg args ih =>
    rw [addArguments, ih, pointers_cons, numObjects_ite rfl]
    omega

theorem returnNodes_addArguments : (addArguments f s i args).returnNodes = s.returnNodes := by
  induction args generalizing s i with
  | nil => rfl
  | cons arg args ih =>
    rw [addArguments, ih]
    split <;> rfl

theorem valueNodes_addArguments_of_ne (hv : ∀ j, i ≤ j → v ≠ .argument f j) :
    (addArguments f s i args).valueNodes v = s.valueNodes v := by
  induction args generalizing s i with
  | nil => rfl
  | cons arg args ih =>
    rw [addArguments, ih fun j hj => hv j (by omega)]
    split
    · exact Function.update_of_ne (hv i (Nat.le_refl i)) ..
    · rfl

/-- The pointers among the arguments have consecutive nodes. -/
theorem valueNodes_addArguments (hj : args[j]? = some .pointer) :
    (addArguments f s i args).valueNodes (.argument f (i + j)) =
      some (s.numObjects + pointers (args.take j)) := by
  induction args generalizing s i j with
  | nil => simp at hj
  | cons arg args ih =>
    cases j with
    | zero =>
      obtain rfl : arg = .pointer := by simpa using hj
      rw [addArguments, valueNodes_addArguments_of_ne fun j hj heq => ?_]
      · exact Function.update_self ..
      · have hi := (Value.argument.inj heq).2
        omega
    | succ j =>
      have hnext := ih (s := if arg = .pointer then s.addValue (.argument f i) else s)
        (i := i + 1) hj
      rw [Nat.add_assoc, Nat.add_comm 1 j] at hnext
      rw [addArguments, hnext, numObjects_ite rfl, List.take_succ_cons, pointers_cons]
      congr 1
      omega

end Arguments

section Blocks
variable {f first : Nat} {fn : Function} {s : Numbering} {m : Module}

theorem numObjects_addSignature :
    (addSignature f fn s).numObjects = s.numObjects + fn.position 0 := by
  unfold addSignature
  rw [numObjects_ite rfl, numObjects_ite rfl]
  simp only [Numbering.addValue, Function.position, pointers, List.take_zero, List.countP_nil]
  omega

theorem valueNodes_addSignature : (addSignature f fn s).valueNodes =
    Function.update s.valueNodes (.function f) (some s.numObjects) := by
  unfold addSignature
  dsimp only
  split <;> split <;> rfl

theorem returnNodes_addSignature (hnew : s.returnNodes f = none) :
    (addSignature f fn s).returnNodes f ≠ none ↔ fn.returnType = .pointer := by
  have hvararg : ∀ s : Numbering, (if fn.isVarArg then s.addVararg f else s).returnNodes =
      s.returnNodes := by
    intro s
    split <;> rfl
  unfold addSignature
  rw [hvararg]
  split
  · rename_i hpointer
    simp [Numbering.addReturn, hpointer]
  · rename_i hother
    simp [Numbering.addValue, hnew, hother]

/-- Numbering a function makes its run. -/
theorem block_addFunction (hnew : s.returnNodes f = none) :
    Block f fn (addFunction f fn s).toNodeMaps s.numObjects ∧
      s.numObjects + fn.size ≤ (addFunction f fn s).numObjects := by
  have hposition : ∀ i, fn.position i = fn.position 0 + pointers (fn.args.take i) := by
    intro i
    simp [Function.position, pointers]
  have hcount : (addArguments f (addSignature f fn s) 0 fn.args).numObjects =
      s.numObjects + fn.size := by
    rw [numObjects_addArguments, numObjects_addSignature, Function.size, hposition fn.args.length,
      List.take_length]
    omega
  have hkeeps : Keeps f ((addArguments f (addSignature f fn s) 0 fn.args).setMaxK s.numObjects)
      (addFunction f fn s) := keeps_addInstructions
  have hblock : Block f fn
      ((addArguments f (addSignature f fn s) 0 fn.args).setMaxK s.numObjects).toNodeMaps
      s.numObjects := by
    refine ⟨?_, ?_, ?_, ?_⟩
    · refine (valueNodes_addArguments_of_ne fun _ _ heq => by cases heq).trans ?_
      rw [valueNodes_addSignature]
      exact Function.update_self ..
    · have hargs : (addArguments f (addSignature f fn s) 0 fn.args).returnNodes =
          (addSignature f fn s).returnNodes := returnNodes_addArguments
      have hreturn := @returnNodes_addSignature f fn s hnew
      rw [← hargs] at hreturn
      exact hreturn
    · intro i hi
      have hvalue := valueNodes_addArguments (f := f) (s := addSignature f fn s) (i := 0) hi
      rw [Nat.zero_add, numObjects_addSignature, Nat.add_assoc, ← hposition] at hvalue
      exact hvalue
    · refine (Function.update_self ..).trans ?_
      rw [hcount, Nat.add_sub_cancel_left]
  have hgrows := hkeeps.grows
  have hmaxK : (addArguments f (addSignature f fn s) 0 fn.args).numObjects ≤
      (addFunction f fn s).numObjects := hgrows
  refine ⟨hblock.keeps ?_ hkeeps, by omega⟩
  have hpositive : 0 < fn.size := by
    unfold Function.size Function.position
    omega
  have hlast : s.numObjects < (addArguments f (addSignature f fn s) 0 fn.args).numObjects := by
    omega
  exact hlast

theorem keeps_foldl {α : Type} {step : Numbering → α → Numbering}
    (h : ∀ s x, Keeps f s (step s x)) {l : List α} : Keeps f s (l.foldl step s) := by
  induction l generalizing s with
  | nil => exact .refl f s
  | cons x l ih => exact (h s x).trans ih

theorem keeps_addFunctions {fns : List Function} {k : Nat} (hk : f < k) :
    Keeps f s (addFunctions s k fns) := by
  induction fns generalizing s k with
  | nil => exact .refl f s
  | cons fn fns ih => exact (keeps_addFunction (by omega)).trans (ih (by omega))

/-- The functions are numbered one after the other, and each keeps its run. -/
theorem block_addFunctions {fns : List Function} {k i : Nat}
    (hnew : ∀ g, k ≤ g → s.returnNodes g = none) (hfn : fns[i]? = some fn) :
    ∃ first, s.numObjects ≤ first ∧ Block (k + i) fn (addFunctions s k fns).toNodeMaps first ∧
      first + fn.size ≤ (addFunctions s k fns).numObjects := by
  induction fns generalizing s k i with
  | nil => simp at hfn
  | cons fn' fns ih =>
    cases i with
    | zero =>
      obtain rfl : fn' = fn := by simpa using hfn
      obtain ⟨hblock, hsize⟩ := @block_addFunction k fn' s (hnew k (Nat.le_refl k))
      have hkeeps : Keeps k (addFunction k fn' s) (addFunctions (addFunction k fn' s) (k + 1) fns) :=
        keeps_addFunctions (Nat.lt_succ_self k)
      have hpositive : 0 < fn'.size := by
        unfold Function.size Function.position
        omega
      exact ⟨_, Nat.le_refl _, hblock.keeps (by omega) hkeeps, hsize.trans hkeeps.grows⟩
    | succ i =>
      have hstep : ∀ g, k + 1 ≤ g → Keeps g s (addFunction k fn' s) :=
        fun g hg => keeps_addFunction (by omega)
      obtain ⟨first, hfirst, hblock, hsize⟩ := ih (s := addFunction k fn' s) (k := k + 1) (i := i)
        (fun g hg => (hstep g hg).returnNodes.trans (hnew g (by omega))) hfn
      rw [Nat.add_assoc, Nat.add_comm 1 i] at hblock
      exact ⟨first, (hstep _ (Nat.le_refl _)).grows.trans hfirst, hblock, hsize⟩

/-- Every function has its run when all objects are identified. -/
theorem block_identifyObjects (hfn : m.functions[f]? = some fn) :
    ∃ first, numberSpecialNodes ≤ first ∧ Block f fn (identifyObjects m).toNodeMaps first ∧
      first + fn.size ≤ (identifyObjects m).numObjects := by
  have hobjects : ∀ g, Keeps g {} ((List.range m.functions.length).foldl
      (fun s f => s.addObject (.function f)) ((List.range m.globals).foldl
        (fun s i => (s.addObject (.global i)).addValue (.global i)) {})) := by
    intro g
    refine (keeps_foldl fun s i => ?_).trans (keeps_foldl fun s f => keeps_addObject)
    exact keeps_addObject.trans (keeps_addValue nofun nofun)
  obtain ⟨first, hfirst, hblock, hsize⟩ := block_addFunctions (k := 0)
    (fun g _ => (hobjects g).returnNodes) hfn
  rw [Nat.zero_add] at hblock
  have hspecial : 6 ≤ first := (hobjects 0).grows.trans hfirst
  exact ⟨first, Nat.le_trans (by decide) hspecial, hblock, hsize⟩

end Blocks

/-! ## `OptimizeConstraints` -/

inductive ConstraintType
  | copy
  | load
  | store
  | addressOf
  deriving DecidableEq

structure Constraint where
  type : ConstraintType
  dest : Nat
  src : Nat
  offset : Nat := 0

structure Node where
  value : Option Value := none
  addressTaken : Bool := false

/-- The state between two phases of the analysis. -/
structure Graph extends NodeMaps where
  graphNodes : List Node
  constraints : List Constraint

/-- Node `i` is one of those that an entry of `MaxK` says belong to a function. -/
def inFunctionBlock (maxK : Nat → Option Nat) (i : Nat) : Bool :=
  (List.range (i + 1)).any fun first =>
    match maxK first with
    | some size => decide (i < first + size)
    | none => false

/-- Nodes become address taken that the loops of `OptimizeConstraints` and of
`ClumpAddressTaken` mark. -/
def addressTaken (a : Graph) (i : Nat) : Bool :=
  (a.graphNodes[i]?.map Node.addressTaken).getD false || inFunctionBlock a.maxK i ||
    a.constraints.any fun c => c.type = .addressOf && c.src = i

/-- The old numbers in the order of `NewGraphNodes`. -/
def newOrder (a : Graph) : List Nat :=
  List.range numberSpecialNodes ++ partitioned (addressTaken a)
    (List.range' numberSpecialNodes (a.graphNodes.length - numberSpecialNodes))

def translate (a : Graph) (i : Nat) : Nat := (newOrder a).idxOf i

def newMaxK (a : Graph) : Nat → Option Nat :=
  renumber a.maxK (translate a) (List.range a.graphNodes.length)

/-- The loops that mark nodes, and `ClumpAddressTaken`. -/
def optimizeConstraints (a : Graph) : Graph where
  valueNodes v := (a.valueNodes v).map (translate a)
  objectNodes v := (a.objectNodes v).map (translate a)
  returnNodes f := (a.returnNodes f).map (translate a)
  varargNodes f := (a.varargNodes f).map (translate a)
  maxK := newMaxK a
  intNode := translate a a.intNode
  aggregateNode := translate a a.aggregateNode
  pthreadSpecificNode := translate a a.pthreadSpecificNode
  graphNodes := (newOrder a).filterMap fun i =>
    a.graphNodes[i]?.map fun node => { node with addressTaken := addressTaken a i }
  constraints := a.constraints.map fun c =>
    { c with src := translate a c.src, dest := translate a c.dest }

section Renumbered
variable {a : Graph} {f i j first k : Nat} {fn : Function}

theorem mem_newOrder (hi : i < a.graphNodes.length) : i ∈ newOrder a := by
  rw [newOrder, List.mem_append, mem_partitioned, List.mem_range, List.mem_range'_1]
  omega

theorem translate_inj (hi : i < a.graphNodes.length) :
    translate a i = translate a j ↔ i = j :=
  List.idxOf_inj (mem_newOrder hi)

theorem newMaxK_translate (hi : i < a.graphNodes.length) :
    newMaxK a (translate a i) = a.maxK i :=
  renumber_number (fun _ => (translate_inj hi).mp) (List.mem_range.mpr hi)

/-- The nodes of a function are address taken. -/
theorem addressTaken_of_block (h : Block f fn a.toNodeMaps first) (hk : k < fn.size) :
    addressTaken a (first + k) = true := by
  have hblock : inFunctionBlock a.maxK (first + k) = true := by
    refine List.any_eq_true.mpr ⟨first, List.mem_range.mpr (by omega), ?_⟩
    rw [h.maxK]
    exact decide_eq_true (by omega)
  rw [addressTaken, hblock, Bool.or_true, Bool.true_or]

/-- They keep their relative positions. -/
theorem translate_block (h : Block f fn a.toNodeMaps first) (hfirst : numberSpecialNodes ≤ first)
    (hinside : first + fn.size ≤ a.graphNodes.length) (hk : k < fn.size) :
    translate a (first + k) = translate a first + k := by
  have hsplit : List.range' numberSpecialNodes (a.graphNodes.length - numberSpecialNodes) =
      List.range' numberSpecialNodes (first - numberSpecialNodes) ++ (List.range' first fn.size ++
        List.range' (first + fn.size) (a.graphNodes.length - (first + fn.size))) := by
    have hstart : numberSpecialNodes + (first - numberSpecialNodes) = first := by omega
    have hrest := @List.range'_append_1 numberSpecialNodes (first - numberSpecialNodes)
      (fn.size + (a.graphNodes.length - (first + fn.size)))
    rw [hstart] at hrest
    rw [List.range'_append_1, hrest]
    congr 1
    omega
  have hplace : ∀ k, k < fn.size → translate a (first + k) = numberSpecialNodes +
      (((List.range' numberSpecialNodes (first - numberSpecialNodes)).filter
        (addressTaken a)).length + k) := by
    intro k hk
    have hspecial : first + k ∉ List.range numberSpecialNodes := by
      rw [List.mem_range]
      omega
    have hrun : (List.range' first fn.size)[k]? = some (first + k) := by
      rw [List.getElem?_range' hk, Nat.one_mul]
    have hnodup := @List.nodup_range' numberSpecialNodes
      (a.graphNodes.length - numberSpecialNodes) 1
    rw [hsplit] at hnodup
    rw [translate, newOrder, List.idxOf_append_of_notMem hspecial, List.length_range, hsplit,
      idxOf_run hnodup (fun x hx => ?_) hrun]
    obtain ⟨hle, hlt⟩ := List.mem_range'_1.mp hx
    have htaken := addressTaken_of_block h (k := x - first) (by omega)
    rw [Nat.add_sub_cancel' hle] at htaken
    exact htaken
  have hzero := hplace 0 (by omega)
  rw [Nat.add_zero] at hzero
  rw [hplace k hk, hzero]
  omega

theorem Function.position_lt (hi : fn.args[i]? = some .pointer) : fn.position i < fn.size := by
  have hnext : pointers (fn.args.take (i + 1)) = pointers (fn.args.take i) + 1 := by
    rw [List.take_add_one, hi]
    simp [pointers]
  have hle : pointers (fn.args.take (i + 1)) ≤ pointers fn.args := (List.take_sublist _ _).countP_le
  rw [Function.size, Function.position, Function.position, List.take_length]
  omega

/-- The run of a function is a run under the new numbers. -/
theorem block_optimizeConstraints (h : Block f fn a.toNodeMaps first)
    (hfirst : numberSpecialNodes ≤ first) (hinside : first + fn.size ≤ a.graphNodes.length) :
    Block f fn (optimizeConstraints a).toNodeMaps (translate a first) where
  value := congrArg (Option.map (translate a)) h.value
  result := Option.map_eq_none_iff.not.trans h.result
  argument hi := by
    refine (congrArg (Option.map (translate a)) (h.argument hi)).trans ?_
    rw [Option.map_some, translate_block h hfirst hinside (Function.position_lt hi)]
  maxK := by
    have hpositive : 0 < fn.size := by
      unfold Function.size Function.position
      omega
    exact (newMaxK_translate (by omega)).trans h.maxK

end Renumbered

end Lockout.Andersens.Objects
