import Mathlib.Data.List.Infix
import Mathlib.Logic.Relation

/-! # Programs in LLVM form

The part of an LLVM module the race detector reads: functions of basic blocks,
instructions with their operands, and constant expressions. An instruction is named
by its function, block and place; constants are equal when they are written alike,
which is how LLVM makes them unique. A function without blocks is a declaration.
Types are kept only in constant casts, debug locations are left out. -/

namespace Lockout.Strator.Program

structure InstId where
  func : String
  block : Nat
  index : Nat
  deriving DecidableEq, Repr

inductive Value
  | global (name : String)
  | function (name : String)
  | argument (func : String) (index : Nat)
  | inst (id : InstId)
  /-- A `ConstantExpr` cast to the type `ty`. -/
  | constCast (ty : String) (operand : Value)
  /-- A `ConstantExpr` getelementptr, with its constant indices. -/
  | constGEP (base : Value) (indices : List Int)
  /-- Any other constant, as it is written. -/
  | constant (text : String)
  deriving DecidableEq, Repr

inductive Opcode
  | ret
  | indirectBr
  | bitCast (operand : Value)
  | call (callee : Value) (args : List Value)
  | load (pointer : Value)
  | store (value pointer : Value)
  | alloca (size : Value)
  | getElementPtr (base : Value) (indices : List Value)
  /-- Any other instruction. -/
  | other (operands : List Value)
  deriving DecidableEq, Repr

/-- `getOperand`; the callee is the last operand of a call. -/
def Opcode.operands : Opcode → List Value
  | .ret | .indirectBr => []
  | .bitCast v | .load v | .alloca v => [v]
  | .call callee args => args ++ [callee]
  | .store v p => [v, p]
  | .getElementPtr base indices => base :: indices
  | .other operands => operands

structure Instruction where
  name : String := ""
  op : Opcode
  deriving DecidableEq, Repr

structure BasicBlock where
  insts : List Instruction
  /-- The successors, by their place in the function. -/
  succs : List Nat := []
  insts_ne : insts ≠ [] := by simp

/-- The block of an instruction and those after it. -/
def BasicBlock.of (first : Instruction) (rest : List Instruction) (succs : List Nat := []) :
    BasicBlock where
  insts := first :: rest
  succs := succs

structure IRFunction where
  /-- The names of the parameters. -/
  params : List String := []
  blocks : List BasicBlock := []
  succs_lt : ∀ b ∈ blocks, ∀ s ∈ b.succs, s < blocks.length := by decide

/-- A function of one block. -/
def IRFunction.straight (first : Instruction) (rest : List Instruction) : IRFunction where
  blocks := [.of first rest]
  succs_lt := by simp [BasicBlock.of]

structure IRModule where
  functions : List (String × IRFunction) := []
  /-- The global variables, with `isConstant`. -/
  globals : List (String × Bool) := []

namespace IRModule
variable (m : IRModule)

def function (f : String) : IRFunction := (m.functions.lookup f).getD {}

def block? (f : String) (b : Nat) : Option BasicBlock := (m.function f).blocks[b]?

def inst? (s : InstId) : Option Instruction :=
  (m.block? s.func s.block).bind fun b => b.insts[s.index]?

def op? (s : InstId) : Option Opcode := (m.inst? s).map Instruction.op

/-- `f.begin()->begin()`; a declaration has none. -/
def entry (f : String) : Option InstId :=
  if (m.function f).blocks = [] then none else some ⟨f, 0, 0⟩

/-- The statements that follow `s`: the next one of its block, or the first ones of
the successors of the block. -/
def succs (s : InstId) : List InstId :=
  match m.block? s.func s.block with
  | none => []
  | some b =>
    if s.index + 1 = b.insts.length then b.succs.map fun c => ⟨s.func, c, 0⟩
    else [⟨s.func, s.block, s.index + 1⟩]

/-- The formal parameters. -/
def arguments (f : String) : List Value :=
  (List.range (m.function f).params.length).map (Value.argument f)

/-- `getName()`. -/
def valueName : Value → String
  | .global name | .function name => name
  | .argument f i => (m.function f).params.getD i ""
  | .inst id => ((m.inst? id).map Instruction.name).getD ""
  | .constCast .. | .constGEP .. | .constant _ => ""

/-- `isa<GlobalVariable>` and `isConstant()`. -/
def isConstantGlobal : Value → Bool
  | .global name => (m.globals.lookup name).getD false
  | _ => false

end IRModule

section Facts
variable {m : IRModule} {f : String} {s s' : InstId}

theorem entry_eq_some (h : m.entry f = some s) : s = ⟨f, 0, 0⟩ ∧ (m.function f).blocks ≠ [] := by
  unfold IRModule.entry at h
  split at h
  · cases h
  · rename_i hne
    exact ⟨(Option.some.inj h).symm, hne⟩

theorem func_entry (h : m.entry f = some s) : s.func = f := by
  rw [(entry_eq_some h).1]

theorem func_succs (h : s' ∈ m.succs s) : s'.func = s.func := by
  unfold IRModule.succs at h
  split at h
  · cases h
  · split at h
    · obtain ⟨c, -, rfl⟩ := List.mem_map.mp h
      rfl
    · rw [List.mem_singleton] at h
      rw [h]

theorem eq_of_mem_succs (h : s' ∈ m.succs s) (hindex : s'.index ≠ 0) :
    s' = ⟨s.func, s.block, s.index + 1⟩ := by
  unfold IRModule.succs at h
  split at h
  · cases h
  · split at h
    · obtain ⟨c, -, rfl⟩ := List.mem_map.mp h
      exact absurd rfl hindex
    · exact List.mem_singleton.mp h

theorem inst?_first {b : Nat} (h : b < (m.function f).blocks.length) :
    ∃ inst, m.inst? ⟨f, b, 0⟩ = some inst := by
  have hblock : m.block? f b = some (m.function f).blocks[b] := List.getElem?_eq_getElem h
  obtain ⟨inst, rest, hinsts⟩ := List.exists_cons_of_ne_nil (m.function f).blocks[b].insts_ne
  refine ⟨inst, ?_⟩
  rw [IRModule.inst?, hblock, Option.bind_some, hinsts]
  rfl

/-- A function that has blocks starts with a statement. -/
theorem inst?_entry (h : m.entry f = some s) : ∃ inst, m.inst? s = some inst := by
  obtain ⟨rfl, hne⟩ := entry_eq_some h
  exact inst?_first (List.length_pos_iff.mpr hne)

/-- What follows a statement is a statement. -/
theorem inst?_succs (h : s' ∈ m.succs s) (hs : ∃ inst, m.inst? s = some inst) :
    ∃ inst, m.inst? s' = some inst := by
  obtain ⟨inst, hinst⟩ := hs
  obtain ⟨b, hb, hindex⟩ := Option.bind_eq_some_iff.mp hinst
  rw [IRModule.succs, hb] at h
  dsimp only at h
  split at h
  · obtain ⟨c, hc, rfl⟩ := List.mem_map.mp h
    exact inst?_first ((m.function s.func).succs_lt b (List.mem_of_getElem? hb) c hc)
  · rename_i hlast
    obtain rfl := List.mem_singleton.mp h
    have hlt := (List.getElem?_eq_some_iff.mp hindex).1
    have hnext : s.index + 1 < b.insts.length := by omega
    exact ⟨b.insts[s.index + 1], by
      rw [IRModule.inst?, hb]
      exact List.getElem?_eq_getElem hnext⟩

end Facts

end Lockout.Strator.Program
