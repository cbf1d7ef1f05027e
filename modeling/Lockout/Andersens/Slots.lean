import Lockout.Andersens.Objects

/-! # The parameters of indirect calls

An indirect call stores its arguments through the called pointer at offsets from
`CallFirstArgPos` on, and so does `pthread_create` the argument of the thread. While the
constraints are solved, the offset is corrected for each function that the pointer may
point to: for the missing result node, and for the arguments that are no pointers. The
correction for variable arguments compares an iterator with itself, and is never made. -/

namespace Lockout.Andersens.Slots
open Lockout.Andersens.Objects

def universalSet : Nat := 0

def callFirstArgPos : Nat := 2

/-- The constraints for the arguments of an indirect call, given the nodes of those that
are pointers. -/
def indirectCall (callValue : Nat) (args : List (Option Nat)) : List Constraint :=
  args.zipIdx.map fun arg =>
    { type := .store
      dest := callValue
      src := arg.1.getD universalSet
      offset := callFirstArgPos + arg.2 }

/-- The constraint for a call of `pthread_create`. -/
def threadCreation (thrFunc arg : Nat) : Constraint where
  type := .store
  dest := thrFunc
  src := arg
  offset := callFirstArgPos

/-- What `SolveConstraints` makes of the offset `K` for function `f`. -/
def correctOffset (a : NodeMaps) (f : Nat) (fn : Function) (k : Nat) : Nat :=
  let nArg := k - callFirstArgPos
  let k := if a.returnNodes f = none then k - 1 else k
  -- `VarargNodes.find(F) != VarargNodes.find(F)`
  let k := if a.varargNodes f ≠ a.varargNodes f then k + 1 else k
  (fn.args.take nArg).foldl (fun k arg => if arg = .pointer then k else k - 1) k

/-- `CurrMember` and `K` before they are added. -/
def memberOffset (m : Module) (a : Graph) (li : Constraint) (currMember : Nat) : Nat × Nat :=
  match a.graphNodes[currMember]?.bind Node.value with
  | some (.function f) =>
    if 0 < li.offset then
      ((a.valueNodes (.function f)).getD 0,
        match m.functions[f]? with
        | some fn => if callFirstArgPos ≤ li.offset then correctOffset a.toNodeMaps f fn li.offset
            else li.offset
        | none => li.offset)
    else (currMember, li.offset)
  | _ => (currMember, li.offset)

/-- The node that a load or store constraint selects for a member of the solution, if the
member is not passed over. -/
def slot (m : Module) (a : Graph) (li : Constraint) (currMember : Nat) : Option Nat :=
  let (member, k) := memberOffset m a li currMember
  if 0 < k ∧ (a.maxK member).getD 0 < k then none else some (member + k)

section Selection
variable {m : Module} {a : Graph} {li : Constraint} {f i first currMember : Nat} {fn : Function}

/-- Every argument that is no pointer takes one off the offset. -/
theorem foldl_pointers {args : List Ty} {k : Nat} (h : args.length ≤ k + pointers args) :
    args.foldl (fun k arg => if arg = .pointer then k else k - 1) k =
      k + pointers args - args.length := by
  induction args generalizing k with
  | nil => rfl
  | cons arg args ih =>
    have hle : pointers args ≤ args.length := List.countP_le_length
    rw [pointers_cons, List.length_cons] at h
    rw [List.foldl_cons, pointers_cons, List.length_cons]
    split at h
    · rename_i hpointer
      rw [if_pos hpointer, if_pos hpointer, ih (by omega)]
      omega
    · rename_i hother
      rw [if_neg hother, if_neg hother, ih (by omega)]
      omega

/-- The corrected offset of an argument counts the function, its result and the pointers
before the argument. -/
theorem correctOffset_eq {s : NodeMaps} (h : Block f fn s first) (hi : i ≤ fn.args.length) :
    correctOffset s f fn (callFirstArgPos + i) =
      1 + (if fn.returnType = .pointer then 1 else 0) + pointers (fn.args.take i) := by
  have hlength : (fn.args.take i).length = i := List.length_take_of_le hi
  have hresult : (if s.returnNodes f = none then callFirstArgPos + i - 1 else callFirstArgPos + i) =
      1 + (if fn.returnType = .pointer then 1 else 0) + i := by
    unfold callFirstArgPos
    by_cases hpointer : fn.returnType = .pointer
    · rw [if_neg (h.result.mpr hpointer), if_pos hpointer]
    · rw [if_pos (by_contra fun hsome => hpointer (h.result.mp hsome)), if_neg hpointer]
      omega
  -- The iterator is compared with itself, so that nothing is added.
  have hvararg : ∀ k : Nat, (if s.varargNodes f ≠ s.varargNodes f then k + 1 else k) = k :=
    fun k => if_neg fun hne => hne rfl
  unfold correctOffset
  dsimp only
  rw [hresult, hvararg, Nat.add_sub_cancel_left, foldl_pointers (by omega), hlength]
  omega

/-- Of a member that is a function, the selected node is so far behind it. -/
theorem slot_eq (hfn : m.functions[f]? = some fn) (h : Block f fn a.toNodeMaps first)
    (hi : fn.args[i]? = some .pointer) (hoffset : li.offset = callFirstArgPos + i)
    (hmember : a.graphNodes[currMember]?.bind Node.value = some (.function f)) :
    slot m a li currMember = some (first +
      (1 + (if fn.returnType = .pointer then 1 else 0) + pointers (fn.args.take i))) := by
  obtain ⟨hlt, -⟩ := List.getElem?_eq_some_iff.mp hi
  have hpositive : 0 < li.offset := by
    rw [hoffset]
    exact Nat.add_pos_left (by decide) i
  have hfar : callFirstArgPos ≤ li.offset := by omega
  have hcorrected : memberOffset m a li currMember =
      (first, 1 + (if fn.returnType = .pointer then 1 else 0) + pointers (fn.args.take i)) := by
    simp only [memberOffset, hmember, hfn, h.value]
    rw [if_pos hpositive, if_pos hfar, hoffset, correctOffset_eq h hlt.le]
    rfl
  have hsize := Function.position_lt hi
  unfold Function.position at hsize
  unfold slot
  rw [hcorrected]
  dsimp only
  rw [h.maxK, Option.getD_some, if_neg (by omega)]

end Selection

/-- What `CollectConstraints` leaves: the maps of `IdentifyObjects`, its nodes and perhaps
some more, and any constraints. -/
structure Collected (m : Module) (a : Graph) : Prop where
  maps : a.toNodeMaps = (identifyObjects m).toNodeMaps
  nodes : (identifyObjects m).numObjects ≤ a.graphNodes.length

/-- For a member of the solution the node of the `i`-th argument of `f` is selected, under
its new number. -/
def Reaches (m : Module) (a : Graph) (li : Constraint) (currMember f i : Nat) : Prop :=
  ∃ node, (identifyObjects m).valueNodes (.argument f i) = some node ∧
    slot m (optimizeConstraints a) li currMember = some (translate a node)

section Arguments
variable {m : Module} {a : Graph} {f i currMember : Nat} {fn : Function} {li : Constraint}

/-- The node of an argument and the selected one, as distances from the function. -/
theorem argument_and_slot (hfn : m.functions[f]? = some fn) (hi : fn.args[i]? = some .pointer)
    (ha : Collected m a) (hoffset : li.offset = callFirstArgPos + i)
    (hmember : (optimizeConstraints a).graphNodes[currMember]?.bind Node.value =
      some (.function f)) :
    ∃ first k, (identifyObjects m).valueNodes (.argument f i) = some (first + fn.position i) ∧
      translate a (first + fn.position i) = translate a first + fn.position i ∧
      slot m (optimizeConstraints a) li currMember = some (translate a first + k) ∧
      fn.position i = k + if fn.isVarArg then 1 else 0 := by
  obtain ⟨first, hfirst, hblock, hinside⟩ := block_identifyObjects hfn
  rw [← ha.maps] at hblock
  have hlength := ha.nodes
  have hnode := hblock.argument hi
  rw [ha.maps] at hnode
  refine ⟨first, _, hnode, ?_, slot_eq hfn (block_optimizeConstraints hblock hfirst (by omega)) hi
    hoffset hmember, ?_⟩
  · exact translate_block hblock hfirst (by omega) (Function.position_lt hi)
  · unfold Function.position
    omega

theorem reaches_of_fixed (hfn : m.functions[f]? = some fn) (hi : fn.args[i]? = some .pointer)
    (hfixed : fn.isVarArg = false) (ha : Collected m a) (hoffset : li.offset = callFirstArgPos + i)
    (hmember : (optimizeConstraints a).graphNodes[currMember]?.bind Node.value =
      some (.function f)) : Reaches m a li currMember f i := by
  obtain ⟨first, k, hnode, hplace, hslot, hposition⟩ :=
    argument_and_slot hfn hi ha hoffset hmember
  rw [hfixed] at hposition
  refine ⟨_, hnode, ?_⟩
  rw [hslot, hplace, hposition]
  rfl

/-- Each argument of an indirect call reaches the parameter at its place. -/
theorem indirectCall_reaches (hfn : m.functions[f]? = some fn)
    (hi : fn.args[i]? = some .pointer) (hfixed : fn.isVarArg = false) (ha : Collected m a)
    {callValue : Nat} {args : List (Option Nat)} (hli : (indirectCall callValue args)[i]? = some li)
    (hmember : (optimizeConstraints a).graphNodes[currMember]?.bind Node.value =
      some (.function f)) : Reaches m a li currMember f i := by
  refine reaches_of_fixed hfn hi hfixed ha ?_ hmember
  rw [indirectCall, List.getElem?_map, List.getElem?_zipIdx] at hli
  cases harg : args[i]? with
  | none =>
    rw [harg] at hli
    cases hli
  | some arg =>
    rw [harg] at hli
    cases hli
    exact congrArg (callFirstArgPos + ·) (Nat.zero_add i)

/-- The argument of a thread reaches the first parameter of its start routine. -/
theorem threadCreation_reaches (hfn : m.functions[f]? = some fn)
    (hi : fn.args[0]? = some .pointer) (hfixed : fn.isVarArg = false) (ha : Collected m a)
    {thrFunc arg : Nat}
    (hmember : (optimizeConstraints a).graphNodes[currMember]?.bind Node.value =
      some (.function f)) : Reaches m a (threadCreation thrFunc arg) currMember f 0 :=
  reaches_of_fixed hfn hi hfixed ha rfl hmember

end Arguments

/-- A store at the offset of the `i`-th argument, a pointer, through what may point to `f`
reaches this parameter just if `f` has no variable arguments. -/
theorem reaches_iff {m : Module} {f i : Nat} {fn : Function} (hfn : m.functions[f]? = some fn)
    (hi : fn.args[i]? = some .pointer) {a : Graph} (ha : Collected m a) {li : Constraint}
    (hoffset : li.offset = callFirstArgPos + i) {currMember : Nat}
    (hmember : (optimizeConstraints a).graphNodes[currMember]?.bind Node.value =
      some (.function f)) : Reaches m a li currMember f i ↔ fn.isVarArg = false := by
  constructor
  · intro ⟨node, hvalue, hselected⟩
    obtain ⟨first, k, hnode, hplace, hslot, hposition⟩ :=
      argument_and_slot hfn hi ha hoffset hmember
    obtain rfl := Option.some.inj (hnode.symm.trans hvalue)
    rw [hslot, hplace, Option.some_inj] at hselected
    by_contra hvararg
    rw [Bool.not_eq_false] at hvararg
    rw [if_pos hvararg] at hposition
    omega
  · intro hfixed
    exact reaches_of_fixed hfn hi hfixed ha hoffset hmember

/-- A module with one function. -/
def single (fn : Function) : Module where
  globals := 0
  functions := [fn]

/-- The graph of a module with one function, which the fresh node at the end points to. -/
def pointed (fn : Function) (args : List (Option Nat)) : Graph where
  toNodeMaps := (identifyObjects (single fn)).toNodeMaps
  graphNodes := (List.range ((identifyObjects (single fn)).numObjects + 1)).map fun i =>
    { value := if i = 6 then some (.function 0) else none }
  constraints :=
    { type := .addressOf, dest := (identifyObjects (single fn)).numObjects, src := 6 } ::
      indirectCall (identifyObjects (single fn)).numObjects args

theorem collected_pointed {fn : Function} {args : List (Option Nat)} :
    Collected (single fn) (pointed fn args) where
  maps := rfl
  nodes := by simp [pointed]

/-- A function with a number and a pointer as its arguments, called through a pointer. -/
theorem reaches_second : Reaches (single ⟨.pointer, false, [.other, .pointer], []⟩)
    (pointed ⟨.pointer, false, [.other, .pointer], []⟩ [none, some 9])
    { type := .store, dest := 10, src := 9, offset := 3 } 3 0 1 :=
  (reaches_iff rfl rfl collected_pointed rfl (by decide)).mpr rfl

/-- The format of a function with variable arguments is stored to their node. -/
theorem format_not_reached : ¬ ∀ (m : Module) (f i : Nat) (fn : Function) (a : Graph)
    (li : Constraint) (currMember : Nat), m.functions[f]? = some fn →
    fn.args[i]? = some .pointer → Collected m a → li.type = .store →
    li.offset = callFirstArgPos + i →
    (optimizeConstraints a).graphNodes[currMember]?.bind Node.value = some (.function f) →
    Reaches m a li currMember f i := by
  intro hall
  obtain ⟨node, hvalue, hselected⟩ := hall (single ⟨.other, true, [.pointer], []⟩) 0 0 _
    (pointed ⟨.other, true, [.pointer], []⟩ [some 1])
    { type := .store, dest := 10, src := 1, offset := 2 } 3 rfl rfl collected_pointed rfl rfl
    (by decide)
  obtain rfl : 9 = node := Option.some.inj hvalue
  exact absurd hselected (by decide)

end Lockout.Andersens.Slots
