import Mathlib.Data.Finset.Basic
import Mathlib.Data.List.AList
import Lockout.Strator.Program

/-! # The state of a worker

`StratorWorker` with its two caches, the multithreaded flags, the bindings of
`parentValue` and the access records, and what the traversal does at one statement
(`processStatement`) and when it enters a function, up to the point where it goes
on with another statement or function. A failed assertion stops the analysis. -/

namespace Lockout.Strator.State
open Lockout.Strator.Program

abbrev Lock := Value
abbrev LockSet := Finset Lock
abbrev FlowSensitiveValue := AList fun _ : Value => Value

inductive Stop
  | outOfFuel
  | assertFailed (message : String)
  deriving DecidableEq, Repr

/-- The iteration order of a `std::set<LockSet>`, which compares addresses. -/
structure SetOrder where
  iterate : List LockSet → List LockSet
  perm : ∀ l, (iterate l).Perm l

def SetOrder.byInsertion : SetOrder := ⟨id, fun _ => .refl _⟩

/-- The command-line options of the traversal. -/
structure Options where
  upwardPropagationLevel : Nat := 0
  useParentValue : Bool := true
  order : SetOrder := .byInsertion

structure FunctionCacheEntry where
  entryLockSet : LockSet
  exitLockSets : List LockSet
  deriving DecidableEq

structure AccessType where
  isStore : Bool
  isMultiThreaded : Bool
  instruction : InstId
  lockSet : LockSet
  deriving DecidableEq

abbrev ValueToAccessTypeMap := AList fun _ : Value => List AccessType

structure Worker where
  functionCache : String → List FunctionCacheEntry := fun _ => []
  onStack : String → Bool := fun _ => false
  /-- The null function has an entry too. -/
  currentCaller : Option String → Option String := fun _ => none
  /-- Entry lockset and current lockset of every visit. -/
  statementCache : InstId → List (LockSet × LockSet) := fun _ => []
  multithreadedFunctionMap : String → Bool := fun _ => false
  parentValue : FlowSensitiveValue := ∅
  multithreadedAPISet : Finset Value := ∅
  valueToAccessTypeMap : ValueToAccessTypeMap := ∅
  /-- The instruction and lockset of every call of `detectRaces`, newest first. -/
  detected : List (InstId × LockSet) := []

/-! ## Resolving a value -/

/-- The operand of a constant cast. -/
def castOperand : Value → Value
  | .constCast _ operand => operand
  | v => v

/-- One round of the loop of `getDefOperand`; a value with nothing to follow stays. -/
def followOperand (parentValue : FlowSensitiveValue) (visited : List Value) (retVal : Value) :
    Value :=
  match parentValue.lookup retVal with
  | some parent => if parent ∈ visited then castOperand retVal else parent
  | none => castOperand retVal

def defOperandLoop (parentValue : FlowSensitiveValue) : Nat → List Value → Value → Option Value
  | 0, _, _ => none
  | n + 1, visited, retVal =>
    if retVal ∈ visited then some retVal
    else defOperandLoop parentValue n (retVal :: visited)
      (followOperand parentValue (retVal :: visited) retVal)

/-- A constant cast and everything it is a cast of. -/
def castChain : Value → List Value
  | .constCast ty operand => .constCast ty operand :: castChain operand
  | v => [v]

/-- All values the loop can visit. -/
def defOperands (parentValue : FlowSensitiveValue) (operand : Value) : List Value :=
  castChain operand ++ parentValue.entries.flatMap fun e => castChain e.2

/-- `Strator::getDefOperand`. The loop ends within the bound (`defOperandLoop_isSome`). -/
def getDefOperand (opts : Options) (parentValue : FlowSensitiveValue) (operand : Value) : Value :=
  if opts.useParentValue then
    (defOperandLoop parentValue ((defOperands parentValue operand).length + 1) [] operand).getD
      operand
  else operand

/-- `getOperand(0)` of a constant expression or an instruction. -/
def firstOperand (m : IRModule) : Value → Option Value
  | .constCast _ operand => some operand
  | .constGEP base _ => some base
  | .inst id => (m.op? id).bind fun op => op.operands.head?
  | _ => none

/-- `getLockValue` of a call with the arguments `args`. -/
def getLockValue (m : IRModule) (opts : Options) (parentValue : FlowSensitiveValue) :
    List Value → Except Stop Lock
  | [.inst id] =>
    match firstOperand m (.inst id) with
    | some operand => .ok (getDefOperand opts parentValue operand)
    | none => .error (.assertFailed "getOperand() out of range!")
  | [.global name] => .ok (.global name)
  | [.constGEP base indices] => .ok (getDefOperand opts parentValue (.constGEP base indices))
  | [operand] => .ok operand
  | _ => .error (.assertFailed "Case not handled !!!")

/-! ## Recognised functions -/

def contains (name pat : String) : Bool := decide (pat.toList <:+: name.toList)

def isLock (calledFunc : String) : Bool :=
  calledFunc = "pthread_mutex_lock" || calledFunc = "pthread_mutex_trylock"

def isUnLock (calledFunc : String) : Bool := calledFunc = "pthread_mutex_unlock"

def isThreadCreationFunction (fName : String) : Bool := fName = "pthread_create"

def isMultiThreadedName (name : String) : Bool :=
  (contains name "pthread" || contains name "apr_thread") &&
    !contains name "_init" && !contains name "_get" && !contains name "_set"

def isMultiThreadedAPI (m : IRModule) (opts : Options) (w : Worker) (func : Value) : Bool :=
  if opts.upwardPropagationLevel = 0 then isMultiThreadedName (m.valueName func)
  else decide (func ∈ w.multithreadedAPISet) || isMultiThreadedName (m.valueName func)

/-- `getCalledFunction`: the callee of a direct call. -/
def calledFunction : Value → Option String
  | .function f => some f
  | _ => none

/-- `getThreadWorkerFunction` of a call with the arguments `args`. The source casts an
operand that is no function to `ConstantExpr`, whatever it is. -/
def getThreadWorkerFunction (m : IRModule) (args : List Value) : Except Stop String :=
  if args.length = 4 then
    match args.getD 2 (.constant "") with
    | .function f => .ok f
    | operand =>
      match firstOperand m operand with
      | some (.function f) => .ok f
      | _ =>
        .error (.assertFailed "Thread worker function pointer not resolved, something is wrong")
  else .error (.assertFailed "There should be five operands in a call to pthread_create")

/-! ## Changes of the state -/

namespace Worker
variable (w : Worker)

def isInCache (s : InstId) (entryLockSet lockSet : LockSet) : Bool :=
  decide ((entryLockSet, lockSet) ∈ w.statementCache s)

def addToCache (s : InstId) (entryLockSet lockSet : LockSet) : Worker :=
  { w with statementCache :=
      Function.update w.statementCache s (w.statementCache s ++ [(entryLockSet, lockSet)]) }

/-- The entry of the summary cache for a function and an entry lockset. -/
def summary? (f : String) (lockSet : LockSet) : Option FunctionCacheEntry :=
  (w.functionCache f).find? fun e => e.entryLockSet = lockSet

def addSummary (f : String) (entry : FunctionCacheEntry) : Worker :=
  { w with functionCache := Function.update w.functionCache f (w.functionCache f ++ [entry]) }

def setOnStack (f : String) (b : Bool) : Worker :=
  { w with onStack := Function.update w.onStack f b }

def setCurrentCaller (f : Option String) (caller : String) : Worker :=
  { w with currentCaller := Function.update w.currentCaller f (some caller) }

def setMultithreaded (f : String) : Worker :=
  { w with multithreadedFunctionMap := Function.update w.multithreadedFunctionMap f true }

/-- `work` makes the function of a task single-threaded before it traverses it. -/
def startTask (f : String) : Worker :=
  { w with multithreadedFunctionMap := Function.update w.multithreadedFunctionMap f false }

def setParentValue (v parent : Value) : Worker :=
  { w with parentValue := w.parentValue.insert v parent }

def addAPI (f : String) : Worker :=
  { w with multithreadedAPISet := insert (.function f) w.multithreadedAPISet }

def record (v : Value) (accessType : AccessType) : Worker :=
  let accesses := (w.valueToAccessTypeMap.lookup v).getD []
  { w with valueToAccessTypeMap := w.valueToAccessTypeMap.insert v (accesses ++ [accessType]) }

end Worker

/-- The loop that makes the callers of a multithreaded API multithreaded, from the
function `sFunc` on. -/
def propagateUpward : Nat → Option String → Worker → Worker
  | 0, _, w => w
  | n + 1, sFunc, w =>
    match w.currentCaller sFunc with
    | none => w
    | some caller => propagateUpward n (some caller) ((w.addAPI caller).setMultithreaded caller)

/-- `detectRaces` for a load or store `s` of `pointer`. -/
def detectRaces (m : IRModule) (opts : Options) (s : InstId) (isStore : Bool) (pointer : Value)
    (lockSet : LockSet) (w : Worker) : Worker :=
  let w := { w with detected := (s, lockSet) :: w.detected }
  let operand := getDefOperand opts w.parentValue pointer
  if m.isConstantGlobal operand then w
  else if w.multithreadedFunctionMap s.func then
    w.record operand ⟨isStore, w.multithreadedFunctionMap s.func, s, lockSet⟩
  else w

/-- The bindings of the formals of `f` to the actuals, as far as there are both. -/
def bindArguments (m : IRModule) (f : String) (actuals : List Value) (w : Worker) : Worker :=
  ((m.arguments f).zip actuals).foldl (fun w p => w.setParentValue p.1 p.2) w

/-- The arguments of `f` are no longer valid. -/
def eraseArguments (m : IRModule) (f : String) (w : Worker) : Worker :=
  { w with parentValue := (m.arguments f).foldl (fun bindings a => bindings.erase a) w.parentValue }

/-! ## One statement -/

/-- How `traverseStatement` goes on. -/
inductive Next
  | returned
  /-- The successors, with this lockset. -/
  | goOn (lockSet : LockSet)
  /-- A function, then the successors with the locksets it exits with. -/
  | call (f : String) (lockSet : LockSet)
  deriving DecidableEq

/-- The caller of a function is kept only where it is propagated to. -/
def noteCaller (opts : Options) (s : InstId) (calledFunc : Option String) (w : Worker) : Worker :=
  if opts.upwardPropagationLevel ≠ 0 then w.setCurrentCaller calledFunc s.func else w

/-- The part of `traverseStatement` about calls of multithreaded APIs. -/
def markMultithreaded (m : IRModule) (opts : Options) (s : InstId) (callee : Value) (w : Worker) :
    Worker :=
  let w := noteCaller opts s (calledFunction callee) w
  if isMultiThreadedAPI m opts w callee then
    propagateUpward opts.upwardPropagationLevel (calledFunction callee) (w.setMultithreaded s.func)
  else w

/-- A function called from a multithreaded one becomes multithreaded. -/
def inheritFlag (s : InstId) (f : String) (w : Worker) : Worker :=
  if w.multithreadedFunctionMap s.func then w.setMultithreaded f else w

/-- A resolved call of `calledFunc`, up to `traverseFunction`. -/
def enterCall (m : IRModule) (s : InstId) (calledFunc : String) (args : List Value)
    (lockSet : LockSet) (w : Worker) : Except Stop (Next × Worker) :=
  let atThreadCreationFunction := isThreadCreationFunction calledFunc
  (if atThreadCreationFunction then getThreadWorkerFunction m args else .ok calledFunc).bind fun f =>
  let w := inheritFlag s f w
  if atThreadCreationFunction then
    if (m.function f).params.length = 1 then
      .ok (.call f lockSet, bindArguments m f (args.drop 3) w)
    else .error (.assertFailed "pthread thread worker function should have 1 operand")
  else .ok (.call f lockSet, bindArguments m f args w)

def processCall (m : IRModule) (opts : Options) (s : InstId) (callee : Value) (args : List Value)
    (lockSet : LockSet) (w : Worker) : Except Stop (Next × Worker) :=
  let w := markMultithreaded m opts s callee w
  match calledFunction callee with
  | none => .ok (.goOn lockSet, w)
  | some calledFunc =>
    if isLock calledFunc then
      (getLockValue m opts w.parentValue args).map fun l => (.goOn (insert l lockSet), w)
    else if isUnLock calledFunc then
      (getLockValue m opts w.parentValue args).map fun l => (.goOn (lockSet.erase l), w)
    else enterCall m s calledFunc args lockSet w

/-- `traverseStatement` from the statement cache up to the statements or the function it
goes on with. -/
def processStatement (m : IRModule) (opts : Options) (s : InstId) (lockSet : LockSet)
    (w : Worker) : Except Stop (Next × Worker) :=
  match m.op? s with
  | none => .error (.assertFailed "no such statement")
  | some .indirectBr => .error (.assertFailed "We hit an indirect branch\n")
  | some .ret => .ok (.returned, w)
  | some (.bitCast operand) => .ok (.goOn lockSet, w.setParentValue (.inst s) operand)
  | some (.call callee args) => processCall m opts s callee args lockSet w
  | some (.load pointer) => .ok (.goOn lockSet, detectRaces m opts s false pointer lockSet w)
  | some (.store _ pointer) => .ok (.goOn lockSet, detectRaces m opts s true pointer lockSet w)
  | some (.alloca _) | some (.getElementPtr ..) | some (.other _) => .ok (.goOn lockSet, w)

end Lockout.Strator.State
