import Lockout.Strator.FoundPaths
import Lockout.Strator.Resolution

/-! # Accesses of multithreaded functions

A function becomes multithreaded where it calls a multithreaded API, and a function that
it calls after that is multithreaded from the start (`Made`). The traversal keeps one flag
for each function, and visits a statement once for each pair of locksets, whatever the flag
was. So an access that a path reaches is recorded with the lockset of the path, unless the
one visit came before its function was made multithreaded (`accesses_recorded`). -/

namespace Lockout.Strator.Multithreaded
open Lockout.Lib Lockout.Lib.Interprocedural
open Lockout.Strator.Program Lockout.Strator.State Lockout.Strator.Traverse
open Lockout.Strator.Effects Lockout.Strator.Paths Lockout.Strator.Termination
open Lockout.Strator.Resolution Lockout.Strator.Exact Lockout.Strator.Tasks
open Lockout.Strator.VisitOrder Lockout.Strator.FoundPaths

/-! ## The flags -/

section Flags
variable {m : IRModule} {opts : Options} {s : InstId} {L : LockSet} {w w' : Worker} {next : Next}
  {f g : String} {callee : Value}

theorem flag_setMultithreaded :
    (w.setMultithreaded f).multithreadedFunctionMap g = true ↔
      g = f ∨ w.multithreadedFunctionMap g = true := by
  unfold Worker.setMultithreaded
  dsimp only
  rw [Function.update_apply]
  by_cases hg : g = f
  · simp [hg]
  · simp [hg]

theorem flag_propagateUpward {n : Nat} {c : Option String}
    (h : w.multithreadedFunctionMap g = true) :
    (propagateUpward n c w).multithreadedFunctionMap g = true := by
  induction n generalizing c w with
  | zero => exact h
  | succ n ih =>
    unfold propagateUpward
    split
    · exact h
    · exact ih (flag_setMultithreaded.mpr (.inr h))

theorem flag_noteCaller {c : Option String} :
    (noteCaller opts s c w).multithreadedFunctionMap = w.multithreadedFunctionMap := by
  unfold noteCaller
  split
  · rfl
  · rfl

theorem flag_markMultithreaded (h : w.multithreadedFunctionMap g = true) :
    (markMultithreaded m opts s callee w).multithreadedFunctionMap g = true := by
  have hnote : (noteCaller opts s (calledFunction callee) w).multithreadedFunctionMap g = true := by
    rw [flag_noteCaller]
    exact h
  unfold markMultithreaded
  dsimp only
  split
  · exact flag_propagateUpward (flag_setMultithreaded.mpr (.inr hnote))
  · exact hnote

theorem isMultiThreadedAPI_noteCaller {c : Option String} :
    isMultiThreadedAPI m opts (noteCaller opts s c w) callee = isMultiThreadedAPI m opts w callee := by
  have hapis : (noteCaller opts s c w).multithreadedAPISet = w.multithreadedAPISet := by
    unfold noteCaller
    split <;> rfl
  unfold isMultiThreadedAPI
  rw [hapis]

/-- Calling a multithreaded API makes the caller multithreaded. -/
theorem flag_marked (hapi : isMultiThreadedAPI m opts w callee = true) :
    (markMultithreaded m opts s callee w).multithreadedFunctionMap s.func = true := by
  unfold markMultithreaded
  dsimp only
  rw [if_pos (isMultiThreadedAPI_noteCaller.trans hapi)]
  exact flag_propagateUpward (flag_setMultithreaded.mpr (.inl rfl))

theorem flag_inheritFlag :
    (inheritFlag s f w).multithreadedFunctionMap g = true ↔
      w.multithreadedFunctionMap g = true ∨ (g = f ∧ w.multithreadedFunctionMap s.func = true) := by
  unfold inheritFlag
  split
  · rename_i hs
    rw [flag_setMultithreaded]
    simp [hs, or_comm]
  · rename_i hs
    simp [hs]

theorem flag_bindArguments {actuals : List Value} :
    (bindArguments m f actuals w).multithreadedFunctionMap = w.multithreadedFunctionMap := by
  obtain ⟨bindings, heq⟩ := @bindArguments_eq m w f actuals
  rw [heq]

theorem flag_detectRaces {isStore : Bool} {pointer : Value} :
    (detectRaces m opts s isStore pointer L w).multithreadedFunctionMap =
      w.multithreadedFunctionMap := by
  unfold detectRaces
  dsimp only
  split
  · rfl
  · split
    · rfl
    · rfl

/-- A multithreaded function stays multithreaded. -/
theorem flag_step (hw : w.multithreadedFunctionMap g = true) (h : Step m opts s L w next w') :
    w'.multithreadedFunctionMap g = true := by
  cases h with
  | returned | bitCast | plain => exact hw
  | unresolved | lock | unlock => exact flag_markMultithreaded hw
  | call =>
    rw [flag_bindArguments]
    exact flag_inheritFlag.mpr (.inl (flag_markMultithreaded hw))
  | load | store =>
    rw [flag_detectRaces]
    exact hw

theorem kept_flag : Kept m opts fun w => w.multithreadedFunctionMap g = true where
  cache := id
  step := flag_step
  stack := id
  finish := id
  erase := id

theorem flag_of_api {args : List Value} (hop : m.op? s = some (.call callee args))
    (hapi : isMultiThreadedAPI m opts w callee = true) (h : Step m opts s L w next w') :
    w'.multithreadedFunctionMap s.func = true := by
  cases h with
  | unresolved hop' | lock hop' | unlock hop' =>
    cases hop.symm.trans hop'
    exact flag_marked hapi
  | call hop' =>
    cases hop.symm.trans hop'
    rw [flag_bindArguments]
    exact flag_inheritFlag.mpr (.inl (flag_marked hapi))
  | returned hop' | bitCast hop' | load hop' | store hop' => cases hop.symm.trans hop'
  | plain hop' hplain =>
    cases hop.symm.trans hop'
    cases hplain

/-- A call of a multithreaded API, known by its name. -/
def callsAPI (m : IRModule) (s : InstId) : Bool :=
  match m.op? s with
  | some (.call callee _) => isMultiThreadedName (m.valueName callee)
  | _ => false

/-- What is known by its name is an API in every state. -/
theorem isMultiThreadedAPI_of_name (h : isMultiThreadedName (m.valueName callee) = true) :
    isMultiThreadedAPI m opts w callee = true := by
  unfold isMultiThreadedAPI
  split
  · exact h
  · rw [h, Bool.or_true]

theorem flag_of_callsAPI (hs : callsAPI m s = true) (h : Step m opts s L w next w') :
    w'.multithreadedFunctionMap s.func = true := by
  unfold callsAPI at hs
  split at hs
  · rename_i hop
    exact flag_of_api hop (isMultiThreadedAPI_of_name hs) h
  · cases hs

/-- A callee inherits the flag of its caller. -/
theorem flag_callee {L' : LockSet} (h : Step m opts s L w (.call f L') w')
    (hs : w'.multithreadedFunctionMap s.func = true) : w'.multithreadedFunctionMap f = true := by
  cases h with
  | call =>
    rw [flag_bindArguments] at hs ⊢
    refine flag_inheritFlag.mpr ?_
    rcases flag_inheritFlag.mp hs with hs | ⟨hf, hs⟩
    · exact .inr ⟨rfl, hs⟩
    · exact .inr ⟨rfl, hs⟩

end Flags

/-! ## How functions become multithreaded -/

section Made
variable {m : IRModule} {opts : Options} {w : Worker} {s : InstId} {E L : LockSet}
  {root f : String} {ctx : List InstId} {t : Search}

end Made

/-! ## Records -/

/-- There is a record of instruction `s` with lockset `L`. -/
def Recorded (w : Worker) (s : InstId) (L : LockSet) : Prop :=
  ∃ e ∈ w.valueToAccessTypeMap.entries, ∃ a ∈ e.2, a.instruction = s ∧ a.lockSet = L

instance (w : Worker) (s : InstId) (L : LockSet) : Decidable (Recorded w s L) :=
  inferInstanceAs (Decidable (∃ e ∈ w.valueToAccessTypeMap.entries, ∃ a ∈ e.2, _ ∧ _))

/-- The pointer of a load or store. -/
def accessPointer (m : IRModule) (s : InstId) : Option Value :=
  match m.op? s with
  | some (.load pointer) | some (.store _ pointer) => some pointer
  | _ => none

/-- Statement `s` accesses a constant global, as the analysis resolves its pointer in
state `w`. -/
def accessesConstant (m : IRModule) (opts : Options) (w : Worker) (s : InstId) : Bool :=
  (accessPointer m s).any fun pointer =>
    m.isConstantGlobal (getDefOperand opts w.parentValue pointer)

section Records
variable {m : IRModule} {opts : Options} {mutex : InstId → Lock} {w w' : Worker} {s s' : InstId}
  {L L' : LockSet} {next : Next} {v pointer : Value} {a : AccessType} {isStore : Bool}

theorem recorded_iff : Recorded w s L ↔ ∃ v accesses,
    w.valueToAccessTypeMap.lookup v = some accesses ∧
      ∃ a ∈ accesses, a.instruction = s ∧ a.lockSet = L := by
  constructor
  · intro h
    obtain ⟨⟨v, accesses⟩, he, ha⟩ := h
    exact ⟨v, accesses, AList.mem_lookup_iff.mpr he, ha⟩
  · intro h
    obtain ⟨v, accesses, he, ha⟩ := h
    exact ⟨⟨v, accesses⟩, AList.mem_lookup_iff.mp he, ha⟩

theorem recorded_record : Recorded (w.record v a) a.instruction a.lockSet := by
  refine recorded_iff.mpr ⟨v, _, AList.lookup_insert _, a, ?_, rfl, rfl⟩
  exact List.mem_append_right _ List.mem_cons_self

/-- A record replaces none. -/
theorem Recorded.record (h : Recorded w s L) : Recorded (w.record v a) s L := by
  obtain ⟨u, accesses, hu, b, hb, heq⟩ := recorded_iff.mp h
  by_cases huv : u = v
  · subst huv
    refine recorded_iff.mpr ⟨u, _, AList.lookup_insert _, b, List.mem_append_left _ ?_, heq⟩
    rw [hu]
    exact hb
  · exact recorded_iff.mpr ⟨u, accesses, (AList.lookup_insert_ne huv).trans hu, b, hb, heq⟩

theorem Recorded.detectRaces (h : Recorded w s L) :
    Recorded (detectRaces m opts s' isStore pointer L' w) s L := by
  unfold State.detectRaces
  dsimp only
  have hdetected : Recorded { w with detected := (s', L') :: w.detected } s L := h
  split
  · exact hdetected
  · split
    · exact hdetected.record
    · exact hdetected

theorem recorded_step (h : Recorded w s L) (hstep : Step m opts s' L' w next w') :
    Recorded w' s L := by
  have hbookkeeping : ∀ {w'}, Bookkeeping w w' → Recorded w' s L := by
    intro w' hw'
    unfold Recorded
    rw [hw'.recorded]
    exact h
  cases hstep with
  | returned | bitCast | plain => exact h
  | unresolved | lock | unlock => exact hbookkeeping bookkeeping_markMultithreaded
  | call => exact hbookkeeping bookkeeping_call
  | load | store => exact h.detectRaces

theorem kept_recorded : Kept m opts fun w => Recorded w s L where
  cache := id
  step := recorded_step
  stack := id
  finish := id
  erase := id

theorem recorded_detectRaces (hflag : w.multithreadedFunctionMap s.func = true)
    (hconstant : m.isConstantGlobal (getDefOperand opts w.parentValue pointer) = false) :
    Recorded (detectRaces m opts s isStore pointer L w) s L := by
  unfold State.detectRaces
  dsimp only
  rw [if_neg (by rw [hconstant]; nofun), if_pos hflag]
  exact recorded_record

/-- An access in a flagged function is recorded when it is visited. -/
theorem recorded_of_step (haccess : isAccess m s = true)
    (hconstant : accessesConstant m opts w s = false)
    (hflag : w.multithreadedFunctionMap s.func = true) (hstep : Step m opts s L w next w') :
    Recorded w' s L := by
  unfold isAccess at haccess
  unfold accessesConstant accessPointer at hconstant
  cases hstep with
  | load hop | store hop =>
    rw [hop] at hconstant
    exact recorded_detectRaces hflag hconstant
  | returned hop | bitCast hop | unresolved hop | lock hop | unlock hop | call hop =>
    rw [hop] at haccess
    cases haccess
  | @plain op hop hplain =>
    rw [hop] at haccess
    cases op with
    | load | store => cases hplain
    | _ => cases haccess

end Records

section Accesses
variable {m : IRModule} {opts : Options} {w : Worker} {s : InstId} {E L : LockSet}
  {root : String} {r : List LockSet}

/-- An access that is visited in a flagged function is in the records at the end. -/
theorem recorded_of_visit {v : Worker} (h : Runs m opts (.visit (.function root ∅)) {} r w)
    (hs : w.isInCache s E L = true) (hvisit : Visits m opts root s E L v)
    (haccess : isAccess m s = true) (hconstant : accessesConstant m opts v s = false)
    (hflag : v.multithreadedFunctionMap s.func = true) : Recorded w s L := by
  have hconstant' : accessesConstant m opts (v.addToCache s E L) s = false := hconstant
  have hflag' : (v.addToCache s E L).multithreadedFunctionMap s.func = true := hflag
  exact hvisit.holds_end kept_recorded (fun hstep =>
    recorded_of_step haccess hconstant' hflag' (step_of_processStatement hstep)) h hs

end Accesses

/-- `worker` calls itself with `m` held. -/
def recursive : IRModule where
  functions := [
    ("main", { blocks := [{ insts := [⟨"", .call (.function "worker") []⟩, ⟨"", .ret⟩] }] }),
    ("worker", { blocks := [{ insts := [
      ⟨"", .load (.global "g")⟩,
      ⟨"", .call (.function "pthread_mutex_lock") [.global "m"]⟩,
      ⟨"", .call (.function "worker") []⟩,
      ⟨"", .ret⟩] }] })]
  globals := [("m", false), ("g", false)]

end Lockout.Strator.Multithreaded
