import Mathlib.Data.List.Perm.Basic
import Mathlib.Logic.Relation

/-! # The uses of a function

`AnalyzeUsesOfFunction` goes through the uses of a function, and of the addresses computed
from it, and answers whether anything complex is among them. Some uses end the loop with
the answer no, so that it depends on their place in the use list whether a complex one is
seen at all; and a call through a pointer is asked for the name of a callee that it does
not have. -/

namespace Lockout.Andersens.Uses

inductive Opcode
  | getElementPtr
  | bitCast
  | other
  deriving DecidableEq

mutual

/-- A value with its use list. -/
inductive Value
  | mk (id : Nat) (isPointer : Bool) (uses : List User)

/-- One use of a value. Operands are named by their identities. -/
inductive User
  | load
  /-- The value is stored, if it is not the pointer operand itself. -/
  | store (pointer : Nat)
  | getElementPtr (gep : Value)
  /-- A `BitCastInst`. -/
  | bitCast (cast : Value)
  | call (calledFunction : Option String) (args : List Nat)
  | invoke (calledFunction : Option String) (args : List Nat)
  | constantExpr (opcode : Opcode) (expr : Value)
  | icmp (withNull : Bool)
  | other

end

namespace Value

def id : Value → Nat
  | mk id _ _ => id

def isPointer : Value → Bool
  | mk _ isPointer _ => isPointer

def uses : Value → List User
  | mk _ _ uses => uses

end Value

/-! ## `AnalyzeUsesOfFunction` -/

/-- `getName` of the null pointer. -/
inductive Fault
  | missingCallee
  deriving DecidableEq

mutual

def analyzeUsesOfFunction : Value → Except Fault Bool
  | .mk v isPointer uses => if isPointer then analyzeUses v uses else .ok true

/-- The loop over the uses. -/
def analyzeUses (v : Nat) : List User → Except Fault Bool
  | [] => .ok false
  | user :: uses => do
    match ← analyzeUse v user with
    | some answer => .ok answer
    | none => analyzeUses v uses

/-- What the body of the loop returns, if it returns. -/
def analyzeUse (v : Nat) : User → Except Fault (Option Bool)
  | .load => .ok (some false)
  | .store pointer => .ok (some (v ≠ pointer))
  | .getElementPtr gep => do
    if ← analyzeUsesOfFunction gep then .ok (some true) else .ok none
  | .call none _ => .error .missingCallee
  | .call (some name) args =>
    if name = "pthread_create" ∧ args[2]? = some v then .ok (some false)
    else .ok (if v ∈ args then some true else none)
  | .invoke _ args => .ok (if v ∈ args then some true else none)
  | .constantExpr opcode expr =>
    if opcode = .getElementPtr ∨ opcode = .bitCast then do
      if ← analyzeUsesOfFunction expr then .ok (some true) else .ok none
    else .ok (some true)
  | .icmp withNull => .ok (if withNull then none else some true)
  | .bitCast _ => .ok (some true)
  | .other => .ok (some true)

end

/-! ## What is expected of it -/

/-- Uses that compute an address from the value, as functions of this address. -/
inductive Computes : (Value → User) → Prop
  | getElementPtr : Computes .getElementPtr
  | bitCast : Computes .bitCast
  | constantExpr (opcode : Opcode) : Computes (.constantExpr opcode)

/-- One use list is put into another order. -/
inductive Permutes : Value → Value → Prop
  | here {v isPointer uses uses'} : uses.Perm uses' →
      Permutes (.mk v isPointer uses) (.mk v isPointer uses')
  | inside {v isPointer front back user w w'} : Computes user → Permutes w w' →
      Permutes (.mk v isPointer (front ++ user w :: back)) (.mk v isPointer (front ++ user w' :: back))

/-- All use lists are put into any order. -/
abbrev Reorders : Value → Value → Prop := Relation.ReflTransGen Permutes

/-- Some use, directly or through a GEP or bitcast, stores the address, or passes it as an
argument other than as the start routine of `pthread_create`. -/
inductive Escapes : Value → Prop
  | stored {v isPointer uses pointer} : .store pointer ∈ uses → pointer ≠ v →
      Escapes (.mk v isPointer uses)
  | passed {v isPointer uses callee args i} :
      .call callee args ∈ uses ∨ .invoke callee args ∈ uses → args[i]? = some v →
      ¬ (callee = some "pthread_create" ∧ i = 2) → Escapes (.mk v isPointer uses)
  | getElementPtr {v isPointer uses gep} :
      .getElementPtr gep ∈ uses ∨ .constantExpr .getElementPtr gep ∈ uses → Escapes gep →
      Escapes (.mk v isPointer uses)
  | bitCast {v isPointer uses cast} :
      .bitCast cast ∈ uses ∨ .constantExpr .bitCast cast ∈ uses → Escapes cast →
      Escapes (.mk v isPointer uses)

/-- What the analysis of a function is to be. -/
structure Reliable (v : Value) : Prop where
  callee : analyzeUsesOfFunction v ≠ .error .missingCallee
  order : ∀ v', Reorders v v' → analyzeUsesOfFunction v' = analyzeUsesOfFunction v
  escapes : Escapes v → analyzeUsesOfFunction v = .ok true

/-! ## The turns of the loop -/

/-- What a use does to the loop: it ends it, lets it go on, or has it look at the uses of
another value first. -/
inductive Turn
  | fault
  | answer (answer : Bool)
  | next
  | analyze (v : Value)

def turn (v : Nat) : User → Turn
  | .load => .answer false
  | .store pointer => .answer (v ≠ pointer)
  | .getElementPtr gep => .analyze gep
  | .call none _ => .fault
  | .call (some name) args =>
    if name = "pthread_create" ∧ args[2]? = some v then .answer false
    else if v ∈ args then .answer true else .next
  | .invoke _ args => if v ∈ args then .answer true else .next
  | .constantExpr opcode expr =>
    if opcode = .getElementPtr ∨ opcode = .bitCast then .analyze expr else .answer true
  | .icmp withNull => if withNull then .next else .answer true
  | .bitCast _ => .answer true
  | .other => .answer true

/-- The way to a value of some kind goes through pointers whose uses are looked at. -/
inductive Leads (q : Value → Prop) : Value → Prop
  | here {v} : q v → Leads q v
  | inside {v user w} : v.isPointer = true → user ∈ v.uses → turn v.id user = .analyze w →
      Leads q w → Leads q v

/-- Some use is a call that names no callee. -/
def Faulty (v : Value) : Prop := v.isPointer = true ∧ ∃ user ∈ v.uses, turn v.id user = .fault

/-- Some use is complex, as the loop sees it. -/
def Complex (v : Value) : Prop :=
  v.isPointer = false ∨ ∃ user ∈ v.uses, turn v.id user = .answer true

/-- No use ends the loop with the answer no. -/
def Unstopped (v : Value) : Prop := ∀ user ∈ v.uses, turn v.id user ≠ .answer false

/-- The loop comes to a complex use in every order. -/
inductive Certain : Value → Prop
  | noPointer {v} : v.isPointer = false → Certain v
  | complex {v user} : Unstopped v → user ∈ v.uses → turn v.id user = .answer true → Certain v
  | inside {v user w} : Unstopped v → user ∈ v.uses → turn v.id user = .analyze w → Certain w →
      Certain v

section Turns
variable {v w : Value} {id : Nat} {user : User} {uses : List User} {b : Bool}

theorem turn_eq_analyze (h : turn id user = .analyze w) : ∃ c : Value → User, Computes c ∧
    user = c w ∧ ∀ w', turn id (c w') = .analyze w' := by
  cases user with
  | getElementPtr gep =>
    cases h
    exact ⟨_, .getElementPtr, rfl, fun _ => rfl⟩
  | constantExpr opcode expr =>
    rw [turn] at h
    split at h
    · rename_i haddress
      cases h
      exact ⟨_, .constantExpr opcode, rfl, fun _ => if_pos haddress⟩
    · cases h
  | call callee args =>
    cases callee with
    | none => cases h
    | some name =>
      rw [turn] at h
      split at h
      · cases h
      · split at h <;> cases h
  | invoke callee args => rw [turn] at h; split at h <;> cases h
  | icmp withNull => rw [turn] at h; split at h <;> cases h
  | load | store | bitCast | other => cases h

/-- An address computed from a value is analysed within the analysis of the value. -/
theorem sizeOf_analyze (huser : user ∈ v.uses) (h : turn v.id user = .analyze w) :
    sizeOf w < sizeOf v := by
  obtain ⟨id, isPointer, uses⟩ := v
  have hmem : sizeOf user < sizeOf uses := List.sizeOf_lt_of_mem huser
  obtain ⟨c, hc, rfl, -⟩ := turn_eq_analyze h
  have hinside : sizeOf w < sizeOf (c w) := by
    cases hc <;> simp only [User.getElementPtr.sizeOf_spec, User.bitCast.sizeOf_spec,
      User.constantExpr.sizeOf_spec] <;> omega
  simp only [Value.mk.sizeOf_spec]
  omega

/-- Induction along the calls of the analysis. -/
theorem Value.induction {P : Value → Prop}
    (h : ∀ v : Value, (∀ user ∈ v.uses, ∀ w, turn v.id user = .analyze w → P w) → P v)
    (v : Value) : P v := by
  induction hsize : sizeOf v using Nat.strongRecOn generalizing v with
  | ind n ih =>
    subst hsize
    exact h v fun user huser w hturn => ih _ (sizeOf_analyze huser hturn) w rfl

/-- What the body of the loop makes of a turn. -/
def Turn.outcome : Turn → Except Fault (Option Bool)
  | .fault => .error .missingCallee
  | .answer b => .ok (some b)
  | .next => .ok none
  | .analyze w => do if ← analyzeUsesOfFunction w then .ok (some true) else .ok none

theorem analyzeUse_eq : analyzeUse id user = (turn id user).outcome := by
  cases user with
  | call callee args =>
    cases callee with
    | none => rfl
    | some name =>
      rw [analyzeUse, turn]
      split
      · rfl
      · split <;> rfl
  | invoke callee args => rw [analyzeUse, turn]; split <;> rfl
  | constantExpr opcode expr => rw [analyzeUse, turn]; split <;> rfl
  | icmp withNull => rw [analyzeUse, turn]; split <;> rfl
  | load | store | getElementPtr | bitCast | other => rfl

theorem analyze_pointer (h : v.isPointer = true) :
    analyzeUsesOfFunction v = analyzeUses v.id v.uses := by
  obtain ⟨id, isPointer, uses⟩ := v
  unfold analyzeUsesOfFunction
  rw [if_pos (show isPointer = true from h)]
  rfl

theorem analyze_noPointer (h : v.isPointer = false) : analyzeUsesOfFunction v = .ok true := by
  obtain ⟨id, isPointer, uses⟩ := v
  unfold analyzeUsesOfFunction
  rw [if_neg (show ¬ isPointer = true from by rw [show isPointer = false from h]; nofun)]

theorem analyzeUses_answer (h : analyzeUse id user = .ok (some b)) :
    analyzeUses id (user :: uses) = .ok b := by
  rw [analyzeUses, h]
  rfl

theorem analyzeUses_next (h : analyzeUse id user = .ok none) :
    analyzeUses id (user :: uses) = analyzeUses id uses := by
  rw [analyzeUses, h]
  rfl

theorem analyzeUses_fault {fault : Fault} (h : analyzeUse id user = .error fault) :
    analyzeUses id (user :: uses) = .error fault := by
  rw [analyzeUses, h]
  rfl

end Turns

/-! ## The answer -/

section Answers
variable {v w : Value} {id : Nat} {user : User} {uses : List User}

theorem outcome_analyze {b : Bool} (h : analyzeUsesOfFunction w = .ok b) :
    (Turn.analyze w).outcome = .ok (if b then some true else none) := by
  rw [Turn.outcome, h]
  cases b <;> rfl

theorem outcome_analyze_ne (h : analyzeUsesOfFunction w ≠ .ok true) :
    (Turn.analyze w).outcome ≠ .ok (some true) := by
  cases hw : analyzeUsesOfFunction w with
  | error fault =>
    rw [Turn.outcome, hw]
    nofun
  | ok b =>
    rw [outcome_analyze hw]
    cases b with
    | false => nofun
    | true => exact absurd hw h

/-- Where no use ends the loop with no, one that ends it with yes decides. -/
theorem analyzeUses_eq_true
    (h : ∀ user ∈ uses, analyzeUse id user = .ok none ∨ analyzeUse id user = .ok (some true))
    (huser : user ∈ uses) (htrue : analyzeUse id user = .ok (some true)) :
    analyzeUses id uses = .ok true := by
  induction uses with
  | nil => cases huser
  | cons first uses ih =>
    obtain hnext | hyes := h first List.mem_cons_self
    · rw [analyzeUses_next hnext]
      obtain rfl | hrest := List.mem_cons.mp huser
      · cases htrue.symm.trans hnext
      · exact ih (fun user hmem => h user (List.mem_cons_of_mem first hmem)) hrest
    · exact analyzeUses_answer hyes

theorem analyzeUses_eq_false
    (h : ∀ user ∈ uses, analyzeUse id user = .ok none ∨ analyzeUse id user = .ok (some false)) :
    analyzeUses id uses = .ok false := by
  induction uses with
  | nil => rfl
  | cons first uses ih =>
    obtain hnext | hno := h first List.mem_cons_self
    · rw [analyzeUses_next hnext]
      exact ih fun user hmem => h user (List.mem_cons_of_mem first hmem)
    · exact analyzeUses_answer hno

/-- Without a use that ends the loop with yes the answer is not yes. -/
theorem analyzeUses_ne_true (h : ∀ user ∈ uses, analyzeUse id user ≠ .ok (some true)) :
    analyzeUses id uses ≠ .ok true := by
  induction uses with
  | nil => nofun
  | cons first uses ih =>
    have hfirst := h first List.mem_cons_self
    cases huse : analyzeUse id first with
    | error fault =>
      rw [analyzeUses_fault huse]
      nofun
    | ok answer =>
      cases answer with
      | none =>
        rw [analyzeUses_next huse]
        exact ih fun user hmem => h user (List.mem_cons_of_mem first hmem)
      | some answer =>
        rw [analyzeUses_answer huse]
        intro heq
        cases heq
        exact hfirst huse

theorem analyzeUses_returns (h : ∀ user ∈ uses, ∃ answer, analyzeUse id user = .ok answer) :
    ∃ b, analyzeUses id uses = .ok b := by
  induction uses with
  | nil => exact ⟨false, rfl⟩
  | cons first uses ih =>
    obtain ⟨answer, hfirst⟩ := h first List.mem_cons_self
    cases answer with
    | none =>
      rw [analyzeUses_next hfirst]
      exact ih fun user hmem => h user (List.mem_cons_of_mem first hmem)
    | some b => exact ⟨b, analyzeUses_answer hfirst⟩

theorem not_faulty_inside (hv : v.isPointer = true) (h : ¬ Leads Faulty v)
    (huser : user ∈ v.uses) (hturn : turn v.id user = .analyze w) : ¬ Leads Faulty w :=
  fun hw => h (.inside hv huser hturn hw)

/-- The loop ends with an answer where every call names its callee. -/
theorem analyze_returns (v : Value) (h : ¬ Leads Faulty v) :
    ∃ b, analyzeUsesOfFunction v = .ok b := by
  induction v using Value.induction with
  | h v ih =>
    cases hv : v.isPointer with
    | false => exact ⟨true, analyze_noPointer hv⟩
    | true =>
      have huse : ∀ user ∈ v.uses, ∃ answer, analyzeUse v.id user = .ok answer := by
        intro user huser
        rw [analyzeUse_eq]
        cases hturn : turn v.id user with
        | fault => exact absurd (.here ⟨hv, user, huser, hturn⟩) h
        | answer b => exact ⟨_, rfl⟩
        | next => exact ⟨_, rfl⟩
        | analyze w =>
          obtain ⟨b, hb⟩ := ih user huser w hturn (not_faulty_inside hv h huser hturn)
          exact ⟨_, outcome_analyze hb⟩
      rw [analyze_pointer hv]
      exact analyzeUses_returns huse

/-- Where no use ends the loop with no, each lets it go on or ends it with yes. -/
theorem use_of_unstopped (hv : v.isPointer = true) (h : ¬ Leads Faulty v) (hgoes : Unstopped v)
    (huser : user ∈ v.uses) :
    analyzeUse v.id user = .ok none ∨ analyzeUse v.id user = .ok (some true) := by
  rw [analyzeUse_eq]
  cases hturn : turn v.id user with
  | fault => exact absurd (.here ⟨hv, user, huser, hturn⟩) h
  | answer b =>
    cases b with
    | false => exact absurd hturn (hgoes user huser)
    | true => exact .inr rfl
  | next => exact .inl rfl
  | analyze w =>
    obtain ⟨b, hb⟩ := analyze_returns w (not_faulty_inside hv h huser hturn)
    rw [outcome_analyze hb]
    cases b with
    | false => exact .inl rfl
    | true => exact .inr rfl

/-- Where no use ends the loop with no, a use that ends it with yes decides. -/
theorem analyze_of_use (h : ¬ Leads Faulty v) (hgoes : Unstopped v) (huser : user ∈ v.uses)
    (huse : v.isPointer = true → analyzeUse v.id user = .ok (some true)) :
    analyzeUsesOfFunction v = .ok true := by
  cases hv : v.isPointer with
  | false => exact analyze_noPointer hv
  | true =>
    rw [analyze_pointer hv]
    exact analyzeUses_eq_true (fun _ => use_of_unstopped hv h hgoes) huser (huse hv)

theorem analyze_of_certain (hcertain : Certain v) (h : ¬ Leads Faulty v) :
    analyzeUsesOfFunction v = .ok true := by
  induction hcertain with
  | noPointer hv => exact analyze_noPointer hv
  | complex hgoes huser hturn =>
    refine analyze_of_use h hgoes huser fun _ => ?_
    rw [analyzeUse_eq, hturn]
    rfl
  | inside hgoes huser hturn _ ih =>
    refine analyze_of_use h hgoes huser fun hv => ?_
    rw [analyzeUse_eq, hturn, outcome_analyze (ih (not_faulty_inside hv h huser hturn))]
    rfl

theorem analyze_of_simple (v : Value) (hsimple : ¬ Leads Complex v) (h : ¬ Leads Faulty v) :
    analyzeUsesOfFunction v = .ok false := by
  induction v using Value.induction with
  | h v ih =>
    cases hv : v.isPointer with
    | false => exact absurd (.here (.inl hv)) hsimple
    | true =>
      rw [analyze_pointer hv]
      refine analyzeUses_eq_false fun user huser => ?_
      rw [analyzeUse_eq]
      cases hturn : turn v.id user with
      | fault => exact absurd (.here ⟨hv, user, huser, hturn⟩) h
      | answer b =>
        cases b with
        | false => exact .inr rfl
        | true => exact absurd (.here (.inr ⟨user, huser, hturn⟩)) hsimple
      | next => exact .inl rfl
      | analyze w =>
        have hinside := ih user huser w hturn (fun hw => hsimple (.inside hv huser hturn hw))
          (not_faulty_inside hv h huser hturn)
        exact .inl (outcome_analyze hinside)

end Answers

/-! ## Other orders -/

section Orders
variable {v v' w w' : Value} {id : Nat} {isPointer : Bool} {user : User} {front back uses : List User}
  {q : Value → Prop}

theorem Permutes.symm (h : Permutes v v') : Permutes v' v := by
  induction h with
  | here hperm => exact .here hperm.symm
  | inside hc _ ih => exact .inside hc ih

theorem Permutes.same (h : Permutes v v') : v'.id = v.id ∧ v'.isPointer = v.isPointer := by
  cases h <;> exact ⟨rfl, rfl⟩

/-- Every use is there after the change, or one of the same kind with a changed value. -/
theorem Permutes.exists_use (h : Permutes v v') (huser : user ∈ v.uses) :
    ∃ user' ∈ v'.uses, turn v'.id user' = turn v.id user ∨
      ∃ w w', turn v.id user = .analyze w ∧ turn v'.id user' = .analyze w' ∧ Permutes w w' := by
  cases h with
  | here hperm => exact ⟨user, hperm.mem_iff.mp huser, .inl rfl⟩
  | @inside id isPointer front back c w w' hc hw =>
    obtain hfront | huser := List.mem_append.mp huser
    · exact ⟨user, List.mem_append_left _ hfront, .inl rfl⟩
    · obtain rfl | hback := List.mem_cons.mp huser
      · refine ⟨c w', List.mem_append_right _ List.mem_cons_self, ?_⟩
        cases hc with
        | getElementPtr => exact .inr ⟨w, w', rfl, rfl, hw⟩
        | bitCast => exact .inl rfl
        | constantExpr opcode =>
          by_cases haddress : opcode = .getElementPtr ∨ opcode = .bitCast
          · exact .inr ⟨w, w', if_pos haddress, if_pos haddress, hw⟩
          · exact .inl ((if_neg haddress).trans (if_neg haddress).symm)
      · exact ⟨user, List.mem_append_right _ (List.mem_cons_of_mem _ hback), .inl rfl⟩

theorem Permutes.exists_turn (h : Permutes v v') (huser : user ∈ v.uses) {turned : Turn}
    (hturn : turn v.id user = turned) (hends : ∀ w, turned ≠ .analyze w) :
    ∃ user' ∈ v'.uses, turn v'.id user' = turned := by
  obtain ⟨user', huser', hsame | ⟨w, w', hw, -, -⟩⟩ := h.exists_use huser
  · exact ⟨user', huser', hsame.trans hturn⟩
  · exact absurd (hturn.symm.trans hw) (hends w)

theorem Permutes.exists_analyze (h : Permutes v v') (huser : user ∈ v.uses)
    (hturn : turn v.id user = .analyze w) :
    ∃ user' ∈ v'.uses, ∃ w', turn v'.id user' = .analyze w' ∧ (w' = w ∨ Permutes w w') := by
  obtain ⟨user', huser', hsame | ⟨w₁, w', hw, hw', hpermutes⟩⟩ := h.exists_use huser
  · exact ⟨user', huser', w, hsame.trans hturn, .inl rfl⟩
  · cases hturn.symm.trans hw
    exact ⟨user', huser', w', hw', .inr hpermutes⟩

theorem Faulty.permutes (hv : Faulty v) (h : Permutes v v') : Faulty v' := by
  obtain ⟨hpointer, user, huser, hturn⟩ := hv
  exact ⟨h.same.2.trans hpointer, h.exists_turn huser hturn nofun⟩

theorem Complex.permutes (hv : Complex v) (h : Permutes v v') : Complex v' := by
  obtain hpointer | ⟨user, huser, hturn⟩ := hv
  · exact .inl (h.same.2.trans hpointer)
  · exact .inr (h.exists_turn huser hturn nofun)

theorem Unstopped.permutes (hv : Unstopped v) (h : Permutes v v') : Unstopped v' := by
  intro user huser hturn
  obtain ⟨user', huser', hturn'⟩ := h.symm.exists_turn huser hturn nofun
  exact hv user' huser' hturn'

theorem Leads.permutes (hq : ∀ {v v'}, q v → Permutes v v' → q v') (hv : Leads q v)
    (h : Permutes v v') : Leads q v' := by
  induction hv generalizing v' with
  | here hv => exact .here (hq hv h)
  | @inside v user w hpointer huser hturn hw ih =>
    obtain ⟨user', huser', w', hturn', rfl | hpermutes⟩ := h.exists_analyze huser hturn
    · exact .inside (h.same.2.trans hpointer) huser' hturn' hw
    · exact .inside (h.same.2.trans hpointer) huser' hturn' (ih hpermutes)

theorem Certain.permutes (hv : Certain v) (h : Permutes v v') : Certain v' := by
  induction hv generalizing v' with
  | noPointer hpointer => exact .noPointer (h.same.2.trans hpointer)
  | complex hgoes huser hturn =>
    obtain ⟨user', huser', hturn'⟩ := h.exists_turn huser hturn nofun
    exact .complex (hgoes.permutes h) huser' hturn'
  | @inside v user w hgoes huser hturn hw ih =>
    obtain ⟨user', huser', w', hturn', rfl | hpermutes⟩ := h.exists_analyze huser hturn
    · exact .inside (hgoes.permutes h) huser' hturn' hw
    · exact .inside (hgoes.permutes h) huser' hturn' (ih hpermutes)

/-- What one change of order keeps, all reorderings keep. -/
theorem Reorders.keeps (hq : ∀ {v v'}, q v → Permutes v v' → q v') (hv : q v)
    (h : Reorders v v') : q v' := by
  induction h with
  | refl => exact hv
  | tail _ hstep ih => exact hq ih hstep

theorem Reorders.symm (h : Reorders v v') : Reorders v' v := by
  induction h with
  | refl => exact .refl
  | tail _ hstep ih => exact .head hstep.symm ih

theorem Reorders.inside {c : Value → User} (hc : Computes c) (h : Reorders w w') :
    Reorders (.mk id isPointer (front ++ c w :: back)) (.mk id isPointer (front ++ c w' :: back)) :=
  h.lift (fun w => Value.mk id isPointer (front ++ c w :: back)) fun _ _ => .inside hc

/-- Any use can come first. -/
theorem exists_first (hv : v.isPointer = true) (huser : user ∈ v.uses) :
    ∃ rest, Reorders v (.mk v.id true (user :: rest)) := by
  obtain ⟨id, isPointer, uses⟩ := v
  obtain rfl : isPointer = true := hv
  obtain ⟨front, back, rfl⟩ := List.append_of_mem huser
  exact ⟨front ++ back, .single (.here List.perm_middle)⟩

/-- A use that ends the loop does so in some order. -/
theorem exists_order_answer {b : Bool} (hv : v.isPointer = true) (huser : user ∈ v.uses)
    (hturn : turn v.id user = .answer b) :
    ∃ v', Reorders v v' ∧ analyzeUsesOfFunction v' = .ok b := by
  obtain ⟨rest, hrest⟩ := exists_first hv huser
  refine ⟨_, hrest, (analyze_pointer rfl).trans (analyzeUses_answer ?_)⟩
  rw [analyzeUse_eq]
  exact congrArg Turn.outcome hturn

theorem Complex.exists_order (hv : Complex v) :
    ∃ v', Reorders v v' ∧ analyzeUsesOfFunction v' = .ok true := by
  cases hpointer : v.isPointer with
  | false => exact ⟨v, .refl, analyze_noPointer hpointer⟩
  | true =>
    obtain hno | ⟨user, huser, hturn⟩ := hv
    · cases hpointer.symm.trans hno
    · exact exists_order_answer hpointer huser hturn

theorem Faulty.exists_order (hv : Faulty v) :
    ∃ v', Reorders v v' ∧ analyzeUsesOfFunction v' = .error .missingCallee := by
  obtain ⟨hpointer, user, huser, hturn⟩ := hv
  obtain ⟨rest, hrest⟩ := exists_first hpointer huser
  refine ⟨_, hrest, (analyze_pointer rfl).trans (analyzeUses_fault ?_)⟩
  rw [analyzeUse_eq]
  exact congrArg Turn.outcome hturn

/-- What the analysis of a value can come to, that of a value whose uses lead there can come
to, unless it is the answer no. -/
theorem Leads.exists_order {r : Except Fault Bool}
    (hq : ∀ {v}, q v → ∃ v', Reorders v v' ∧ analyzeUsesOfFunction v' = r) (hr : r ≠ .ok false)
    (hv : Leads q v) :
    ∃ v', Reorders v v' ∧ analyzeUsesOfFunction v' = r := by
  induction hv with
  | here hv => exact hq hv
  | @inside v user w hpointer huser hturn _ ih =>
    obtain ⟨w', hw, hanswer⟩ := ih
    obtain ⟨c, hc, rfl, hturns⟩ := turn_eq_analyze hturn
    obtain ⟨rest, hrest⟩ := exists_first hpointer huser
    have hinside : Reorders (.mk v.id true (c w :: rest)) (.mk v.id true (c w' :: rest)) :=
      @Reorders.inside w w' v.id true [] rest c hc hw
    refine ⟨_, hrest.trans hinside, (analyze_pointer rfl).trans ?_⟩
    have huse : analyzeUse v.id (c w') = (Turn.analyze w').outcome := by
      rw [analyzeUse_eq, hturns]
    rw [Turn.outcome, hanswer] at huse
    cases r with
    | error fault => exact analyzeUses_fault huse
    | ok b =>
      cases b with
      | false => exact absurd rfl hr
      | true => exact analyzeUses_answer huse

/-- Where every use can be made to end nothing with yes, all of them can be at once. -/
theorem exists_order_uses
    (h : ∀ user ∈ uses, turn id user ≠ .answer true ∧ ∀ w, turn id user = .analyze w →
      ∃ w', Reorders w w' ∧ analyzeUsesOfFunction w' ≠ .ok true) :
    ∃ uses', Reorders (.mk id true (front ++ uses)) (.mk id true (front ++ uses')) ∧
      ∀ user ∈ uses', analyzeUse id user ≠ .ok (some true) := by
  induction uses generalizing front with
  | nil => exact ⟨[], .refl, nofun⟩
  | cons user uses ih =>
    obtain ⟨hanswer, hanalyze⟩ := h user List.mem_cons_self
    have hrest := fun user hmem => h user (List.mem_cons_of_mem _ hmem)
    obtain ⟨user', hfirst, huse⟩ : ∃ user',
        Reorders (.mk id true (front ++ user :: uses)) (.mk id true (front ++ user' :: uses)) ∧
          analyzeUse id user' ≠ .ok (some true) := by
      cases hturn : turn id user with
      | analyze w =>
        obtain ⟨w', hw, hne⟩ := hanalyze w hturn
        obtain ⟨c, hc, rfl, hturns⟩ := turn_eq_analyze hturn
        refine ⟨c w', Reorders.inside hc hw, ?_⟩
        rw [analyzeUse_eq, hturns]
        exact outcome_analyze_ne hne
      | answer b =>
        refine ⟨user, .refl, ?_⟩
        rw [analyzeUse_eq, hturn]
        intro htrue
        cases htrue
        exact hanswer hturn
      | fault | next =>
        refine ⟨user, .refl, ?_⟩
        rw [analyzeUse_eq, hturn]
        nofun
    obtain ⟨uses', hothers, huses⟩ := @ih (front ++ [user']) hrest
    rw [List.append_assoc, List.append_assoc] at hothers
    refine ⟨user' :: uses', hfirst.trans hothers, ?_⟩
    intro later hlater
    obtain rfl | hlater := List.mem_cons.mp hlater
    · exact huse
    · exact huses later hlater

/-- In some order the answer is not yes, unless a complex use is come to in every order. -/
theorem exists_order_ne_true (v : Value) (h : ¬ Certain v) :
    ∃ v', Reorders v v' ∧ analyzeUsesOfFunction v' ≠ .ok true := by
  induction v using Value.induction with
  | h v ih =>
    cases hpointer : v.isPointer with
    | false => exact absurd (.noPointer hpointer) h
    | true =>
      by_cases hgoes : Unstopped v
      · have huses : ∀ user ∈ v.uses, turn v.id user ≠ .answer true ∧
            ∀ w, turn v.id user = .analyze w →
              ∃ w', Reorders w w' ∧ analyzeUsesOfFunction w' ≠ .ok true := by
          intro user huser
          exact ⟨fun hturn => h (.complex hgoes huser hturn), fun w hturn =>
            ih user huser w hturn fun hw => h (.inside hgoes huser hturn hw)⟩
        obtain ⟨id, isPointer, uses⟩ := v
        obtain rfl : isPointer = true := hpointer
        obtain ⟨uses', hreorders, hnone⟩ := @exists_order_uses id [] uses huses
        refine ⟨_, hreorders, ?_⟩
        rw [analyze_pointer rfl]
        exact analyzeUses_ne_true hnone
      · -- Some use ends the loop with no, and it can come first.
        obtain ⟨user, huser, hturn⟩ : ∃ user ∈ v.uses, turn v.id user = .answer false := by
          simpa [Unstopped] using hgoes
        obtain ⟨v', hreorders, hfalse⟩ := exists_order_answer hpointer huser hturn
        refine ⟨v', hreorders, ?_⟩
        rw [hfalse]
        nofun

end Orders

/-- The analysis does what is expected of it just for values from whose uses it never comes
to a call without a callee, and for which, if there is a complex or escaping use at all, it
comes to a complex use in every order. -/
theorem reliable_iff (v : Value) :
    Reliable v ↔ ¬ Leads Faulty v ∧ (Leads Complex v ∨ Escapes v → Certain v) := by
  constructor
  · intro hv
    refine ⟨fun hfaulty => ?_, fun hcomplex => ?_⟩
    · obtain ⟨v', hreorders, hfault⟩ := hfaulty.exists_order Faulty.exists_order nofun
      exact hv.callee ((hv.order v' hreorders).symm.trans hfault)
    · by_contra hcertain
      obtain ⟨v', hreorders, hne⟩ := exists_order_ne_true v hcertain
      rw [hv.order v' hreorders] at hne
      obtain hcomplex | hescapes := hcomplex
      · obtain ⟨v'', hreorders', htrue⟩ := hcomplex.exists_order Complex.exists_order nofun
        exact hne ((hv.order v'' hreorders').symm.trans htrue)
      · exact hne (hv.escapes hescapes)
  · intro ⟨hfaulty, hcertain⟩
    have hanswer : ∀ v', Reorders v v' → ¬ Leads Faulty v' :=
      fun v' h hfaulty' => hfaulty (Reorders.keeps (Leads.permutes Faulty.permutes) hfaulty' h.symm)
    refine ⟨?_, ?_, ?_⟩
    · obtain ⟨b, hb⟩ := analyze_returns v hfaulty
      rw [hb]
      nofun
    · intro v' h
      by_cases hcomplex : Leads Complex v
      · have hv := hcertain (.inl hcomplex)
        rw [analyze_of_certain hv hfaulty,
          analyze_of_certain (Reorders.keeps Certain.permutes hv h) (hanswer v' h)]
      · have hsimple : ¬ Leads Complex v' := fun hcomplex' =>
          hcomplex (Reorders.keeps (Leads.permutes Complex.permutes) hcomplex' h.symm)
        rw [analyze_of_simple v hcomplex hfaulty, analyze_of_simple v' hsimple (hanswer v' h)]
    · exact fun hescapes => analyze_of_certain (hcertain (.inr hescapes)) hfaulty

/-- A function that is called through a cast. -/
def casted : Value := .mk 0 true [.constantExpr .bitCast (.mk 1 true [.call none []])]

/-- A start routine that is stored as well. -/
def started : Value := .mk 0 true [.call (some "pthread_create") [2, 3, 0, 4], .store 5]

/-- Of the one the callee is missing, and of the other the address escapes unnoticed. -/
theorem unreliable : analyzeUsesOfFunction casted = .error .missingCallee ∧
    (analyzeUsesOfFunction started = .ok false ∧ Escapes started) ∧ ¬ ∀ v, Reliable v := by
  have hescapes : Escapes started :=
    .stored (List.mem_cons_of_mem _ List.mem_cons_self) (by decide)
  refine ⟨rfl, ⟨rfl, hescapes⟩, fun hall => ?_⟩
  cases (hall started).escapes hescapes

end Lockout.Andersens.Uses
