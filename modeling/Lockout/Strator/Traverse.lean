import Lockout.Strator.State

/-! # The traversal

`traverseFunction` and `traverseStatement`, which call each other, and the analysis
from a root function. The recursion is bounded by a number that every nested call
lowers; running out of it is an outcome of its own. `Runs` says, without the bound,
what a call that ends has done: one constructor for each way through the two
functions. -/

namespace Lockout.Strator.Traverse
open Lockout.Strator.Program Lockout.Strator.State

/-- A call of `traverseFunction` or `traverseStatement`. -/
inductive Visit
  | function (f : String) (lockSet : LockSet)
  | statement (s : InstId) (entryLockSet lockSet : LockSet)

/-- What a call returns, with the state it leaves. -/
abbrev Outcome := Except Stop (List LockSet × Worker)

section Program
variable (m : IRModule) (opts : Options)

def finishFunction (f : String) (lockSet : LockSet) (exits : List LockSet) (w : Worker) : Worker :=
  (w.setOnStack f false).addSummary f ⟨lockSet, exits⟩

def traverseFunction (rec : Visit → Worker → Outcome) (f : String) (lockSet : LockSet)
    (w : Worker) : Outcome :=
  match m.entry f with
  | none => .ok ([], w)
  | some firstInstr =>
    match w.summary? f lockSet with
    | some entry => .ok (entry.exitLockSets, w)
    | none =>
      -- simply ignore recursion
      if w.onStack f then .ok ([], w)
      else (rec (.statement firstInstr lockSet lockSet) (w.setOnStack f true)).map fun r =>
        (r.1, finishFunction f lockSet r.1 r.2)

/-- The loops over the working list and the successors. -/
def traverseEach (rec : Visit → Worker → Outcome) (entryLockSet : LockSet) :
    List (InstId × LockSet) → Worker → Outcome
  | [], w => .ok ([], w)
  | (s, lockSet) :: work, w =>
    (rec (.statement s entryLockSet lockSet) w).bind fun r =>
    (traverseEach rec entryLockSet work r.2).map fun r' => (r.1 ∪ r'.1, r'.2)

/-- The statements after `s` with each lockset of the working list. -/
def successors (s : InstId) (workingList : List LockSet) : List (InstId × LockSet) :=
  workingList.flatMap fun lockSet => (m.succs s).map fun child => (child, lockSet)

/-- The working list after a function has returned `exits`. -/
def workingList (lockSet : LockSet) (exits : List LockSet) : List LockSet :=
  if exits = [] then [lockSet] else opts.order.iterate exits

def traverseStatement (rec : Visit → Worker → Outcome) (s : InstId)
    (entryLockSet lockSet : LockSet) (w : Worker) : Outcome :=
  if w.isInCache s entryLockSet lockSet then .ok ([], w)
  else
    (processStatement m opts s lockSet (w.addToCache s entryLockSet lockSet)).bind fun (next, w) =>
    match next with
    | .returned => .ok ([lockSet], w)
    | .goOn lockSet => traverseEach rec entryLockSet (successors m s [lockSet]) w
    | .call f lockSet =>
      (rec (.function f lockSet) w).bind fun r =>
      traverseEach rec entryLockSet (successors m s (workingList opts lockSet r.1))
        (eraseArguments m f r.2)

/-- A call with at most `n` calls nested in each other. -/
def traverse : Nat → Visit → Worker → Outcome
  | 0, _, _ => .error .outOfFuel
  | n + 1, .function f lockSet, w => traverseFunction m (traverse n) f lockSet w
  | n + 1, .statement s entryLockSet lockSet, w =>
    traverseStatement m opts (traverse n) s entryLockSet lockSet w

/-- The analysis of `runOnModule` from a root, or of `work` from a task, with a new
empty lockset. -/
def traverseFrom (n : Nat) (f : String) (w : Worker) : Outcome :=
  traverse m opts n (.function f ∅) w

end Program

/-! ## What a call has done -/

/-- A call, or the rest of the loops over the successors of a statement. -/
inductive Search
  | visit (v : Visit)
  | each (entryLockSet : LockSet) (work : List (InstId × LockSet))

/-- Search `t` from state `w` returns the locksets `r` and leaves the last state. -/
inductive Runs (m : IRModule) (opts : Options) : Search → Worker → List LockSet → Worker → Prop
  | declaration {f L w} : m.entry f = none → Runs m opts (.visit (.function f L)) w [] w
  | summary {f L w first e} : m.entry f = some first → w.summary? f L = some e →
      Runs m opts (.visit (.function f L)) w e.exitLockSets w
  | recursion {f L w first} : m.entry f = some first → w.summary? f L = none →
      w.onStack f = true → Runs m opts (.visit (.function f L)) w [] w
  | function {f L w first r w'} : m.entry f = some first → w.summary? f L = none →
      w.onStack f = false →
      Runs m opts (.visit (.statement first L L)) (w.setOnStack f true) r w' →
      Runs m opts (.visit (.function f L)) w r (finishFunction f L r w')
  | cached {s E L w} : w.isInCache s E L = true → Runs m opts (.visit (.statement s E L)) w [] w
  | returned {s E L w w₁} : w.isInCache s E L = false →
      processStatement m opts s L (w.addToCache s E L) = .ok (.returned, w₁) →
      Runs m opts (.visit (.statement s E L)) w [L] w₁
  | goOn {s E L w w₁ L' r w'} : w.isInCache s E L = false →
      processStatement m opts s L (w.addToCache s E L) = .ok (.goOn L', w₁) →
      Runs m opts (.each E (successors m s [L'])) w₁ r w' →
      Runs m opts (.visit (.statement s E L)) w r w'
  | call {s E L w w₁ f L' exits w₂ r w'} : w.isInCache s E L = false →
      processStatement m opts s L (w.addToCache s E L) = .ok (.call f L', w₁) →
      Runs m opts (.visit (.function f L')) w₁ exits w₂ →
      Runs m opts (.each E (successors m s (workingList opts L' exits)))
        (eraseArguments m f w₂) r w' →
      Runs m opts (.visit (.statement s E L)) w r w'
  | nil {E w} : Runs m opts (.each E []) w [] w
  | cons {E s L work w r w₁ r' w'} : Runs m opts (.visit (.statement s E L)) w r w₁ →
      Runs m opts (.each E work) w₁ r' w' → Runs m opts (.each E ((s, L) :: work)) w (r ∪ r') w'

theorem mem_successors {m : IRModule} {s : InstId} {working : List LockSet}
    {c : InstId × LockSet} : c ∈ successors m s working ↔ c.1 ∈ m.succs s ∧ c.2 ∈ working := by
  obtain ⟨child, L⟩ := c
  simp [successors, and_comm]

theorem func_of_mem_successors {m : IRModule} {s : InstId} {working : List LockSet}
    {c : InstId × LockSet} (h : c ∈ successors m s working) : c.1.func = s.func :=
  func_succs (mem_successors.mp h).1

/-- What follows a statement is in the same function. -/
theorem forall_successors {m : IRModule} {P : String → Prop} {s : InstId}
    {working : List LockSet} (hs : P s.func) : ∀ c ∈ successors m s working, P c.1.func := by
  intro c hc
  rw [func_of_mem_successors hc]
  exact hs

theorem bind_eq_ok {α β : Type} {x : Except Stop α} {f : α → Except Stop β} {b : β} :
    x.bind f = .ok b ↔ ∃ a, x = .ok a ∧ f a = .ok b := by
  cases x with
  | error e => simp [Except.bind]
  | ok a => simp [Except.bind]

theorem map_eq_ok {α β : Type} {x : Except Stop α} {f : α → β} {b : β} :
    x.map f = .ok b ↔ ∃ a, x = .ok a ∧ f a = b := by
  cases x with
  | error e => simp [Except.map]
  | ok a => simp [Except.map]

theorem bind_ne_error {α β : Type} {x : Except Stop α} {f : α → Except Stop β} {e : Stop}
    (hx : x ≠ .error e) (hf : ∀ a, x = .ok a → f a ≠ .error e) : x.bind f ≠ .error e := by
  cases x with
  | error e' => exact fun he => hx (by rw [show e' = e from Except.error.inj he])
  | ok a => exact hf a rfl

theorem map_ne_error {α β : Type} {x : Except Stop α} {f : α → β} {e : Stop}
    (hx : x ≠ .error e) : x.map f ≠ .error e := by
  cases x with
  | error e' => exact fun he => hx (by rw [show e' = e from Except.error.inj he])
  | ok a => nofun

section Correspondence
variable {m : IRModule} {opts : Options} {rec : Visit → Worker → Outcome}
  {w w' : Worker} {r : List LockSet}

theorem traverseEach_runs
    (hrec : ∀ {v w r w'}, rec v w = .ok (r, w') → Runs m opts (.visit v) w r w')
    {E : LockSet} {work : List (InstId × LockSet)} {w : Worker} {r : List LockSet}
    (h : traverseEach rec E work w = .ok (r, w')) : Runs m opts (.each E work) w r w' := by
  induction work generalizing w r with
  | nil =>
    cases h
    exact .nil
  | cons c work ih =>
    obtain ⟨⟨r₁, w₁⟩, hfirst, h⟩ := bind_eq_ok.mp h
    obtain ⟨⟨r₂, w₂⟩, hrest, h⟩ := map_eq_ok.mp h
    cases h
    exact .cons (hrec hfirst) (ih hrest)

theorem traverseFunction_runs
    (hrec : ∀ {v w r w'}, rec v w = .ok (r, w') → Runs m opts (.visit v) w r w')
    {f : String} {L : LockSet} (h : traverseFunction m rec f L w = .ok (r, w')) :
    Runs m opts (.visit (.function f L)) w r w' := by
  unfold traverseFunction at h
  split at h
  · rename_i hentry
    cases h
    exact .declaration hentry
  · rename_i first hentry
    split at h
    · rename_i e he
      cases h
      exact .summary hentry he
    · rename_i hnone
      split at h
      · rename_i hstack
        cases h
        exact .recursion hentry hnone hstack
      · rename_i hstack
        obtain ⟨⟨r₁, w₁⟩, hbody, h⟩ := map_eq_ok.mp h
        cases h
        exact .function hentry hnone (Bool.eq_false_iff.mpr hstack) (hrec hbody)

theorem traverseStatement_runs
    (hrec : ∀ {v w r w'}, rec v w = .ok (r, w') → Runs m opts (.visit v) w r w')
    {s : InstId} {E L : LockSet} (h : traverseStatement m opts rec s E L w = .ok (r, w')) :
    Runs m opts (.visit (.statement s E L)) w r w' := by
  unfold traverseStatement at h
  split at h
  · rename_i hcached
    cases h
    exact .cached hcached
  · rename_i hcached
    have hnew := Bool.eq_false_iff.mpr hcached
    obtain ⟨⟨next, w₁⟩, hstep, h⟩ := bind_eq_ok.mp h
    cases next with
    | returned =>
      cases h
      exact .returned hnew hstep
    | goOn L' => exact .goOn hnew hstep (traverseEach_runs hrec h)
    | call f L' =>
      obtain ⟨⟨exits, w₂⟩, hcallee, h⟩ := bind_eq_ok.mp h
      exact .call hnew hstep (hrec hcallee) (traverseEach_runs hrec h)

/-- A call that ends has done what `Runs` says. -/
theorem traverse_runs {n : Nat} {v : Visit} (h : traverse m opts n v w = .ok (r, w')) :
    Runs m opts (.visit v) w r w' := by
  induction n generalizing v w r w' with
  | zero => cases h
  | succ n ih =>
    cases v with
    | function f L => exact traverseFunction_runs ih h
    | statement s E L => exact traverseStatement_runs ih h

/-! ## More nesting -/

theorem bind_mono {α β : Type} {x y : Except Stop α} {f g : α → Except Stop β}
    (hx : x ≠ .error .outOfFuel → y = x)
    (hf : ∀ a, x = .ok a → f a ≠ .error .outOfFuel → g a = f a)
    (h : x.bind f ≠ .error .outOfFuel) : y.bind g = x.bind f := by
  cases x with
  | error e =>
    rw [hx fun he => h (by rw [show e = .outOfFuel from Except.error.inj he]; rfl)]
    rfl
  | ok a =>
    rw [hx nofun]
    exact hf a rfl h

theorem map_mono {α β : Type} {x y : Except Stop α} {f : α → β}
    (hx : x ≠ .error .outOfFuel → y = x) (h : x.map f ≠ .error .outOfFuel) : y.map f = x.map f := by
  rw [hx]
  intro he
  rw [he] at h
  exact h rfl

section Mono
variable {rec' : Visit → Worker → Outcome}
  (hrec : ∀ v w, rec v w ≠ .error .outOfFuel → rec' v w = rec v w)
include hrec

theorem traverseEach_mono {E : LockSet} {work : List (InstId × LockSet)} {w : Worker}
    (h : traverseEach rec E work w ≠ .error .outOfFuel) :
    traverseEach rec' E work w = traverseEach rec E work w := by
  induction work generalizing w with
  | nil => rfl
  | cons c work ih => exact bind_mono (hrec _ _) (fun a _ => map_mono (ih (w := a.2))) h

theorem traverseFunction_mono {f : String} {L : LockSet}
    (h : traverseFunction m rec f L w ≠ .error .outOfFuel) :
    traverseFunction m rec' f L w = traverseFunction m rec f L w := by
  unfold traverseFunction at h ⊢
  cases hentry : m.entry f with
  | none => rfl
  | some first =>
    cases hsummary : w.summary? f L with
    | some e => rfl
    | none =>
      cases hstack : w.onStack f with
      | true => rfl
      | false =>
        simp only [hentry, hsummary, hstack] at h
        exact map_mono (hrec _ _) h

theorem traverseStatement_mono {s : InstId} {E L : LockSet}
    (h : traverseStatement m opts rec s E L w ≠ .error .outOfFuel) :
    traverseStatement m opts rec' s E L w = traverseStatement m opts rec s E L w := by
  unfold traverseStatement at h ⊢
  cases hcached : w.isInCache s E L with
  | true => rfl
  | false =>
    simp only [hcached] at h
    refine bind_mono (fun _ => rfl) ?_ h
    rintro ⟨next, w₁⟩ -
    cases next with
    | returned => exact fun _ => rfl
    | goOn L' => exact traverseEach_mono hrec
    | call f L' => exact bind_mono (hrec _ _) fun r _ => traverseEach_mono hrec

end Mono

/-- A call that ends, with a result or with a failed assertion, ends alike with more
nesting allowed. -/
theorem traverse_mono {n k : Nat} {v : Visit} {w : Worker} (hnk : n ≤ k)
    (h : traverse m opts n v w ≠ .error .outOfFuel) :
    traverse m opts k v w = traverse m opts n v w := by
  induction n generalizing k v w with
  | zero => exact absurd rfl h
  | succ n ih =>
    obtain ⟨k, rfl⟩ := Nat.exists_eq_add_of_le' (Nat.le_of_add_left_le hnk)
    have hrec : ∀ v w, traverse m opts n v w ≠ .error .outOfFuel →
        traverse m opts k v w = traverse m opts n v w := fun v w => ih (by omega)
    cases v with
    | function f L => exact traverseFunction_mono hrec h
    | statement s E L => exact traverseStatement_mono hrec h

/-- The executable counterpart of a task. -/
def runSearch (m : IRModule) (opts : Options) (n : Nat) : Search → Worker → Outcome
  | .visit v, w => traverse m opts n v w
  | .each E work, w => traverseEach (traverse m opts n) E work w

/-- Whatever `Runs` says is done by a call with enough nesting allowed, and by every
call with more. -/
theorem Runs.ends {t : Search} (h : Runs m opts t w r w') :
    ∃ N, ∀ n, N ≤ n → runSearch m opts n t w = .ok (r, w') := by
  induction h with
  | declaration hentry =>
    refine ⟨1, fun n hn => ?_⟩
    obtain ⟨n, rfl⟩ := Nat.exists_eq_add_of_le' hn
    simp [runSearch, traverse, traverseFunction, hentry]
  | summary hentry he =>
    refine ⟨1, fun n hn => ?_⟩
    obtain ⟨n, rfl⟩ := Nat.exists_eq_add_of_le' hn
    simp [runSearch, traverse, traverseFunction, hentry, he]
  | recursion hentry hnone hstack =>
    refine ⟨1, fun n hn => ?_⟩
    obtain ⟨n, rfl⟩ := Nat.exists_eq_add_of_le' hn
    simp [runSearch, traverse, traverseFunction, hentry, hnone, hstack]
  | function hentry hnone hstack _ ih =>
    obtain ⟨N, hN⟩ := ih
    refine ⟨N + 1, fun n hn => ?_⟩
    obtain ⟨n, rfl⟩ := Nat.exists_eq_add_of_le' (Nat.le_of_add_left_le hn)
    have hbody := hN n (by omega)
    simp only [runSearch] at hbody
    simp [runSearch, traverse, traverseFunction, hentry, hnone, hstack, hbody, Except.map]
  | cached hcached =>
    refine ⟨1, fun n hn => ?_⟩
    obtain ⟨n, rfl⟩ := Nat.exists_eq_add_of_le' hn
    simp [runSearch, traverse, traverseStatement, hcached]
  | returned hnew hstep =>
    refine ⟨1, fun n hn => ?_⟩
    obtain ⟨n, rfl⟩ := Nat.exists_eq_add_of_le' hn
    simp [runSearch, traverse, traverseStatement, hnew, hstep, Except.bind]
  | goOn hnew hstep _ ih =>
    obtain ⟨N, hN⟩ := ih
    refine ⟨N + 1, fun n hn => ?_⟩
    obtain ⟨n, rfl⟩ := Nat.exists_eq_add_of_le' (Nat.le_of_add_left_le hn)
    have hrest := hN n (by omega)
    simp only [runSearch] at hrest
    simp [runSearch, traverse, traverseStatement, hnew, hstep, hrest, Except.bind]
  | call hnew hstep _ _ ihf ih =>
    obtain ⟨N, hN⟩ := ihf
    obtain ⟨N', hN'⟩ := ih
    refine ⟨N + N' + 1, fun n hn => ?_⟩
    obtain ⟨n, rfl⟩ := Nat.exists_eq_add_of_le' (Nat.le_of_add_left_le hn)
    have hcallee := hN n (by omega)
    have hrest := hN' n (by omega)
    simp only [runSearch] at hcallee hrest
    simp [runSearch, traverse, traverseStatement, hnew, hstep, hcallee, hrest, Except.bind]
  | nil => exact ⟨0, fun n _ => rfl⟩
  | cons _ _ ih ih' =>
    obtain ⟨N, hN⟩ := ih
    obtain ⟨N', hN'⟩ := ih'
    refine ⟨N + N', fun n hn => ?_⟩
    have hfirst := hN n (by omega)
    have hrest := hN' n (by omega)
    simp only [runSearch] at hfirst hrest
    simp [runSearch, traverseEach, hfirst, hrest, Except.bind, Except.map]

/-- A task has one result. -/
theorem Runs.unique {t : Search} {r₂ : List LockSet} {w₂ : Worker} (h : Runs m opts t w r w')
    (h₂ : Runs m opts t w r₂ w₂) : r = r₂ ∧ w' = w₂ := by
  obtain ⟨N, hN⟩ := h.ends
  obtain ⟨N₂, hN₂⟩ := h₂.ends
  have heq := (hN (N + N₂) (by omega)).symm.trans (hN₂ (N + N₂) (by omega))
  exact Prod.mk.inj (Except.ok.inj heq)

end Correspondence

/-! Which rule a task ends by. -/

section Inversion
variable {m : IRModule} {opts : Options} {w w₁ w' : Worker} {r : List LockSet} {s : InstId}
  {f : String} {E L L' : LockSet}

/-- A function with a body, without a summary and not on the stack, is traversed. -/
theorem Runs.function_inv {first : InstId} (h : Runs m opts (.visit (.function f L)) w r w')
    (hentry : m.entry f = some first) (hnone : w.summary? f L = none)
    (hstack : w.onStack f = false) :
    ∃ w₂, Runs m opts (.visit (.statement first L L)) (w.setOnStack f true) r w₂ ∧
      w' = finishFunction f L r w₂ := by
  cases h with
  | declaration hentry' => cases hentry.symm.trans hentry'
  | summary _ he => cases hnone.symm.trans he
  | recursion _ _ hstack' => cases hstack.symm.trans hstack'
  | function hentry' _ _ hbody =>
    cases hentry.symm.trans hentry'
    exact ⟨_, hbody, rfl⟩

theorem Runs.goOn_inv (h : Runs m opts (.visit (.statement s E L)) w r w')
    (hnew : w.isInCache s E L = false)
    (hs : processStatement m opts s L (w.addToCache s E L) = .ok (.goOn L', w₁)) :
    Runs m opts (.each E (successors m s [L'])) w₁ r w' := by
  cases h with
  | cached hcached => cases hnew.symm.trans hcached
  | returned _ hs' => cases hs.symm.trans hs'
  | goOn _ hs' hrest =>
    cases hs.symm.trans hs'
    exact hrest
  | call _ hs' => cases hs.symm.trans hs'

theorem Runs.call_inv (h : Runs m opts (.visit (.statement s E L)) w r w')
    (hnew : w.isInCache s E L = false)
    (hs : processStatement m opts s L (w.addToCache s E L) = .ok (.call f L', w₁)) :
    ∃ exits w₂, Runs m opts (.visit (.function f L')) w₁ exits w₂ ∧
      Runs m opts (.each E (successors m s (workingList opts L' exits)))
        (eraseArguments m f w₂) r w' := by
  cases h with
  | cached hcached => cases hnew.symm.trans hcached
  | returned _ hs' => cases hs.symm.trans hs'
  | goOn _ hs' => cases hs.symm.trans hs'
  | call _ hs' hcallee hrest =>
    cases hs.symm.trans hs'
    exact ⟨_, _, hcallee, hrest⟩

end Inversion

end Lockout.Strator.Traverse
