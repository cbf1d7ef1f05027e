import Lockout.Strator.Tasks

/-! # The bindings of the functions on the stack

A resolved call binds the formals of the callee before it traverses it and erases them
afterwards, also when the traversal is skipped because the callee is on the stack. What is
bound to the formals of a function survives a call unless the call comes to another call
of that function; it is gone then. -/

namespace Lockout.Strator.Frames
open Lockout.Strator.Program Lockout.Strator.State Lockout.Strator.Traverse
open Lockout.Strator.Effects Lockout.Strator.Tasks

/-- Search `t` from a state comes to a call that enters `g`. -/
inductive Enters (m : IRModule) (opts : Options) (g : String) : Search → Worker → Prop
  | body {f L w first} : m.entry f = some first → w.summary? f L = none → w.onStack f = false →
      Enters m opts g (.visit (.statement first L L)) (w.setOnStack f true) →
      Enters m opts g (.visit (.function f L)) w
  | goOn {s E L w w₁ L'} : w.isInCache s E L = false →
      processStatement m opts s L (w.addToCache s E L) = .ok (.goOn L', w₁) →
      Enters m opts g (.each E (successors m s [L'])) w₁ →
      Enters m opts g (.visit (.statement s E L)) w
  | here {s E L w w₁ L'} : w.isInCache s E L = false →
      processStatement m opts s L (w.addToCache s E L) = .ok (.call g L', w₁) →
      Enters m opts g (.visit (.statement s E L)) w
  | callee {s E L w w₁ f L'} : w.isInCache s E L = false →
      processStatement m opts s L (w.addToCache s E L) = .ok (.call f L', w₁) →
      Enters m opts g (.visit (.function f L')) w₁ →
      Enters m opts g (.visit (.statement s E L)) w
  | resume {s E L w w₁ f L' exits w₂} : w.isInCache s E L = false →
      processStatement m opts s L (w.addToCache s E L) = .ok (.call f L', w₁) →
      Runs m opts (.visit (.function f L')) w₁ exits w₂ →
      Enters m opts g (.each E (successors m s (workingList opts L' exits)))
        (eraseArguments m f w₂) →
      Enters m opts g (.visit (.statement s E L)) w
  | head {E s L work w} : Enters m opts g (.visit (.statement s E L)) w →
      Enters m opts g (.each E ((s, L) :: work)) w
  | rest {E s L work w r w₁} : Runs m opts (.visit (.statement s E L)) w r w₁ →
      Enters m opts g (.each E work) w₁ → Enters m opts g (.each E ((s, L) :: work)) w

section Cases
variable {m : IRModule} {opts : Options} {g f : String} {s first : InstId} {E L L' : LockSet}
  {w w₁ w₂ : Worker} {exits r : List LockSet} {work : List (InstId × LockSet)}

/-- A call that is answered without a traversal enters nothing. -/
theorem not_enters_answered (h : m.entry f = none ∨ w.summary? f L ≠ none ∨ w.onStack f = true) :
    ¬ Enters m opts g (.visit (.function f L)) w := by
  intro henters
  cases henters with
  | body hentry hnone hstack =>
    obtain hdeclaration | hsummary | hrecursion := h
    · cases hentry.symm.trans hdeclaration
    · exact hsummary hnone
    · cases hstack.symm.trans hrecursion

theorem not_enters_cached (h : w.isInCache s E L = true) :
    ¬ Enters m opts g (.visit (.statement s E L)) w := by
  intro henters
  cases henters with
  | goOn hnew | here hnew | callee hnew | resume hnew => cases hnew.symm.trans h

theorem not_enters_nil : ¬ Enters m opts g (.each E []) w := nofun

theorem enters_body (hentry : m.entry f = some first) (hnone : w.summary? f L = none)
    (hstack : w.onStack f = false) : Enters m opts g (.visit (.function f L)) w ↔
      Enters m opts g (.visit (.statement first L L)) (w.setOnStack f true) := by
  constructor
  · intro h
    cases h with
    | body hentry' _ _ hbody =>
      cases hentry.symm.trans hentry'
      exact hbody
  · exact .body hentry hnone hstack

theorem not_enters_returned
    (hs : processStatement m opts s L (w.addToCache s E L) = .ok (.returned, w₁)) :
    ¬ Enters m opts g (.visit (.statement s E L)) w := by
  intro henters
  cases henters with
  | goOn _ hs' | here _ hs' | callee _ hs' | resume _ hs' => cases hs.symm.trans hs'

theorem enters_goOn (hnew : w.isInCache s E L = false)
    (hs : processStatement m opts s L (w.addToCache s E L) = .ok (.goOn L', w₁)) :
    Enters m opts g (.visit (.statement s E L)) w ↔
      Enters m opts g (.each E (successors m s [L'])) w₁ := by
  constructor
  · intro h
    cases h with
    | goOn _ hs' hrest =>
      cases hs.symm.trans hs'
      exact hrest
    | here _ hs' | callee _ hs' | resume _ hs' => cases hs.symm.trans hs'
  · exact .goOn hnew hs

theorem enters_call (hnew : w.isInCache s E L = false)
    (hs : processStatement m opts s L (w.addToCache s E L) = .ok (.call f L', w₁))
    (hcallee : Runs m opts (.visit (.function f L')) w₁ exits w₂) :
    Enters m opts g (.visit (.statement s E L)) w ↔
      (f = g ∨ Enters m opts g (.visit (.function f L')) w₁) ∨
        Enters m opts g (.each E (successors m s (workingList opts L' exits)))
          (eraseArguments m f w₂) := by
  constructor
  · intro h
    cases h with
    | goOn _ hs' => cases hs.symm.trans hs'
    | here _ hs' =>
      cases hs.symm.trans hs'
      exact .inl (.inl rfl)
    | callee _ hs' hbody =>
      cases hs.symm.trans hs'
      exact .inl (.inr hbody)
    | resume _ hs' hcallee' hrest =>
      cases hs.symm.trans hs'
      obtain ⟨rfl, rfl⟩ := hcallee.unique hcallee'
      exact .inr hrest
  · rintro ((rfl | hbody) | hrest)
    · exact .here hnew hs
    · exact .callee hnew hs hbody
    · exact .resume hnew hs hcallee hrest

theorem enters_cons (hfirst : Runs m opts (.visit (.statement s E L)) w r w₁) :
    Enters m opts g (.each E ((s, L) :: work)) w ↔
      Enters m opts g (.visit (.statement s E L)) w ∨ Enters m opts g (.each E work) w₁ := by
  constructor
  · intro h
    cases h with
    | head hhead => exact .inl hhead
    | rest hfirst' hrest =>
      obtain ⟨rfl, rfl⟩ := hfirst.unique hfirst'
      exact .inr hrest
  · rintro (hhead | hrest)
    · exact .head hhead
    · exact .rest hfirst hrest

end Cases

/-! ## What a call does to the bindings -/

section Bindings
variable {m : IRModule} {opts : Options} {t : Search} {g f : String} {s : InstId} {L L' : LockSet}
  {w w' w₁ w₂ : Worker} {r exits : List LockSet} {next : Next} {v : Value}

theorem notMem_arguments (hv : v ∈ m.arguments g) (hne : f ≠ g) : v ∉ m.arguments f := by
  obtain ⟨i, -, rfl⟩ := mem_arguments.mp hv
  intro hmem
  obtain ⟨j, -, heq⟩ := mem_arguments.mp hmem
  exact hne (Value.argument.inj heq).1.symm

/-- One statement binds no formals but those of the function it calls. -/
theorem lookup_step (h : Step m opts s L w next w') (hg : ∀ L', next ≠ .call g L')
    (hv : v ∈ m.arguments g) : w'.parentValue.lookup v = w.parentValue.lookup v := by
  cases h with
  | returned | plain => rfl
  | bitCast =>
    obtain ⟨i, -, rfl⟩ := mem_arguments.mp hv
    exact AList.lookup_insert_ne (by simp)
  | unresolved | lock | unlock => rw [parentValue_markMultithreaded]
  | load | store => rw [parentValue_detectRaces]
  | @call callee args g' f actuals =>
    have hne : f ≠ g := fun hf => hg L (by rw [hf])
    rw [lookup_bindArguments_of_notMem (notMem_arguments hv hne), parentValue_inheritFlag,
      parentValue_markMultithreaded]

open Classical in
/-- A resolved call from what its traversal leaves: the formals of the callee are erased. -/
theorem lookup_resolved (hs : processStatement m opts s L w = .ok (.call f L', w₁))
    (ih : w₂.parentValue.lookup v = if Enters m opts g (.visit (.function f L')) w₁ then none
      else w₁.parentValue.lookup v) (hv : v ∈ m.arguments g) :
    (eraseArguments m f w₂).parentValue.lookup v =
      if f = g ∨ Enters m opts g (.visit (.function f L')) w₁ then none
      else w.parentValue.lookup v := by
  rw [lookup_eraseArguments, ih]
  by_cases hf : f = g
  · subst hf
    rw [if_pos hv, if_pos (.inl rfl)]
  · rw [if_neg (notMem_arguments hv hf)]
    simp only [hf, false_or]
    rw [lookup_step (step_of_processStatement hs) (fun L'' heq => hf (by cases heq; rfl)) hv]

open Classical in
/-- What a search leaves of the binding of a formal of `g`. -/
theorem lookup_runs (h : Runs m opts t w r w') (hv : v ∈ m.arguments g) :
    w'.parentValue.lookup v =
      if Enters m opts g t w then none else w.parentValue.lookup v := by
  have hcached : ∀ {w : Worker} {s E L}, (w.addToCache s E L).parentValue = w.parentValue := rfl
  induction h with
  | declaration hentry => rw [if_neg (not_enters_answered (.inl hentry))]
  | summary _ he => rw [if_neg (not_enters_answered (.inr (.inl (by rw [he]; simp))))]
  | recursion _ _ hstack => rw [if_neg (not_enters_answered (.inr (.inr hstack)))]
  | function hentry hnone hstack _ ih =>
    rw [enters_body hentry hnone hstack]
    exact ih
  | cached hs => rw [if_neg (not_enters_cached hs)]
  | returned _ hs =>
    rw [if_neg (not_enters_returned hs), lookup_step (step_of_processStatement hs) nofun hv, hcached]
  | goOn hnew hs _ ih =>
    rw [enters_goOn hnew hs, ih, lookup_step (step_of_processStatement hs) nofun hv, hcached]
  | @call s E L w w₁ f L' exits w₂ r w' hnew hs hcallee _ ihf ih =>
    rw [enters_call hnew hs hcallee, ih]
    by_cases hrest : Enters m opts g (.each E (successors m s (workingList opts L' exits)))
        (eraseArguments m f w₂)
    · rw [if_pos hrest, if_pos (.inr hrest)]
    · rw [if_neg hrest, lookup_resolved hs ihf hv, hcached]
      simp only [hrest, or_false]
  | nil => rw [if_neg not_enters_nil]
  | @cons E s L work w r w₁ r' w' hfirst _ ih ih' =>
    rw [enters_cons hfirst, ih', ih]
    by_cases hrest : Enters m opts g (.each E work) w₁
    · rw [if_pos hrest, if_pos (.inr hrest)]
    · rw [if_neg hrest]
      simp only [hrest, or_false]

/-- The bindings of all functions on the stack are after a resolved call what they were
before it, exactly when none of these functions that has a formal bound is entered by the
call, as its callee or further down. -/
theorem bindings_kept_iff (hs : processStatement m opts s L w = .ok (.call f L', w₁))
    (hcallee : Runs m opts (.visit (.function f L')) w₁ exits w₂) :
    (∀ g, w.onStack g = true → ∀ v ∈ m.arguments g,
        (eraseArguments m f w₂).parentValue.lookup v = w.parentValue.lookup v) ↔
      ∀ g, w.onStack g = true → f = g ∨ Enters m opts g (.visit (.function f L')) w₁ →
        ∀ v ∈ m.arguments g, w.parentValue.lookup v = none := by
  refine forall_congr' fun g => imp_congr_right fun _ => ?_
  constructor
  · intro hkept henters v hv
    rw [← hkept v hv, lookup_resolved hs (lookup_runs hcallee hv) hv, if_pos henters]
  · intro hunbound v hv
    rw [lookup_resolved hs (lookup_runs hcallee hv) hv]
    split
    · rename_i henters
      exact (hunbound henters v hv).symm
    · rfl

end Bindings

/-! ## Two modules -/

/-- `walk` calls `leaf` with its own argument, and then itself with `b`. -/
def walking : IRModule where
  functions := [
    ("main", { blocks := [{ insts := [
      ⟨"", .call (.function "walk") [.global "a"]⟩, ⟨"", .ret⟩] }] }),
    ("walk", { params := ["p"], blocks := [{ insts := [
      ⟨"", .call (.function "leaf") [.argument "walk" 0]⟩,
      ⟨"", .call (.function "walk") [.global "b"]⟩,
      ⟨"", .load (.argument "walk" 0)⟩,
      ⟨"", .ret⟩] }] }),
    ("leaf", { params := ["q"], blocks := [{ insts := [⟨"", .ret⟩] }] })]
  globals := [("a", false), ("b", false)]

/-- The analysis of `walking` at the two calls in `walk`, the argument bound to `a`. -/
theorem walking_reached : ∃ w u,
    Reached walking {} (.visit (.function "main" ∅)) {} [⟨"main", 0, 0⟩]
      (.visit (.statement ⟨"walk", 0, 0⟩ ∅ ∅)) w ∧
    Reached walking {} (.visit (.function "main" ∅)) {} [⟨"main", 0, 0⟩]
      (.visit (.statement ⟨"walk", 0, 1⟩ ∅ ∅)) u ∧
    w.isInCache ⟨"walk", 0, 0⟩ ∅ ∅ = false ∧ w.onStack "leaf" = false ∧
    (∃ w₁ exits w₂, processStatement walking {} ⟨"walk", 0, 0⟩ ∅
        (w.addToCache ⟨"walk", 0, 0⟩ ∅ ∅) = .ok (.call "leaf" ∅, w₁) ∧
      Runs walking {} (.visit (.function "leaf" ∅)) w₁ exits w₂) ∧
    u.isInCache ⟨"walk", 0, 1⟩ ∅ ∅ = false ∧ u.onStack "walk" = true ∧
    u.parentValue.lookup (.argument "walk" 0) = some (.global "a") ∧
    ∃ u₁ exits u₂, processStatement walking {} ⟨"walk", 0, 1⟩ ∅
        (u.addToCache ⟨"walk", 0, 1⟩ ∅ ∅) = .ok (.call "walk" ∅, u₁) ∧
      Runs walking {} (.visit (.function "walk" ∅)) u₁ exits u₂ := by
  have hmain : Reached walking {} (.visit (.function "main" ∅)) {} []
      (.visit (.function "main" ∅)) {} := .start
  have hleaf := ((hmain.body rfl rfl rfl).enter rfl rfl).body rfl rfl rfl
  have hwalk := (hleaf.resume rfl rfl (traverse_runs (n := 4) rfl)).head
  exact ⟨_, _, hleaf, hwalk, rfl, rfl, ⟨_, _, _, rfl, traverse_runs (n := 4) rfl⟩, rfl, rfl, rfl,
    ⟨_, _, _, rfl, .recursion rfl rfl rfl⟩⟩

/-- The call of `leaf` keeps the binding of the argument of `walk`. -/
theorem bindings_kept_walking : ∃ w w₁ exits w₂,
    processStatement walking {} ⟨"walk", 0, 0⟩ ∅ w = .ok (.call "leaf" ∅, w₁) ∧
    Runs walking {} (.visit (.function "leaf" ∅)) w₁ exits w₂ ∧
    ∀ g, w.onStack g = true → ∀ v ∈ walking.arguments g,
      (eraseArguments walking "leaf" w₂).parentValue.lookup v = w.parentValue.lookup v := by
  obtain ⟨w, -, -, -, -, hleaf, ⟨w₁, exits, w₂, hs, hcallee⟩, -⟩ := walking_reached
  refine ⟨_, w₁, exits, w₂, hs, hcallee, (bindings_kept_iff hs hcallee).mpr fun g hg henters => ?_⟩
  exfalso
  obtain rfl | henters := henters
  · cases hleaf.symm.trans hg
  · cases henters with
    | body hentry _ _ hbody =>
      cases hentry
      exact not_enters_returned rfl hbody

/-- The call of `walk` in `walk` is skipped as recursive, and the argument is unbound after
it. -/
theorem recursion_unbinds : ¬ ∀ (m : IRModule) (opts : Options) (root : String)
    (ctx : List InstId) (s : InstId) (E L : LockSet) (w w₁ w₂ : Worker) (f : String)
    (L' : LockSet) (exits : List LockSet),
    Reached m opts (.visit (.function root ∅)) {} ctx (.visit (.statement s E L)) w →
    w.isInCache s E L = false →
    processStatement m opts s L (w.addToCache s E L) = .ok (.call f L', w₁) →
    Runs m opts (.visit (.function f L')) w₁ exits w₂ →
    ∀ g, w.onStack g = true → ∀ v ∈ m.arguments g,
      (eraseArguments m f w₂).parentValue.lookup v = w.parentValue.lookup v := by
  intro hall
  obtain ⟨-, u, -, hreached, -, -, -, hnew, hstack, hbound, u₁, exits, u₂, hs, hcallee⟩ :=
    walking_reached
  have hkept := hall _ _ _ _ _ _ _ _ _ _ _ _ _ hreached hnew hs hcallee "walk" hstack
    (.argument "walk" 0) (by decide)
  rw [hbound, lookup_eraseArguments, if_pos (by decide)] at hkept
  cases hkept

end Lockout.Strator.Frames
