import Lockout.Strator.Tasks

/-! # What a call visits

A statement that is visited is followed up: its successors are visited too, with some
lockset, whatever its callee returns. A function with no summary for a lockset has not
been visited with it before. So the call that makes the summary visits every statement
that the control flow of the function comes to (`visits_path`), in any module. -/

namespace Lockout.Strator.Coverage
open Lockout.Strator.Program Lockout.Strator.State Lockout.Strator.Traverse
open Lockout.Strator.Effects Lockout.Strator.Paths Lockout.Strator.Exact Lockout.Strator.Tasks

/-! ## Successors -/

/-- Statement `s` is visited in a function entered with `E`. -/
def Visited (w : Worker) (E : LockSet) (s : InstId) : Prop :=
  ∃ L, w.isInCache s E L = true

/-- Control flow leads from the entry of `f` to `s`; nothing follows a return. -/
inductive OnPath (m : IRModule) (f : String) : InstId → Prop
  | entry {s} : m.entry f = some s → OnPath m f s
  | next {s s'} : OnPath m f s → m.op? s ≠ some .ret → s' ∈ m.succs s → OnPath m f s'

/-- Where `w'` has a visit that `w` has not, it has visits of the successors. -/
def FollowedUp (m : IRModule) (w w' : Worker) : Prop :=
  ∀ s E L, w'.isInCache s E L = true → w.isInCache s E L = true ∨
    (m.op? s ≠ some .ret → ∀ s' ∈ m.succs s, Visited w' E s')

/-- The statements of a task are visited in the end. -/
def Finished (w : Worker) : Search → Prop
  | .visit (.function ..) => True
  | .visit (.statement s E L) => w.isInCache s E L = true
  | .each E work => ∀ c ∈ work, w.isInCache c.1 E c.2 = true

section Successors
variable {m : IRModule} {opts : Options} {t : Search} {w w₁ w' : Worker} {s s' : InstId}
  {E L : LockSet} {r working : List LockSet} {next : Next} {f : String}

theorem func_onPath (h : OnPath m f s) : s.func = f := by
  induction h with
  | entry hentry => exact func_entry hentry
  | next _ _ hs ih => exact (func_succs hs).trans ih

theorem isInCache_processStatement {E' L' : LockSet}
    (hs : processStatement m opts s L (w.addToCache s E L) = .ok (next, w₁)) :
    w₁.isInCache s' E' L' = true ↔
      (s' = s ∧ E' = E ∧ L' = L) ∨ w.isInCache s' E' L' = true := by
  rw [isInCache_of_statementCache (step_of_processStatement hs).sameCaches.statementCache]
  exact isInCache_addToCache

theorem finished_of_runs (h : Runs m opts t w r w') : Finished w' t := by
  induction h with
  | declaration | summary | recursion | function => trivial
  | cached hcached => exact hcached
  | returned _ hs => exact (isInCache_processStatement hs).mpr (.inl ⟨rfl, rfl, rfl⟩)
  | goOn _ hs hrest =>
    exact isInCache_of_runs hrest ((isInCache_processStatement hs).mpr (.inl ⟨rfl, rfl, rfl⟩))
  | call _ hs hcallee hrest =>
    have hvisited := (isInCache_processStatement hs).mpr (.inl ⟨rfl, rfl, rfl⟩)
    exact isInCache_of_runs hrest (isInCache_of_runs hcallee hvisited)
  | nil => exact fun _ => nofun
  | cons _ hrest ih ih' =>
    intro c hc
    rcases List.mem_cons.mp hc with rfl | hc
    · exact isInCache_of_runs hrest ih
    · exact ih' c hc

theorem FollowedUp.refl : FollowedUp m w w := fun _ _ _ => .inl

theorem FollowedUp.trans (h : FollowedUp m w w₁) (h' : FollowedUp m w₁ w')
    (hgrows : ∀ s E L, w₁.isInCache s E L = true → w'.isInCache s E L = true) :
    FollowedUp m w w' := by
  intro s E L hs
  rcases h' s E L hs with hw₁ | hsuccs
  · refine (h s E L hw₁).imp_right fun hsuccs hop s' hs' => ?_
    obtain ⟨L', hL'⟩ := hsuccs hop s' hs'
    exact ⟨L', hgrows _ _ _ hL'⟩
  · exact .inr hsuccs

/-- The loops over a working list that is not empty visit every successor. -/
theorem visited_successors (hworking : working ≠ [])
    (h : Runs m opts (.each E (successors m s working)) w r w') (hs : s' ∈ m.succs s) :
    Visited w' E s' := by
  obtain ⟨L, hL⟩ := List.exists_mem_of_ne_nil working hworking
  exact ⟨L, finished_of_runs h (s', L) (mem_successors.mpr ⟨hs, hL⟩)⟩

theorem workingList_ne_nil {exits : List LockSet} : workingList opts L exits ≠ [] := by
  unfold workingList
  split
  · exact List.cons_ne_nil _ _
  · rename_i hexits
    intro hnil
    have hperm := opts.order.perm exits
    rw [hnil] at hperm
    exact hexits hperm.nil_eq.symm

/-- The rest of a visit follows it up when it visits the successors. -/
theorem FollowedUp.visit (hs : processStatement m opts s L (w.addToCache s E L) = .ok (next, w₁))
    (h : FollowedUp m w₁ w')
    (hsuccs : m.op? s ≠ some .ret → ∀ s' ∈ m.succs s, Visited w' E s') : FollowedUp m w w' := by
  intro s' E' L' hs'
  rcases h s' E' L' hs' with hw₁ | hfollowed
  · rcases (isInCache_processStatement hs).mp hw₁ with ⟨rfl, rfl, rfl⟩ | hw
    · exact .inr hsuccs
    · exact .inl hw
  · exact .inr hfollowed

theorem op?_of_returned (hs : processStatement m opts s L w = .ok (.returned, w₁)) :
    m.op? s = some .ret := by
  cases step_of_processStatement hs with
  | returned hop => exact hop

/-- A call follows up what it visits. -/
theorem followedUp_of_runs (h : Runs m opts t w r w') : FollowedUp m w w' := by
  induction h with
  | declaration | summary | recursion | cached | nil => exact .refl
  | function _ _ _ _ ih => exact ih
  | returned _ hs => exact FollowedUp.refl.visit hs fun hop => absurd (op?_of_returned hs) hop
  | goOn _ hs hrest ih =>
    exact ih.visit hs fun _ s' hs' => visited_successors (List.cons_ne_nil _ _) hrest hs'
  | call _ hs hcallee hrest ihf ih =>
    have hboth := ihf.trans ih fun s E L hw₂ => isInCache_of_runs hrest hw₂
    exact hboth.visit hs fun _ s' hs' => visited_successors workingList_ne_nil hrest hs'
  | cons _ hrest ih ih' => exact ih.trans ih' fun _ _ _ hw₁ => isInCache_of_runs hrest hw₁

end Successors

/-! ## Visits and summaries -/

/-- What has been visited is in a function that is on the stack or has a summary for
the lockset it was entered with. -/
def Summarised (w : Worker) : Prop :=
  ∀ s E L, w.isInCache s E L = true → w.onStack s.func = true ∨ w.summary? s.func E ≠ none

/-- The visits of a function on the stack belong to the task at hand: it is in that
function, entered with the same lockset. -/
def Belongs (k : String) (E : LockSet) : Search → Prop
  | .visit (.function ..) => False
  | .visit (.statement s E' _) => s.func = k ∧ E' = E
  | .each E' work => (∃ c ∈ work, c.1.func = k) ∧ E' = E

/-- The function of a task is on the stack. -/
def Stacked (w : Worker) : Search → Prop
  | .visit (.function ..) => True
  | .visit (.statement s _ _) => w.onStack s.func = true
  | .each _ work => ∀ c ∈ work, w.onStack c.1.func = true

section Summaries
variable {m : IRModule} {opts : Options} {t : Search} {w w₁ w' : Worker} {s s' : InstId}
  {E L : LockSet} {r working : List LockSet} {next : Next} {f k : String} {ctx : List InstId}

theorem belongs_successors (h : Belongs k E (.each L (successors m s working))) :
    s.func = k ∧ L = E := by
  obtain ⟨⟨c, hc, hk⟩, hE⟩ := h
  exact ⟨(func_of_mem_successors hc).symm.trans hk, hE⟩

theorem isInCache_or_belongs
    (hs : processStatement m opts s L (w.addToCache s E L) = .ok (next, w₁)) {E' L' : LockSet}
    (hw₁ : w₁.isInCache s' E' L' = true) :
    w.isInCache s' E' L' = true ∨ (s.func = s'.func ∧ E = E') := by
  rcases (isInCache_processStatement hs).mp hw₁ with ⟨rfl, rfl, rfl⟩ | hw
  · exact .inr ⟨rfl, rfl⟩
  · exact .inl hw

/-- A function on the stack is visited by no other task than its own. -/
theorem belongs_of_runs (h : Runs m opts t w r w') (hk : w.onStack s'.func = true)
    (hs' : w'.isInCache s' E L = true) : w.isInCache s' E L = true ∨ Belongs s'.func E t := by
  induction h with
  | declaration | summary | recursion | cached | nil => exact .inl hs'
  | @function f L w first r w' hentry _ hstack _ ih =>
    have hne : s'.func ≠ f := by
      intro heq
      rw [heq, hstack] at hk
      cases hk
    refine (ih ?_ hs').imp_right fun hbelongs => ?_
    · exact (Function.update_of_ne hne _ _).trans hk
    · exact hne (hbelongs.1.symm.trans (func_entry hentry))
  | returned _ hs => exact isInCache_or_belongs hs hs'
  | goOn _ hs _ ih =>
    have hstack := (step_of_processStatement hs).sameCaches.onStack
    rcases ih (by rw [hstack]; exact hk) hs' with hw₁ | hbelongs
    · exact isInCache_or_belongs hs hw₁
    · exact .inr (belongs_successors hbelongs)
  | call _ hs hcallee _ ihf ih =>
    have hstack := (step_of_processStatement hs).sameCaches.onStack
    have hstack₂ := onStack_of_runs hcallee
    rcases ih (by rw [bookkeeping_eraseArguments.onStack, hstack₂, hstack]; exact hk) hs' with
      hw₂ | hbelongs
    · rcases ihf (by rw [hstack]; exact hk) hw₂ with hw₁ | hbelongs
      · exact isInCache_or_belongs hs hw₁
      · cases hbelongs
    · exact .inr (belongs_successors hbelongs)
  | cons hfirst _ ih ih' =>
    rcases ih' (by rw [onStack_of_runs hfirst]; exact hk) hs' with hw₁ | hbelongs
    · refine (ih hk hw₁).imp_right fun hbelongs => ?_
      exact ⟨⟨_, List.mem_cons_self, hbelongs.1⟩, hbelongs.2⟩
    · obtain ⟨⟨c, hc, hfunc⟩, hE⟩ := hbelongs
      exact .inr ⟨⟨c, List.mem_cons_of_mem _ hc, hfunc⟩, hE⟩

theorem Summarised.visit (hw : Summarised w) (hstack : w.onStack s.func = true)
    (hs : processStatement m opts s L (w.addToCache s E L) = .ok (next, w₁)) : Summarised w₁ := by
  have hsame := (step_of_processStatement hs).sameCaches
  intro s' E' L' hs'
  have hcaches : w₁.onStack = w.onStack ∧ w₁.functionCache = w.functionCache :=
    ⟨hsame.onStack, hsame.functionCache⟩
  rw [hcaches.1, Worker.summary?, hcaches.2]
  rcases (isInCache_processStatement hs).mp hs' with ⟨rfl, rfl, rfl⟩ | hw'
  · exact .inl hstack
  · exact hw s' E' L' hw'

theorem stacked_successors (hs : w.onStack s.func = true) :
    Stacked w (.each E (successors m s working)) :=
  forall_successors (P := fun f => w.onStack f = true) hs

theorem stacked_processStatement (hstack : w.onStack s.func = true)
    (hs : processStatement m opts s L (w.addToCache s E L) = .ok (next, w₁)) :
    w₁.onStack s.func = true := by
  rw [(step_of_processStatement hs).sameCaches.onStack]
  exact hstack

theorem stacked_afterCall {w₂ : Worker} {L' : LockSet} (hstack : w.onStack s.func = true)
    (hs : processStatement m opts s L (w.addToCache s E L) = .ok (.call f L', w₁))
    (hcallee : Runs m opts (.visit (.function f L')) w₁ r w₂) :
    (eraseArguments m f w₂).onStack s.func = true := by
  rw [bookkeeping_eraseArguments.onStack, onStack_of_runs hcallee]
  exact stacked_processStatement hstack hs

theorem Summarised.setOnStack (hw : Summarised w) : Summarised (w.setOnStack f true) := by
  intro s E L hs
  refine (hw s E L hs).imp_left fun hstack => ?_
  show Function.update w.onStack f true s.func = true
  rw [Function.update_apply]
  split
  · rfl
  · exact hstack

/-- The entry that a function leaves in the summary cache is for all it has visited. -/
theorem summarised_function {first : InstId} (hentry : m.entry f = some first)
    (hw : Summarised w) (hnone : w.summary? f L = none) (hstack : w.onStack f = false)
    (hbody : Runs m opts (.visit (.statement first L L)) (w.setOnStack f true) r w')
    (hw' : Summarised w') : Summarised (finishFunction f L r w') := by
  have hpushed : (w.setOnStack f true).onStack f = true := Function.update_self ..
  have hcache : w'.functionCache f = w.functionCache f := functionCache_of_runs hbody hpushed
  have hnone' : w'.summary? f L = none := by
    rw [Worker.summary?, hcache]
    exact hnone
  intro s E L' hs
  rw [summary?_finishFunction hnone', onStack_finishFunction]
  by_cases hf : s.func = f
  · subst hf
    refine .inr ?_
    split
    · nofun
    · rename_i hE
      rcases belongs_of_runs hbody hpushed hs with hold | hbelongs
      · rcases hw s E L' hold with hstack' | hsummary
        · cases hstack.symm.trans hstack'
        · rw [Worker.summary?, hcache]
          exact hsummary
      · exact absurd ⟨rfl, hbelongs.2.symm⟩ hE
  · rw [if_neg hf, if_neg fun h => hf h.1]
    exact hw' s E L' hs

theorem summarised_of_runs (h : Runs m opts t w r w') (ht : Stacked w t) (hw : Summarised w) :
    Summarised w' := by
  induction h with
  | declaration | summary | recursion | cached | nil => exact hw
  | function hentry hnone hstack hbody ih =>
    refine summarised_function hentry hw hnone hstack hbody (ih ?_ hw.setOnStack)
    rw [← func_entry hentry]
    exact Function.update_self ..
  | returned _ hs => exact hw.visit ht hs
  | goOn _ hs _ ih => exact ih (stacked_successors (stacked_processStatement ht hs)) (hw.visit ht hs)
  | call _ hs hcallee _ ihf ih =>
    exact ih (stacked_successors (stacked_afterCall ht hs hcallee)) (ihf trivial (hw.visit ht hs))
  | cons hfirst _ ih ih' =>
    refine ih' (fun c hc => ?_) (ih (ht _ List.mem_cons_self) hw)
    rw [onStack_of_runs hfirst]
    exact ht c (List.mem_cons_of_mem _ hc)

/-- At every task of an analysis from a root the visits are summarised. -/
theorem reached_summarised {root : String}
    (h : Reached m opts (.visit (.function root ∅)) {} ctx t w) : Stacked w t ∧ Summarised w := by
  induction h with
  | start => exact ⟨trivial, nofun⟩
  | body _ hentry _ _ ih =>
    refine ⟨?_, ih.2.setOnStack⟩
    rw [← func_entry hentry]
    exact Function.update_self ..
  | goOn _ _ hs ih =>
    exact ⟨stacked_successors (stacked_processStatement ih.1 hs), ih.2.visit ih.1 hs⟩
  | enter _ _ hs ih => exact ⟨trivial, ih.2.visit ih.1 hs⟩
  | @resume ctx s E L w f L' w₁ exits w₂ _ _ hs hcallee ih =>
    have hw₂ : Summarised w₂ := summarised_of_runs hcallee trivial (ih.2.visit ih.1 hs)
    exact ⟨stacked_successors (stacked_afterCall ih.1 hs hcallee), hw₂⟩
  | head _ ih => exact ⟨ih.1 _ List.mem_cons_self, ih.2⟩
  | rest _ hfirst ih =>
    refine ⟨fun c hc => ?_, summarised_of_runs hfirst (ih.1 _ List.mem_cons_self) ih.2⟩
    rw [onStack_of_runs hfirst]
    exact ih.1 c (List.mem_cons_of_mem _ hc)

/-- A call that makes a summary visits every statement on the paths of the function, and
visits it anew. -/
theorem visits_path (hw : Summarised w) (hnone : w.summary? f L = none)
    (hstack : w.onStack f = false) (h : Runs m opts (.visit (.function f L)) w r w')
    (hs : OnPath m f s) :
    ∃ L', w'.isInCache s L L' = true ∧ w.isInCache s L L' = false := by
  have hnew : ∀ {s L'}, s.func = f → w.isInCache s L L' = false := by
    intro s L' hfunc
    refine Bool.eq_false_iff.mpr fun hcached => ?_
    rcases hw s L L' hcached with hstacked | hsummary
    · rw [hfunc, hstack] at hstacked
      cases hstacked
    · exact hsummary (hfunc ▸ hnone)
  have hfollowed := followedUp_of_runs h
  induction hs with
  | @entry s hentry =>
    refine ⟨L, ?_, hnew (func_entry hentry)⟩
    obtain ⟨w₂, hbody, rfl⟩ := h.function_inv hentry hnone hstack
    exact finished_of_runs hbody
  | @next s s' hs hop hsucc ih =>
    obtain ⟨L', hvisited, hold⟩ := ih
    rcases hfollowed s L L' hvisited with hcached | hsuccs
    · cases hold.symm.trans hcached
    · obtain ⟨L'', hvisited'⟩ := hsuccs hop s' hsucc
      exact ⟨L'', hvisited', hnew ((func_succs hsucc).trans (func_onPath hs))⟩

end Summaries

end Lockout.Strator.Coverage
