import Lockout.Strator.Territories

/-! # Traversals of different territories

A traversal within a territory does the same from two states that agree there, and
leaves alone what a worker keeps about another territory (`alike_runs`). -/

namespace Lockout.Strator.Isolation
open Lockout.Strator.Program Lockout.Strator.State Lockout.Strator.Traverse
open Lockout.Strator.Effects Lockout.Strator.Resolution Lockout.Strator.Territories

/-! ## The records -/

/-- The records of a map, with their values. -/
def recordsOf (map : ValueToAccessTypeMap) : Set (Value × AccessType) :=
  {r | ∃ accesses, map.lookup r.1 = some accesses ∧ r.2 ∈ accesses}

/-- The record that `detectRaces` makes, if any. -/
def newRecord (m : IRModule) (opts : Options) (s : InstId) (isStore : Bool) (pointer : Value)
    (L : LockSet) (w : Worker) : Set (Value × AccessType) :=
  {r | m.isConstantGlobal (getDefOperand opts w.parentValue pointer) = false ∧
    w.multithreadedFunctionMap s.func = true ∧
    r = (getDefOperand opts w.parentValue pointer, ⟨isStore, true, s, L⟩)}

section Records
variable {m : IRModule} {T : Territory m} {w w' u : Worker} {s : InstId} {L : LockSet}
  {opts : Options} {v pointer : Value} {a : AccessType} {isStore : Bool}

theorem recordsOf_record :
    recordsOf (w.record v a).valueToAccessTypeMap =
      recordsOf w.valueToAccessTypeMap ∪ {(v, a)} := by
  ext ⟨v', a'⟩
  by_cases hv : v' = v
  · subst hv
    cases hold : w.valueToAccessTypeMap.lookup v' with
    | none => simp [recordsOf, Worker.record, hold]
    | some accesses => simp [recordsOf, Worker.record, hold, or_comm]
  · simp [recordsOf, Worker.record, AList.lookup_insert_ne hv, hv]

theorem recordsOf_detectRaces :
    recordsOf (detectRaces m opts s isStore pointer L w).valueToAccessTypeMap =
      recordsOf w.valueToAccessTypeMap ∪ newRecord m opts s isStore pointer L w := by
  unfold detectRaces newRecord
  dsimp only
  cases m.isConstantGlobal (getDefOperand opts w.parentValue pointer) with
  | true => simp
  | false =>
    cases hflag : w.multithreadedFunctionMap s.func with
    | true =>
      simp only [Bool.false_eq_true, if_false, if_true, recordsOf_record]
      simp
    | false => simp

theorem newRecord_congr (h : SameOn T w u) (hw : Settled T w) (hs : s.func ∈ T.mem)
    (hpointer : T.OwnsChain pointer) : newRecord m opts s isStore pointer L w =
      newRecord m opts s isStore pointer L u := by
  unfold newRecord
  rw [getDefOperand_congr h hw hpointer, h.flags s.func hs]

/-- From the one state to the other exactly the records `new` have been made. -/
def Adds (new : Set (Value × AccessType)) (w w' : Worker) : Prop :=
  recordsOf w'.valueToAccessTypeMap = recordsOf w.valueToAccessTypeMap ∪ new

theorem Adds.none (h : w'.valueToAccessTypeMap = w.valueToAccessTypeMap) : Adds ∅ w w' := by
  unfold Adds
  rw [h, Set.union_empty]

theorem Adds.trans {new new' : Set (Value × AccessType)} {w'' : Worker} (h : Adds new w w')
    (h' : Adds new' w' w'') : Adds (new ∪ new') w w'' := by
  unfold Adds at *
  rw [h', h, Set.union_assoc]

end Records

/-! ## The same from two states -/

/-- From `w` to `w'` and from `u` to `u'` the same has happened to the territory, the
same records have been made, and no other territory has been touched. -/
structure Alike {m : IRModule} (T : Territory m) (w w' u u' : Worker) : Prop where
  same : SameOn T w' u'
  settled : Settled T w'
  settled' : Settled T u'
  others : ∀ T' : Territory m, Disjoint T.mem T'.mem → SameOn T' w w'
  adds : ∃ new, Adds new w w' ∧ Adds new u u'

section Simulation
variable {m : IRModule} {T : Territory m} {w w' u u' w'' u'' : Worker} {s : InstId}
  {E L : LockSet} {opts : Options} {next : Next}

theorem Alike.trans (h : Alike T w w' u u') (h' : Alike T w' w'' u' u'') :
    Alike T w w'' u u'' := by
  obtain ⟨new, hw, hu⟩ := h.adds
  obtain ⟨new', hw', hu'⟩ := h'.adds
  refine ⟨h'.same, h'.settled, h'.settled', fun T' hdisj => ?_, new ∪ new', hw.trans hw',
    hu.trans hu'⟩
  exact (h.others T' hdisj).trans (h'.others T' hdisj)

/-- A change of the state that makes no record. -/
theorem Alike.unrecorded (hsame : SameOn T w' u') (hw' : Settled T w') (hu' : Settled T u')
    (hothers : ∀ T' : Territory m, Disjoint T.mem T'.mem → SameOn T' w w')
    (hw : w'.valueToAccessTypeMap = w.valueToAccessTypeMap)
    (hu : u'.valueToAccessTypeMap = u.valueToAccessTypeMap) : Alike T w w' u u' :=
  ⟨hsame, hw', hu', hothers, ∅, Adds.none hw, Adds.none hu⟩

theorem Alike.refl (h : SameOn T w u) (hw : Settled T w) (hu : Settled T u) : Alike T w w u u :=
  .unrecorded h hw hu (fun _ _ => .refl) rfl rfl

theorem alike_detectRaces (h : SameOn T w u) (hw : Settled T w) (hu : Settled T u)
    (hs : s.func ∈ T.mem) {isStore : Bool} {pointer : Value} (hpointer : T.OwnsChain pointer) :
    Alike T w (detectRaces m opts s isStore pointer L w) u
      (detectRaces m opts s isStore pointer L u) := by
  refine ⟨h.detectRaces, hw.detectRaces, hu.detectRaces, fun _ _ => sameOn_detectRaces,
    newRecord m opts s isStore pointer L w, recordsOf_detectRaces, ?_⟩
  rw [newRecord_congr h hw hs hpointer]
  exact recordsOf_detectRaces

/-- One statement of the territory goes on alike. -/
theorem alike_step (hlocal : Local m) (hs : s.func ∈ T.mem) (h : SameOn T w u)
    (hw : Settled T w) (hu : Settled T u) (hstep : Step m opts s L w next w') :
    ∃ u', Step m opts s L u next u' ∧ Alike T w w' u u' := by
  have hw' := hw.step hlocal hs hstep
  have hothers : ∀ T' : Territory m, Disjoint T.mem T'.mem → SameOn T' w w' := fun _ hdisj =>
    sameOn_step hdisj hw hs hstep
  have hmark : ∀ {callee args}, m.op? s = some (.call callee args) →
      SameOn T (markMultithreaded m opts s callee w) (markMultithreaded m opts s callee u) :=
    fun hop => h.markMultithreaded hw hu hs hop
  have hunrecorded : ∀ {u'}, Step m opts s L u next u' → SameOn T w' u' → Bookkeeping w w' →
      Bookkeeping u u' → ∃ u', Step m opts s L u next u' ∧ Alike T w w' u u' := by
    intro u' hstep' hsame hbook hbook'
    exact ⟨u', hstep', .unrecorded hsame hw' (hu.step hlocal hs hstep') hothers hbook.recorded
      hbook'.recorded⟩
  cases hstep with
  | returned hop => exact hunrecorded (.returned hop) h .refl .refl
  | plain hop hplain => exact hunrecorded (.plain hop hplain) h .refl .refl
  | bitCast hop =>
    exact hunrecorded (.bitCast hop) h.setParentValue ⟨⟨rfl, rfl, rfl⟩, rfl, rfl⟩
      ⟨⟨rfl, rfl, rfl⟩, rfl, rfl⟩
  | unresolved hop hcallee =>
    exact hunrecorded (.unresolved hop hcallee) (hmark hop) bookkeeping_markMultithreaded
      bookkeeping_markMultithreaded
  | lock hop hcallee hlock hl =>
    rw [getLockValue_congr (hmark hop) hw' hlocal (ownsChain_args hlocal hs hop)] at hl
    exact hunrecorded (.lock hop hcallee hlock hl) (hmark hop) bookkeeping_markMultithreaded
      bookkeeping_markMultithreaded
  | unlock hop hcallee hlock hunlock hl =>
    rw [getLockValue_congr (hmark hop) hw' hlocal (ownsChain_args hlocal hs hop)] at hl
    exact hunrecorded (.unlock hop hcallee hlock hunlock hl) (hmark hop)
      bookkeeping_markMultithreaded bookkeeping_markMultithreaded
  | call hop hcallee hlock hunlock hresolves =>
    exact hunrecorded (.call hop hcallee hlock hunlock hresolves)
      ((hmark hop).inheritFlag hs).bindArguments bookkeeping_call bookkeeping_call
  | load hop =>
    have hpointer := ownsChain_operand hlocal hs hop List.mem_cons_self
    exact ⟨_, .load hop, alike_detectRaces h hw hu hs hpointer⟩
  | store hop =>
    have hpointer := ownsChain_operand hlocal hs hop (List.mem_cons_of_mem _ List.mem_cons_self)
    exact ⟨_, .store hop, alike_detectRaces h hw hu hs hpointer⟩

end Simulation

/-! ## Whole traversals -/

/-- The search stays within the territory. -/
def Within {m : IRModule} (T : Territory m) : Search → Prop
  | .visit (.function f _) => m.entry f ≠ none → f ∈ T.mem
  | .visit (.statement s _ _) => s.func ∈ T.mem
  | .each _ work => ∀ c ∈ work, c.1.func ∈ T.mem

section Runs
variable {m : IRModule} {T : Territory m} {w w' u w₁ : Worker} {s : InstId}
  {E L L' : LockSet} {opts : Options} {next : Next} {t : Search} {r : List LockSet} {f : String}

theorem within_successors {working : List LockSet} (hs : s.func ∈ T.mem) :
    Within T (.each E (successors m s working)) :=
  forall_successors (P := fun f => f ∈ T.mem) hs

theorem within_callee (hs : s.func ∈ T.mem) (h : Step m opts s L w (.call f L') w') :
    Within T (.visit (.function f L')) := by
  cases h with
  | call hop hcallee _ _ hresolves => exact T.closed hs (.enters rfl hop hcallee hresolves)

theorem within_body {first : InstId} (h : Within T (.visit (.function f L)))
    (hentry : m.entry f = some first) : f ∈ T.mem ∧ Within T (.visit (.statement first L L)) := by
  have hf : f ∈ T.mem := h (by rw [hentry]; nofun)
  refine ⟨hf, ?_⟩
  show first.func ∈ T.mem
  rw [func_entry hentry]
  exact hf

theorem isInCache_congr (h : SameOn T w u) (hs : s.func ∈ T.mem) :
    u.isInCache s E L = w.isInCache s E L := by
  unfold Worker.isInCache
  rw [h.statementCache s hs]

theorem summary?_congr (h : SameOn T w u) (hf : f ∈ T.mem) : u.summary? f L = w.summary? f L := by
  unfold Worker.summary?
  rw [h.functionCache f hf]

/-- A visit that is not answered from the cache. -/
theorem alike_processStatement (hlocal : Local m) (hs : s.func ∈ T.mem) (h : SameOn T w u)
    (hw : Settled T w) (hu : Settled T u)
    (hstep : processStatement m opts s L (w.addToCache s E L) = .ok (next, w₁)) :
    ∃ u₁, processStatement m opts s L (u.addToCache s E L) = .ok (next, u₁) ∧
      Alike T w w₁ u u₁ := by
  have hcache : Alike T w (w.addToCache s E L) u (u.addToCache s E L) :=
    .unrecorded h.addToCache { hw with } { hu with }
      (fun _ hdisj => sameOn_addToCache (Set.disjoint_left.mp hdisj hs)) rfl rfl
  obtain ⟨u₁, hstep', halike⟩ := alike_step hlocal hs hcache.same hcache.settled hcache.settled'
    (step_of_processStatement hstep)
  exact ⟨u₁, processStatement_of_step hstep', hcache.trans halike⟩

theorem alike_eraseArguments (hf : m.entry f ≠ none → f ∈ T.mem) (h : SameOn T w u)
    (hw : Settled T w) (hu : Settled T u) :
    Alike T w (eraseArguments m f w) u (eraseArguments m f u) := by
  refine .unrecorded h.eraseArguments hw.eraseArguments hu.eraseArguments (fun T' hdisj => ?_)
    rfl rfl
  refine sameOn_eraseArguments fun hmem => ?_
  exact Set.disjoint_left.mp hdisj (hf (T'.body hmem)) hmem

/-- A search of a territory does the same from two states that agree there. -/
theorem alike_runs (hlocal : Local m) (hrun : Runs m opts t w r w') (ht : Within T t)
    (h : SameOn T w u) (hw : Settled T w) (hu : Settled T u) :
    ∃ u', Runs m opts t u r u' ∧ Alike T w w' u u' := by
  induction hrun generalizing u with
  | declaration hentry => exact ⟨u, .declaration hentry, .refl h hw hu⟩
  | summary hentry he =>
    have hf := (within_body ht hentry).1
    exact ⟨u, .summary hentry ((summary?_congr h hf).trans he), .refl h hw hu⟩
  | recursion hentry hnone hstack =>
    have hf := (within_body ht hentry).1
    exact ⟨u, .recursion hentry ((summary?_congr h hf).trans hnone)
      ((h.onStack _ hf).symm.trans hstack), .refl h hw hu⟩
  | @function f L w first r w' hentry hnone hstack _ ih =>
    obtain ⟨hf, hbody⟩ := within_body ht hentry
    have hstart : Alike T w (w.setOnStack f true) u (u.setOnStack f true) :=
      .unrecorded h.setOnStack { hw with } { hu with }
        (fun _ hdisj => sameOn_setOnStack (Set.disjoint_left.mp hdisj hf)) rfl rfl
    obtain ⟨u', hrun', halike⟩ := ih hbody hstart.same hstart.settled hstart.settled'
    have hfinish : Alike T w' (finishFunction f L r w') u' (finishFunction f L r u') :=
      .unrecorded halike.same.finishFunction { halike.settled with } { halike.settled' with }
        (fun _ hdisj => sameOn_finishFunction (Set.disjoint_left.mp hdisj hf)) rfl rfl
    exact ⟨_, .function hentry ((summary?_congr h hf).trans hnone)
      ((h.onStack f hf).symm.trans hstack) hrun', (hstart.trans halike).trans hfinish⟩
  | cached hcached => exact ⟨u, .cached ((isInCache_congr h ht).trans hcached), .refl h hw hu⟩
  | returned hnew hs =>
    obtain ⟨u₁, hs', halike⟩ := alike_processStatement hlocal ht h hw hu hs
    exact ⟨u₁, .returned ((isInCache_congr h ht).trans hnew) hs', halike⟩
  | goOn hnew hs _ ih =>
    obtain ⟨u₁, hs', halike⟩ := alike_processStatement hlocal ht h hw hu hs
    obtain ⟨u', hrest, halike'⟩ := ih (within_successors ht) halike.same halike.settled
      halike.settled'
    exact ⟨u', .goOn ((isInCache_congr h ht).trans hnew) hs' hrest, halike.trans halike'⟩
  | call hnew hs _ _ ihf ih =>
    have hcallee := within_callee ht (step_of_processStatement hs)
    obtain ⟨u₁, hs', halike⟩ := alike_processStatement hlocal ht h hw hu hs
    obtain ⟨u₂, hcalled, halike₂⟩ := ihf hcallee halike.same halike.settled halike.settled'
    have herase := alike_eraseArguments hcallee halike₂.same halike₂.settled halike₂.settled'
    obtain ⟨u', hrest, halike'⟩ := ih (within_successors ht) herase.same herase.settled
      herase.settled'
    exact ⟨u', .call ((isInCache_congr h ht).trans hnew) hs' hcalled hrest,
      ((halike.trans halike₂).trans herase).trans halike'⟩
  | nil => exact ⟨u, .nil, .refl h hw hu⟩
  | cons _ _ ih ih' =>
    obtain ⟨u₁, hfirst, halike⟩ := ih (ht _ List.mem_cons_self) h hw hu
    obtain ⟨u', hrest, halike'⟩ := ih' (fun c hc => ht c (List.mem_cons_of_mem _ hc))
      halike.same halike.settled halike.settled'
    exact ⟨u', .cons hfirst hrest, halike.trans halike'⟩

end Runs

end Lockout.Strator.Isolation
