import Lockout.LockTracer.Hooks

/-! # What the hooks preserve

The program with hooks against the program without them: every run of one has its
counterpart in the other and the hooks add no deadlock. The second half is about the
shared maps: the records of a mutex follow its owners over every interleaving. -/

namespace Lockout.LockTracer.Refinement
open Std
open Lockout.Lib.Transition
open Lockout.LockTracer.Graph Lockout.LockTracer.Threads Lockout.LockTracer.Components
open Lockout.LockTracer.Events Lockout.LockTracer.Hooks

section Refinement
variable {prog : Program} {n : Native} {s : Traced} {t : Pthread} {m : LockAddress} {loc : Location}
  {p q : Point} {big : Option Pthread} {tracer : Tracer}

/-- No thread is in a hook. -/
def Quiet (prog : Program) (s : Traced) : Prop :=
  Consistent prog s ∧ ∀ t, s.point t = .idle

theorem Quiet.free (h : Quiet prog s) : s.tracerBigLock = none := by
  cases hbig : s.tracerBigLock with
  | none => rfl
  | some t =>
    have hholds := (h.1.big t).mp hbig
    rw [h.2 t] at hholds
    cases hholds

/-- Thread `t` stands at `p`, every other thread is outside the hooks, and the program
itself is in state `n`. -/
structure Alone (n : Native) (t : Pthread) (p : Point) (s : Traced) : Prop where
  native : s.native = n
  here : s.point t = p
  others : ∀ u, u ≠ t → s.point u = .idle

theorem Quiet.alone (h : Quiet prog s) : Alone s.native t .idle s :=
  ⟨rfl, h.2 t, fun u _ => h.2 u⟩

theorem Alone.op (h : Alone n t p s) (n' : Native) :
    Alone n' t q (Traced.goto ⟨n', s.point, big, tracer⟩ t q) := by
  refine ⟨rfl, ?_, ?_⟩
  · rw [point_goto, if_pos rfl]
  · intro u hu
    rw [point_goto, if_neg hu]
    exact h.others u hu

theorem Alone.goto (h : Alone n t p s) :
    Alone n t q (Traced.goto { s with tracerBigLock := big, tracer := tracer } t q) := by
  rw [← h.native]
  exact h.op s.native

theorem Alone.quiet (h : Alone n t .idle s) (hs : Consistent prog s) : Quiet prog s := by
  refine ⟨hs, fun u => ?_⟩
  by_cases hu : u = t
  · rw [hu]
    exact h.here
  · exact h.others u hu

/-- Alone, `beforeLock` runs to the real lock on both branches of `checkSCC`. -/
theorem Quiet.reach_lock (h : Quiet prog s) (hop : prog t (s.native.pc t) = some (.lock m loc)) :
    ∃ ls s', Run (TracedStep prog) s ls s' ∧ ls.filterMap erase = [] ∧
      Alone s.native t (.locking m loc) s' ∧ s'.tracerBigLock = none := by
  obtain ⟨s₁, hfirst, hchecking⟩ : ∃ s₁, TracedStep prog s (.hook t) s₁ ∧
      Alone s.native t (.checking m loc) s₁ :=
    ⟨_, .beforeLock (h.2 t) hop h.free, h.alone.goto⟩
  -- from the end of `beforeLock` both branches go on alike
  have hlast : ∀ {s₂}, Alone s.native t (.leaving m loc) s₂ →
      ∃ s₃, TracedStep prog s₂ (.hook t) s₃ ∧ Alone s.native t (.locking m loc) s₃ ∧
        s₃.tracerBigLock = none := fun hleaving =>
    ⟨_, .leave hleaving.here, hleaving.goto, rfl⟩
  cases hdelay : (Events.beforeLock s₁.tracer t m loc).1 with
  | false =>
    obtain ⟨s₂, hcheck, hleaving⟩ : ∃ s₂, TracedStep prog s₁ (.hook t) s₂ ∧
        Alone s.native t (.leaving m loc) s₂ := by
      refine ⟨_, .checkSCC hchecking.here, ?_⟩
      rw [hdelay]
      exact hchecking.goto
    obtain ⟨s₃, hleave, hlocking, hfree⟩ := hlast hleaving
    exact ⟨_, s₃, .cons hfirst (.cons hcheck (.single hleave)), rfl, hlocking, hfree⟩
  | true =>
    obtain ⟨s₂, hcheck, hdelaying⟩ : ∃ s₂, TracedStep prog s₁ (.hook t) s₂ ∧
        Alone s.native t (.delaying m loc) s₂ := by
      refine ⟨_, .checkSCC hchecking.here, ?_⟩
      rw [hdelay]
      exact hchecking.goto
    obtain ⟨s₃, hgive, hsleeping, hgiven⟩ : ∃ s₃, TracedStep prog s₂ (.hook t) s₃ ∧
        Alone s.native t (.sleeping m loc) s₃ ∧ s₃.tracerBigLock = none :=
      ⟨_, .giveBack hdelaying.here, hdelaying.goto, rfl⟩
    obtain ⟨s₄, hretake, hleaving⟩ : ∃ s₄, TracedStep prog s₃ (.hook t) s₄ ∧
        Alone s.native t (.leaving m loc) s₄ :=
      ⟨_, .retake hsleeping.here hgiven, hsleeping.goto⟩
    obtain ⟨s₅, hleave, hlocking, hfree⟩ := hlast hleaving
    exact ⟨_, s₅, .cons hfirst (.cons hcheck (.cons hgive (.cons hretake (.single hleave)))), rfl,
      hlocking, hfree⟩

/-- Every operation of the program can be made with its hooks and no pause. -/
theorem covering (prog : Program) :
    Covering (TracedStep prog) (NativeStep prog) Traced.native erase (Quiet prog) where
  cover := by
    intro s a n h hstep
    obtain ⟨t, op⟩ := a
    cases op with
    | lock m loc =>
      obtain ⟨ls, s₁, hreach, herase, hlocking, hfree⟩ := h.reach_lock hstep.lock_eq.1
      obtain ⟨s₂, hlock, hlocked, hfree⟩ : ∃ s₂, TracedStep prog s₁ (.op t (.lock m loc)) s₂ ∧
          Alone n t (.locked m loc) s₂ ∧ s₂.tracerBigLock = none :=
        ⟨_, .lock hlocking.here (hlocking.native ▸ hstep), hlocking.op n, hfree⟩
      obtain ⟨s₃, htake, hrecording⟩ : ∃ s₃, TracedStep prog s₂ (.hook t) s₃ ∧
          Alone n t (.recording m loc) s₃ := ⟨_, .afterLock hlocked.here hfree, hlocked.goto⟩
      obtain ⟨s₄, hrecord, hrecorded⟩ : ∃ s₄, TracedStep prog s₃ (.recordLock t m) s₄ ∧
          Alone n t .recorded s₄ := ⟨_, .recordLock hrecording.here, hrecording.goto⟩
      obtain ⟨s₅, hdone, hidle⟩ : ∃ s₅, TracedStep prog s₄ (.hook t) s₅ ∧ Alone n t .idle s₅ :=
        ⟨_, .done hrecorded.here, hrecorded.goto⟩
      have hrun := hreach.append (.cons hlock (.cons htake (.cons hrecord (.single hdone))))
      refine ⟨_, s₅, hrun, ?_, hidle.native, hidle.quiet (h.1.run hrun)⟩
      rw [List.filterMap_append, herase]
      rfl
    | unlock m loc =>
      obtain ⟨s₁, htake, hunlocking⟩ : ∃ s₁, TracedStep prog s (.hook t) s₁ ∧
          Alone s.native t (.unlocking m loc) s₁ :=
        ⟨_, .beforeUnlock (h.2 t) hstep.unlock_eq.1 h.free, h.alone.goto⟩
      obtain ⟨s₂, hunlock, hunlocked⟩ : ∃ s₂, TracedStep prog s₁ (.op t (.unlock m loc)) s₂ ∧
          Alone n t (.unlocked m loc) s₂ :=
        ⟨_, .unlock hunlocking.here (hunlocking.native ▸ hstep), hunlocking.op n⟩
      have hconsistent := h.1.run (.cons htake (.single hunlock))
      obtain ⟨tracer, htracer⟩ := hconsistent.unlock_isSome hunlocked.here
      obtain ⟨s₃, hrecord, hrecorded⟩ : ∃ s₃, TracedStep prog s₂ (.recordUnlock t m) s₃ ∧
          Alone n t .recorded s₃ := ⟨_, .recordUnlock hunlocked.here htracer, hunlocked.goto⟩
      obtain ⟨s₄, hdone, hidle⟩ : ∃ s₄, TracedStep prog s₃ (.hook t) s₄ ∧ Alone n t .idle s₄ :=
        ⟨_, .done hrecorded.here, hrecorded.goto⟩
      have hrun : Run (TracedStep prog) s _ s₄ :=
        .cons htake (.cons hunlock (.cons hrecord (.single hdone)))
      exact ⟨_, s₄, hrun, rfl, hidle.native, hidle.quiet (h.1.run hrun)⟩

end Refinement

/-- The program with hooks and the program without them simulate each other, and the
hooks add no deadlock. -/
theorem hooks_refine (prog : Program) (hprog : OwnerUnlocks prog) (ord : NodeOrder) (name : String)
    (entries : List (LockAddress × List (LockAddress × Int))) {tracer : Tracer}
    (hstart : start ord (LockGraph.read name entries) = some tracer) :
    (∀ ls s, Run (TracedStep prog) (Traced.initial tracer) ls s →
        Run (NativeStep prog) {} (ls.filterMap erase) s.native) ∧
      (∀ ops n, Run (NativeStep prog) {} ops n → ∃ ls s,
        Run (TracedStep prog) (Traced.initial tracer) ls s ∧ ls.filterMap erase = ops ∧
          s.native = n) ∧
      (∀ ls s, Run (TracedStep prog) (Traced.initial tracer) ls s → Stuck (TracedStep prog) s →
        Stuck (NativeStep prog) s.native) := by
  have hinitial : Consistent prog (Traced.initial tracer) := consistent_initial hstart
  refine ⟨?_, ?_, ?_⟩
  · intro ls s hrun
    exact (erasure prog).run hrun
  · intro ops n hrun
    have hquiet : Quiet prog (Traced.initial tracer) := ⟨hinitial, fun _ => rfl⟩
    obtain ⟨ls, s, hls, herase, hn, -⟩ := (covering prog).run hrun hquiet rfl
    exact ⟨ls, s, hls, herase, hn⟩
  · intro ls s hrun hstuck a n hstep
    obtain ⟨l, s', hgo⟩ := (hinitial.run hrun).progress hprog hstep
    exact hstuck l s' hgo

/-- Threads 7 and 8 lock and unlock the same mutex. -/
def contended : Program := fun t n =>
  if t = 7 ∨ t = 8 then
    match n with
    | 0 => some (.lock 1 0)
    | 1 => some (.unlock 1 1)
    | _ => none
  else none

theorem contended_ownerUnlocks : OwnerUnlocks contended := by
  intro t n m loc hop
  unfold contended at hop
  split at hop
  · rename_i ht
    match n with
    | 0 | n + 2 => cases hop
    | 1 =>
      cases hop
      simp [holdings, contended, ht]
  · cases hop

/-- Thread 7 locks and unlocks, then thread 8 locks. -/
theorem contended_run : ∃ n, n.owner 1 = some 8 ∧ Run (NativeStep contended) {}
    [(7, .lock 1 0), (7, .unlock 1 1), (8, .lock 1 0)] n :=
  ⟨_, rfl, .cons (.lock rfl rfl) (.cons (.unlock rfl rfl) (.single (.lock rfl rfl)))⟩

/-- The native run above has a traced counterpart. -/
theorem hooks_refine_contended : ∃ tracer ls s,
    start .byAddress (LockGraph.read "" []) = some tracer ∧
    Run (TracedStep contended) (Traced.initial tracer) ls s ∧
    ls.filterMap erase = [(7, .lock 1 0), (7, .unlock 1 1), (8, .lock 1 0)] ∧
    s.native.owner 1 = some 8 := by
  obtain ⟨tracer, hstart⟩ := start_read .byAddress "" []
  obtain ⟨n, hown, hrun⟩ := contended_run
  obtain ⟨ls, s, hls, herase, rfl⟩ :=
    (hooks_refine contended contended_ownerUnlocks .byAddress _ _ hstart).2.1 _ n hrun
  exact ⟨tracer, ls, s, hstart, hls, herase, hown⟩

/-! ## The recorded events of one mutex -/

inductive Record where
  | acquire (t : Pthread)
  | release (t : Pthread)

def recordOf (m : LockAddress) : Label → Option Record
  | .recordLock t k => if k = m then some (.acquire t) else none
  | .recordUnlock t k => if k = m then some (.release t) else none
  | .hook _ | .op .. => none

/-- Acquisitions and releases in turn, each release by the thread that acquired;
the first argument is the holder at the start. -/
def Alternating : Option Pthread → List Record → Prop
  | _, [] => True
  | none, .acquire t :: rs => Alternating (some t) rs
  | some t, .release u :: rs => u = t ∧ Alternating none rs
  | none, .release _ :: _ | some _, .acquire _ :: _ => False

section Records
variable {prog : Program} {s s' : Traced} {t : Pthread} {m : LockAddress} {l : Label}

/-- What a step does to the recorded owner of `m`. -/
def Follows (before : Option Pthread) (after : Option Pthread) : Option Record → Prop
  | none => after = before
  | some (.acquire t) => before = none ∧ after = some t
  | some (.release t) => before = some t ∧ after = none

theorem recordOf_recordLock {k : LockAddress} :
    recordOf m (.recordLock t k) = if k = m then some (.acquire t) else none := rfl

theorem recordOf_recordUnlock {k : LockAddress} :
    recordOf m (.recordUnlock t k) = if k = m then some (.release t) else none := rfl

theorem follows_step (h : Consistent prog s) (hs : TracedStep prog s l s') :
    Follows s.tracer.lockThreadMap[m]? s'.tracer.lockThreadMap[m]? (recordOf m l) := by
  cases hs with
  | checkSCC hp =>
    show (Events.beforeLock _ _ _ _).2.lockThreadMap[m]? = _
    rw [lockThreadMap_beforeLock]
  | @recordLock t k loc hp =>
    rw [recordOf_recordLock]
    by_cases hk : k = m
    · subst hk
      rw [if_pos rfl]
      refine ⟨?_, ?_⟩
      · cases howner : s.tracer.lockThreadMap[k]? with
        | none => rfl
        | some u => exact absurd ((h.map u k).mp howner) (h.unrecorded hp)
      · rw [tracer_goto, lockThreadMap_afterLock, if_pos rfl]
    · rw [if_neg hk]
      show (Events.afterLock _ _ _ _).lockThreadMap[m]? = _
      rw [lockThreadMap_afterLock, if_neg (Ne.symm hk)]
  | @recordUnlock t k loc tracer hp hrun =>
    rw [recordOf_recordUnlock]
    by_cases hk : k = m
    · subst hk
      rw [if_pos rfl]
      refine ⟨?_, ?_⟩
      · refine (h.map t k).mpr ?_
        rw [Traced.records, hp]
        exact Finset.mem_insert_self _ _
      · rw [tracer_goto, lockThreadMap_afterUnlock hrun, if_pos rfl]
    · rw [if_neg hk]
      show tracer.lockThreadMap[m]? = _
      rw [lockThreadMap_afterUnlock hrun, if_neg (Ne.symm hk)]
  | _ => rfl

theorem alternating_run {ls : List Label} (h : Consistent prog s)
    (hrun : Run (TracedStep prog) s ls s') :
    Alternating s.tracer.lockThreadMap[m]? (ls.filterMap (recordOf m)) := by
  induction hrun with
  | nil => exact True.intro
  | @cons s mid s' l ls hstep _ ih =>
    have hfollows := follows_step (m := m) h hstep
    have hrest := ih (h.step hstep)
    cases hl : recordOf m l with
    | none =>
      rw [hl] at hfollows
      rw [List.filterMap_cons_none hl, ← show _ = _ from hfollows]
      exact hrest
    | some r =>
      rw [hl] at hfollows
      rw [List.filterMap_cons_some hl]
      cases r with
      | acquire t =>
        rw [hfollows.2] at hrest
        rw [hfollows.1]
        exact hrest
      | release t =>
        rw [hfollows.2] at hrest
        rw [hfollows.1]
        exact ⟨rfl, hrest⟩

/-- When `tracerBigLock` is free, nobody is recorded for a mutex of another thread. -/
theorem owner_of_recorded (h : Consistent prog s) (hfree : s.tracerBigLock = none)
    (hm : s.tracer.lockThreadMap[m]? = some t) : s.native.owner m = some t := by
  have hbig : (s.point t).holdsBig = false := by
    cases hp : (s.point t).holdsBig with
    | false => rfl
    | true =>
      have hsome := (h.big t).mpr hp
      rw [hfree] at hsome
      cases hsome
  exact (h.owned t m).mpr (records_subset hbig ((h.map t m).mp hm))

end Records

/-- For any number of threads and any interleaving: the records of a mutex alternate
between an acquisition and the release by the same thread, the shared maps agree with
the owners whenever `tracerBigLock` is free, and a recorded release erases the
ownership of its own thread. -/
theorem records_follow_owners (prog : Program) (ord : NodeOrder) (name : String)
    (entries : List (LockAddress × List (LockAddress × Int))) {tracer : Tracer}
    (hstart : start ord (LockGraph.read name entries) = some tracer) {ls : List Label} {s : Traced}
    (hrun : Run (TracedStep prog) (Traced.initial tracer) ls s) :
    (∀ m, Alternating none (ls.filterMap (recordOf m))) ∧
      (s.tracerBigLock = none → ∀ m,
        (∀ t, s.tracer.lockThreadMap[m]? = some t → s.native.owner m = some t) ∧
        (m ∈ s.tracer.allLocksHeld ↔ m ∈ s.tracer.lockThreadMap)) ∧
      (∀ t m s', TracedStep prog s (.recordUnlock t m) s' →
        s.tracer.lockThreadMap[m]? = some t) := by
  have hinitial : Consistent prog (Traced.initial tracer) := consistent_initial hstart
  have h := hinitial.run hrun
  refine ⟨?_, ?_, ?_⟩
  · intro m
    have hempty : (Traced.initial tracer).tracer.lockThreadMap[m]? = none := by
      cases howner : (Traced.initial tracer).tracer.lockThreadMap[m]? with
      | none => rfl
      | some u => exact absurd ((hinitial.map u m).mp howner) (Finset.notMem_empty m)
    rw [← hempty]
    exact alternating_run hinitial hrun
  · intro hfree m
    exact ⟨fun t => owner_of_recorded h hfree, h.all m⟩
  · intro t m s' hstep
    have hfollows := follows_step (m := m) h hstep
    rw [recordOf_recordUnlock, if_pos rfl] at hfollows
    exact hfollows.1

/-- The records of mutex 1 when threads 7 and 8 take it in turn. -/
theorem records_follow_owners_contended : ∃ tracer ls s,
    start .byAddress (LockGraph.read "" []) = some tracer ∧
    Run (TracedStep contended) (Traced.initial tracer) ls s ∧
    ls.filterMap erase = [(7, .lock 1 0), (7, .unlock 1 1), (8, .lock 1 0)] ∧
    Alternating none (ls.filterMap (recordOf 1)) := by
  obtain ⟨tracer, hstart⟩ := start_read .byAddress "" []
  obtain ⟨n, -, hrun⟩ := contended_run
  have hquiet : Quiet contended (Traced.initial tracer) :=
    ⟨consistent_initial hstart, fun _ => rfl⟩
  obtain ⟨ls, s, hls, herase, -, -⟩ := (covering contended).run hrun hquiet rfl
  exact ⟨tracer, ls, s, hstart, hls, herase,
    (records_follow_owners contended .byAddress _ _ hstart hls).1 1⟩

end Lockout.LockTracer.Refinement
