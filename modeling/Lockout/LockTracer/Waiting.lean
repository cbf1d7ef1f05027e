import Lockout.LockTracer.Balance

/-! # The deadlock the tracer tries to provoke

`Deadlock::tryDeadlock` is asked before a lock: a thread that has some mutex of a given
set and wants one of the set waits until all of them are held, and the thread that finds
them all held wakes the others. What it knows of the threads is the lock set of the asking
thread's record, whose keys are never removed, and the held set of the process, which a
release of a recursive mutex shortens too early. -/

namespace Lockout.LockTracer.Waiting
open Std
open Lockout.LockTracer.Graph Lockout.LockTracer.Threads Lockout.LockTracer.Components
open Lockout.LockTracer.Events Lockout.LockTracer.LastLock Lockout.LockTracer.Balance

/-- What a call does with the calling thread and with those that wait. -/
inductive Outcome
  | returns
  | waits
  | broadcasts
  deriving DecidableEq

structure Deadlock where
  locks : LockSet

/-- `Deadlock::tryDeadlock`. -/
def Deadlock.tryDeadlock (deadlock : Deadlock) (s : Tracer) (t : Pthread) (lock : LockAddress) :
    Outcome :=
  if lock ∉ deadlock.locks then .returns
  else
    let threadLocks := (s.thread t).getLockset
    let intersect := deadlock.locks ∩ threadLocks
    if intersect = ∅ then .returns
    else
      let remaining := deadlock.locks \ s.allLocksHeld
      if remaining = ∅ then .broadcasts else .waits

/-- The thread holds a mutex of the set. -/
def HoldsOne (locks : LockSet) (s : Tracer) (t : Pthread) : Prop := ∃ m ∈ locks, 0 < s.held t m

/-- Every mutex of the set is held by some thread. -/
def AllHeld (locks : LockSet) (s : Tracer) : Prop := ∀ m ∈ locks, ∃ u, 0 < s.held u m

/-- The call waits for the rest of the set, and broadcasts when there is no rest. -/
structure Provokes (deadlock : Deadlock) (s : Tracer) (t : Pthread) (lock : LockAddress) :
    Prop where
  waits : deadlock.tryDeadlock s t lock = .waits ↔
    lock ∈ deadlock.locks ∧ HoldsOne deadlock.locks s t ∧
      ∃ m ∈ deadlock.locks, ∀ u, ¬ 0 < s.held u m
  broadcasts : deadlock.tryDeadlock s t lock = .broadcasts ↔
    lock ∈ deadlock.locks ∧ HoldsOne deadlock.locks s t ∧ AllHeld deadlock.locks s

/-! ## The history behind the two sets -/

/-- The event is a lock or an unlock of `m`. -/
def concerns (m : LockAddress) : Event → Bool
  | .beforeLock .. => false
  | .afterLock _ k _ => m = k
  | .afterUnlock _ k _ => m = k

/-- The latest lock or unlock event of `m`. -/
def latest (m : LockAddress) (es : List Event) : Option Event := (es.filter (concerns m)).getLast?

/-- The latest event of `m` is a lock. -/
def LatestLocks (m : LockAddress) (es : List Event) : Prop :=
  ∃ t loc, latest m es = some (.afterLock t m loc)

/-- The thread has locked a mutex of the set, which it may have released since. -/
def HasLocked (locks : LockSet) (t : Pthread) (es : List Event) : Prop :=
  ∃ m ∈ locks, ∃ loc, .afterLock t m loc ∈ es

section History
variable {s s' : Tracer} {e : Event} {es : List Event} {t : Pthread} {m : LockAddress}
  {locks : LockSet}

theorem run_concat : run s (es ++ [e]) = (run s es).bind fun s => step s e := by
  induction es generalizing s with
  | nil => simp [run]
  | cons e' es ih =>
    rw [List.cons_append, run, run, Option.bind_assoc]
    exact congrArg _ (funext fun s => ih)

theorem latest_concat :
    latest m (es ++ [e]) = if concerns m e then some e else latest m es := by
  unfold latest
  rw [List.filter_append, List.filter_singleton]
  cases concerns m e <;> simp

/-- Of a mutex the held set knows the latest event only. -/
theorem mem_allLocksHeld_run (hnone : ∀ m, m ∉ s.allLocksHeld) (hrun : run s es = some s') :
    m ∈ s'.allLocksHeld ↔ LatestLocks m es := by
  induction es using List.reverseRecOn generalizing s' with
  | nil =>
    obtain rfl := Option.some.inj hrun
    simp [hnone m, LatestLocks, latest]
  | append_singleton es e ih =>
    rw [run_concat] at hrun
    obtain ⟨mid, hmid, he⟩ := Option.bind_eq_some_iff.mp hrun
    have hbefore := ih hmid
    unfold LatestLocks at hbefore ⊢
    rw [latest_concat]
    cases e with
    | beforeLock t k loc =>
      obtain rfl := Option.some.inj he
      rw [allLocksHeld_beforeLock]
      exact hbefore
    | afterLock t k loc =>
      obtain rfl := Option.some.inj he
      rw [allLocksHeld_afterLock, Finset.mem_insert, hbefore]
      by_cases hk : m = k
      · simp [concerns, hk]
      · simp [concerns, hk]
    | afterUnlock t k loc =>
      rw [mem_allLocksHeld_afterUnlock he, hbefore]
      by_cases hk : m = k
      · simp [concerns, hk]
      · simp [concerns, hk]

/-- The keys of a record are the mutexes its thread has locked. -/
theorem hasLocked_iff (hnew : s.thread t = {}) (hrun : run s es = some s') :
    HasLocked locks t es ↔ ∃ m ∈ locks, m ∈ (s'.thread t).getLockset := by
  have hown := run_own hrun t
  rw [hnew] at hown
  refine exists_congr fun m => and_congr_right fun _ => ?_
  rw [mem_getLockset_runThread hown]
  have hempty : m ∉ Thread.getLockset {} := by simp [Thread.getLockset]
  simp only [hempty, false_or, eventsOf, List.mem_filterMap]
  constructor
  · rintro ⟨loc, hmem⟩
    exact ⟨(loc, m), ⟨_, hmem, by simp⟩, rfl⟩
  · rintro ⟨op, ⟨e, hmem, he⟩, rfl⟩
    cases e with
    | beforeLock u k loc => simp at he
    | afterLock u k loc =>
      obtain ⟨rfl, rfl⟩ : u = t ∧ (loc, k) = op := by simpa using he
      exact ⟨loc, hmem⟩
    | afterUnlock u k loc => simp at he

/-- What the held set lists is held. -/
def Listed (s : Tracer) : Prop := ∀ m ∈ s.allLocksHeld, ∃ u, 0 < s.held u m

theorem Listed.step (h : AllCounted s ∧ Listed s) (he : step s e = some s') :
    AllCounted s' ∧ Listed s' := by
  refine ⟨h.1.step he, fun m hm => ?_⟩
  cases e with
  | beforeLock t k loc =>
    obtain rfl := Option.some.inj he
    rw [allLocksHeld_beforeLock] at hm
    simpa using h.2 m hm
  | afterLock t k loc =>
    obtain rfl := Option.some.inj he
    rw [allLocksHeld_afterLock, Finset.mem_insert] at hm
    obtain rfl | hm := hm
    · have hnonneg : 0 ≤ s.held t m := (h.1 t).nonneg m
      exact ⟨t, by rw [held_afterLock, if_pos ⟨rfl, rfl⟩]; omega⟩
    · obtain ⟨u, hu⟩ := h.2 m hm
      exact ⟨u, by rw [held_afterLock]; split <;> omega⟩
  | afterUnlock t k loc =>
    obtain ⟨hne, hm⟩ := (mem_allLocksHeld_afterUnlock he).mp hm
    obtain ⟨u, hu⟩ := h.2 m hm
    exact ⟨u, by rw [held_afterUnlock he, if_neg fun hk => hne hk.2]; omega⟩

end History

/-! ## What the call decides -/

section Decisions
variable {deadlock : Deadlock} {s : Tracer} {t : Pthread} {lock : LockAddress}

/-- The decision in terms of membership. -/
theorem tryDeadlock_eq : deadlock.tryDeadlock s t lock =
    if lock ∈ deadlock.locks ∧ ∃ m ∈ deadlock.locks, m ∈ (s.thread t).getLockset then
      if ∀ m ∈ deadlock.locks, m ∈ s.allLocksHeld then .broadcasts else .waits
    else .returns := by
  have hintersect : deadlock.locks ∩ (s.thread t).getLockset = ∅ ↔
      ¬ ∃ m ∈ deadlock.locks, m ∈ (s.thread t).getLockset := by
    simp [Finset.eq_empty_iff_forall_notMem]
  have hremaining : deadlock.locks \ s.allLocksHeld = ∅ ↔
      ∀ m ∈ deadlock.locks, m ∈ s.allLocksHeld := Finset.sdiff_eq_empty_iff_subset
  unfold Deadlock.tryDeadlock
  simp only [hintersect, hremaining]
  by_cases hlock : lock ∈ deadlock.locks
  · by_cases hsome : ∃ m ∈ deadlock.locks, m ∈ (s.thread t).getLockset
    · rw [if_neg (not_not.mpr hlock), if_neg (not_not.mpr hsome),
        if_pos (And.intro hlock hsome)]
    · rw [if_neg (not_not.mpr hlock), if_pos hsome, if_neg fun h => hsome h.2]
  · rw [if_pos hlock, if_neg fun h => hlock h.1]

theorem tryDeadlock_waits : deadlock.tryDeadlock s t lock = .waits ↔ lock ∈ deadlock.locks ∧
    (∃ m ∈ deadlock.locks, m ∈ (s.thread t).getLockset) ∧
      ¬ ∀ m ∈ deadlock.locks, m ∈ s.allLocksHeld := by
  rw [tryDeadlock_eq]
  split_ifs with hasks hall
  · exact iff_of_false (by decide) fun h => h.2.2 hall
  · exact iff_of_true rfl ⟨hasks.1, hasks.2, hall⟩
  · exact iff_of_false (by decide) fun h => hasks ⟨h.1, h.2.1⟩

theorem tryDeadlock_broadcasts : deadlock.tryDeadlock s t lock = .broadcasts ↔
    lock ∈ deadlock.locks ∧ (∃ m ∈ deadlock.locks, m ∈ (s.thread t).getLockset) ∧
      ∀ m ∈ deadlock.locks, m ∈ s.allLocksHeld := by
  rw [tryDeadlock_eq]
  split_ifs with hasks hall
  · exact iff_of_true rfl ⟨hasks.1, hasks.2, hall⟩
  · exact iff_of_false (by decide) fun h => hall h.2.2
  · exact iff_of_false (by decide) fun h => hasks ⟨h.1, h.2.1⟩

/-- When the two sets the call reads stand for what they are meant to. -/
theorem provokes_iff_sets (hheld : HoldsOne deadlock.locks s t →
      ∃ m ∈ deadlock.locks, m ∈ (s.thread t).getLockset)
    (hlisted : (∀ m ∈ deadlock.locks, m ∈ s.allLocksHeld) → AllHeld deadlock.locks s) :
    Provokes deadlock s t lock ↔ lock ∉ deadlock.locks ∨
      (¬ ∃ m ∈ deadlock.locks, m ∈ (s.thread t).getLockset) ∨
      (HoldsOne deadlock.locks s t ∧
        (AllHeld deadlock.locks s → ∀ m ∈ deadlock.locks, m ∈ s.allLocksHeld)) := by
  have hnot : (∃ m ∈ deadlock.locks, ∀ u, ¬ 0 < s.held u m) ↔ ¬ AllHeld deadlock.locks s := by
    simp [AllHeld]
  constructor
  · intro h
    by_cases hasks : lock ∈ deadlock.locks ∧ ∃ m ∈ deadlock.locks, m ∈ (s.thread t).getLockset
    · have hwaits := h.waits
      have hbroadcasts := h.broadcasts
      rw [tryDeadlock_waits, hnot] at hwaits
      rw [tryDeadlock_broadcasts] at hbroadcasts
      by_cases hall : ∀ m ∈ deadlock.locks, m ∈ s.allLocksHeld
      · exact .inr (.inr ⟨(hbroadcasts.mp ⟨hasks.1, hasks.2, hall⟩).2.1, fun _ => hall⟩)
      · obtain ⟨-, hholds, hfree⟩ := hwaits.mp ⟨hasks.1, hasks.2, hall⟩
        exact .inr (.inr ⟨hholds, fun h => absurd h hfree⟩)
    · by_cases hlock : lock ∈ deadlock.locks
      · exact .inr (.inl fun hsome => hasks ⟨hlock, hsome⟩)
      · exact .inl hlock
  · intro h
    constructor
    · rw [tryDeadlock_waits, hnot]
      constructor
      · rintro ⟨hlock, hsome, hall⟩
        obtain hout | hout | ⟨hholds, hlatest⟩ := h
        · exact absurd hlock hout
        · exact absurd hsome hout
        · exact ⟨hlock, hholds, fun h => hall (hlatest h)⟩
      · rintro ⟨hlock, hholds, hfree⟩
        exact ⟨hlock, hheld hholds, fun h => hfree (hlisted h)⟩
    · rw [tryDeadlock_broadcasts]
      constructor
      · rintro ⟨hlock, hsome, hall⟩
        obtain hout | hout | ⟨hholds, -⟩ := h
        · exact absurd hlock hout
        · exact absurd hsome hout
        · exact ⟨hlock, hholds, hlisted hall⟩
      · rintro ⟨hlock, hholds, hheldAll⟩
        obtain hout | hout | ⟨-, hlatest⟩ := h
        · exact absurd hlock hout
        · exact absurd (hheld hholds) hout
        · exact ⟨hlock, hheld hholds, hlatest hheldAll⟩

end Decisions

/-- After every run on a loaded graph the call does what it is for exactly when the mutex
is not of the set, or the thread has locked none of the set so far, or the thread holds
one of them and, should all of them be held, each was locked last and not released since. -/
theorem provokes_execute_iff (ord : NodeOrder) (g : LockGraph) {es : List Event} {s : Tracer}
    (hrun : execute ord g es = some s) (deadlock : Deadlock) (t : Pthread) (lock : LockAddress) :
    Provokes deadlock s t lock ↔ lock ∉ deadlock.locks ∨ ¬ HasLocked deadlock.locks t es ∨
      (HoldsOne deadlock.locks s t ∧
        (AllHeld deadlock.locks s → ∀ m ∈ deadlock.locks, LatestLocks m es)) := by
  have hcounted := execute_allCounted hrun
  obtain ⟨s₀, hstart, hsteps⟩ := Option.bind_eq_some_iff.mp hrun
  obtain ⟨n, -, rfl⟩ := Option.map_eq_some_iff.mp hstart
  have hnone : ∀ m, m ∉ (∅ : LockSet) := Finset.notMem_empty
  have hlatest : ∀ m, m ∈ s.allLocksHeld ↔ LatestLocks m es := fun m =>
    mem_allLocksHeld_run hnone hsteps
  have hlocked : HasLocked deadlock.locks t es ↔
      ∃ m ∈ deadlock.locks, m ∈ (s.thread t).getLockset := hasLocked_iff rfl hsteps
  have hstarts : AllCounted { RAOG := g, component := n.component } ∧
      Listed { RAOG := g, component := n.component } :=
    ⟨fun _ => Thread.counted_new, fun m hm => absurd hm (hnone m)⟩
  have hlisted : Listed s := (run_invariant Listed.step hstarts hsteps).2
  rw [hlocked, provokes_iff_sets]
  · simp only [hlatest]
  · rintro ⟨m, hm, hheld⟩
    exact ⟨m, hm, (Finset.mem_filter.mp (Thread.mem_heldSet.mpr hheld)).1⟩
  · exact fun hall m hm => hlisted m (hall m hm)

/-- Threads 7 and 8 hold one mutex each of a set of two, and 7 asks for the other. -/
theorem provokes_execute_iff_crossing :
    ∃ s, execute .byAddress crossing [.afterLock 7 1 0, .afterLock 8 2 0] = some s ∧
      Provokes ⟨{1, 2}⟩ s 7 2 := by
  have hexec : (execute .byAddress crossing [.afterLock 7 1 0, .afterLock 8 2 0]).map
      (fun s => s.held 7 1) = some 1 := by decide
  obtain ⟨s, hs, hheld⟩ := Option.map_eq_some_iff.mp hexec
  have hlatest : ∀ m ∈ ({1, 2} : LockSet),
      LatestLocks m [.afterLock 7 1 0, .afterLock 8 2 0] := by
    intro m hm
    obtain rfl | rfl : m = 1 ∨ m = 2 := by simpa using hm
    · exact ⟨7, 0, rfl⟩
    · exact ⟨8, 0, rfl⟩
  exact ⟨s, hs, (provokes_execute_iff .byAddress crossing hs ⟨{1, 2}⟩ 7 2).mpr
    (.inr (.inr ⟨⟨1, by decide, by omega⟩, fun _ => hlatest⟩))⟩

/-- Thread 7 has locked and unlocked mutex 1. It holds nothing when it asks for mutex 2,
and waits. -/
theorem waits_after_release : ¬ ∀ (ord : NodeOrder) (g : LockGraph) (es : List Event) (s : Tracer)
    (deadlock : Deadlock) (t : Pthread) (lock : LockAddress),
    execute ord g es = some s → Provokes deadlock s t lock := by
  intro hall
  have hexec : (execute .byAddress crossing [.afterLock 7 1 0, .afterUnlock 7 1 0]).map
      (fun s => (Deadlock.tryDeadlock ⟨{1, 2}⟩ s 7 2, s.held 7 1, s.held 7 2)) =
        some (.waits, 0, 0) := by decide
  obtain ⟨s, hs, hobs⟩ := Option.map_eq_some_iff.mp hexec
  obtain ⟨hwaits, hobs⟩ := Prod.mk.inj hobs
  obtain ⟨hone, htwo⟩ := Prod.mk.inj hobs
  obtain ⟨-, ⟨m, hm, hheld⟩, -⟩ := (hall _ _ _ s ⟨{1, 2}⟩ 7 2 hs).waits.mp hwaits
  obtain rfl | rfl : m = 1 ∨ m = 2 := by simpa using hm
  · omega
  · omega

end Lockout.LockTracer.Waiting
