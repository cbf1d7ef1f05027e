import Lockout.LockTracer.Events

/-! # Recursive mutexes in the shared state

A thread may lock a mutex it owns once more, and its record counts how often
(`locks[m]++`). `allLocksHeld` and `lockThreadMap` do not count: `Thread::unlock`
erases the mutex from both at every release. `Depths` is what the mutexes
themselves know, and `Legal` what they allow. -/

namespace Lockout.LockTracer.Holding
open Std
open Lockout.LockTracer.Graph Lockout.LockTracer.Threads Lockout.LockTracer.Components
open Lockout.LockTracer.Events

/-- How often a thread has locked a mutex and not unlocked it. -/
abbrev Depths := Pthread → LockAddress → Nat

namespace Depths

def acquire (d : Depths) (t : Pthread) (m : LockAddress) : Depths :=
  fun u k => d u k + if u = t ∧ k = m then 1 else 0

def release (d : Depths) (t : Pthread) (m : LockAddress) : Depths :=
  fun u k => d u k - if u = t ∧ k = m then 1 else 0

def after (d : Depths) : Event → Depths
  | .beforeLock .. => d
  | .afterLock t m _ => d.acquire t m
  | .afterUnlock t m _ => d.release t m

/-- A mutex has one owner. -/
def Exclusive (d : Depths) : Prop := ∀ t u m, 0 < d t m → 0 < d u m → t = u

end Depths

/-- A lock waits until no other thread has the mutex; an unlock is by a thread that has it. -/
def Legal (d : Depths) : Event → Prop
  | .beforeLock .. => True
  | .afterLock t m _ => ∀ u, u ≠ t → d u m = 0
  | .afterUnlock t m _ => 0 < d t m

/-- An unlock gives the mutex away: the thread has locked it once only. -/
def Outermost (d : Depths) : Event → Prop
  | .afterUnlock t m _ => d t m = 1
  | _ => True

/-- Every event of a run has the property at the depths it starts from. -/
def EachEvent (P : Depths → Event → Prop) : Depths → List Event → Prop
  | _, [] => True
  | d, e :: es => P d e ∧ EachEvent P (d.after e) es

/-- No assertion of the run fails and all its states have the property. -/
def EachState (I : Tracer → Prop) : Tracer → List Event → Prop
  | s, [] => I s
  | s, e :: es => I s ∧ ∃ s', step s e = some s' ∧ EachState I s' es

/-- What a record counts as held is in the held set, and the map names the thread. -/
def Agrees (s : Tracer) : Prop :=
  ∀ t m, 0 < s.held t m → m ∈ s.allLocksHeld ∧ s.lockThreadMap[m]? = some t

/-- The records count what the mutexes know. -/
structure Tracks (s : Tracer) (d : Depths) : Prop where
  counts : ∀ t m, s.held t m = d t m
  exclusive : d.Exclusive

section Steps
variable {s s' : Tracer} {d : Depths} {e : Event} {t u : Pthread} {m k : LockAddress} {loc : Location}

@[simp] theorem acquire_apply :
    d.acquire t m u k = d u k + if u = t ∧ k = m then 1 else 0 := rfl

@[simp] theorem release_apply :
    d.release t m u k = d u k - if u = t ∧ k = m then 1 else 0 := rfl

theorem Depths.Exclusive.acquire (h : d.Exclusive) (hfree : ∀ u, u ≠ t → d u m = 0) :
    (d.acquire t m).Exclusive := by
  intro u v k hu hv
  by_cases hk : k = m
  · subst hk
    have honly : ∀ w, 0 < d.acquire t k w k → w = t := by
      intro w hw
      by_contra hne
      simp [hne, hfree w hne] at hw
    rw [honly u hu, honly v hv]
  · simp only [acquire_apply, hk, and_false, if_false, Nat.add_zero] at hu hv
    exact h u v k hu hv

theorem Depths.Exclusive.release (h : d.Exclusive) : (d.release t m).Exclusive :=
  fun u v k hu hv => h u v k (Nat.lt_of_lt_of_le hu (Nat.sub_le _ _))
    (Nat.lt_of_lt_of_le hv (Nat.sub_le _ _))

theorem Tracks.start {ord : NodeOrder} {g : LockGraph} (h : start ord g = some s) :
    Tracks s fun _ _ => 0 where
  counts := by
    obtain ⟨n, -, rfl⟩ := Option.map_eq_some_iff.mp h
    intro t m
    simp [Tracer.held, Tracer.thread, Thread.held]
  exclusive := fun t u m ht => absurd ht (Nat.lt_irrefl 0)

theorem agrees_start {ord : NodeOrder} {g : LockGraph} (h : start ord g = some s) : Agrees s := by
  intro t m hheld
  rw [(Tracks.start h).counts] at hheld
  exact absurd hheld (Int.lt_irrefl 0)

/-- A legal event passes its assertion and the records go on counting. -/
theorem Tracks.step (h : Tracks s d) (hlegal : Legal d e) :
    ∃ s', step s e = some s' ∧ Tracks s' (d.after e) := by
  cases e with
  | beforeLock t m loc =>
    refine ⟨_, rfl, ⟨fun u k => ?_, h.exclusive⟩⟩
    rw [held_beforeLock]
    exact h.counts u k
  | afterLock t m loc =>
    refine ⟨_, rfl, ⟨fun u k => ?_, h.exclusive.acquire hlegal⟩⟩
    rw [held_afterLock, h.counts]
    simp only [Depths.after, acquire_apply]
    split <;> rfl
  | afterUnlock t m loc =>
    have hpos : 0 < d t m := hlegal
    have hheld : 0 < s.held t m := by
      rw [h.counts]
      exact_mod_cast hpos
    obtain ⟨s', hs'⟩ : ∃ s', afterUnlock s t m loc = some s' := afterUnlock_isSome.mpr hheld
    refine ⟨s', hs', ⟨fun u k => ?_, h.exclusive.release⟩⟩
    rw [held_afterUnlock hs', h.counts]
    by_cases hk : u = t ∧ k = m
    · obtain ⟨rfl, rfl⟩ := hk
      simp [Depths.after]
      omega
    · simp [Depths.after, hk]

theorem Agrees.beforeLock (h : Agrees s) : Agrees (beforeLock s t m loc).2 := by
  intro u k hheld
  rw [held_beforeLock] at hheld
  rw [allLocksHeld_beforeLock, lockThreadMap_beforeLock]
  exact h u k hheld

/-- A mutex that is locked has just been entered in both maps. -/
theorem Agrees.afterLock (h : Agrees s) (htracks : Tracks s d) (hfree : ∀ u, u ≠ t → d u m = 0) :
    Agrees (afterLock s t m loc) := by
  intro u k hheld
  rw [allLocksHeld_afterLock, lockThreadMap_afterLock]
  by_cases hk : k = m
  · subst hk
    have hu : u = t := by
      by_contra hne
      rw [held_afterLock, htracks.counts, hfree u hne] at hheld
      simp [hne] at hheld
    simp [hu]
  · rw [held_afterLock] at hheld
    simp only [hk, and_false, if_false, Int.add_zero] at hheld
    have hold := h u k hheld
    simp [hk, hold]

/-- An unlock leaves the three views in agreement exactly if it was the outermost one. -/
theorem agrees_afterUnlock_iff (h : Agrees s) (htracks : Tracks s d) (hpos : 0 < d t m)
    (hs' : afterUnlock s t m loc = some s') : Agrees s' ↔ d t m = 1 := by
  have hheld : ∀ u k, s'.held u k = d u k - if u = t ∧ k = m then 1 else 0 := by
    intro u k
    rw [held_afterUnlock hs', htracks.counts]
  constructor
  · intro hagree
    by_contra hne
    have hstill : 0 < s'.held t m := by
      rw [hheld]
      simp
      omega
    exact ((mem_allLocksHeld_afterUnlock hs').mp (hagree t m hstill).1).1 rfl
  · intro hone u k huk
    have hold : 0 < s.held u k := by
      rw [hheld] at huk
      rw [htracks.counts]
      split at huk <;> omega
    have hk : k ≠ m := by
      rintro rfl
      -- nobody but `t` had the mutex, and `t` has it no longer
      have hut : u = t := htracks.exclusive u t k (by rw [htracks.counts] at hold; omega) hpos
      subst hut
      rw [hheld, hone] at huk
      simp at huk
    rw [mem_allLocksHeld_afterUnlock hs', lockThreadMap_afterUnlock hs', if_neg hk]
    exact ⟨⟨hk, (h u k hold).1⟩, (h u k hold).2⟩

theorem agrees_step_iff (h : Agrees s) (htracks : Tracks s d) (hlegal : Legal d e)
    (hs' : step s e = some s') : Agrees s' ↔ Outermost d e := by
  cases e with
  | beforeLock t m loc =>
    obtain rfl := Option.some.inj hs'
    exact iff_of_true h.beforeLock trivial
  | afterLock t m loc =>
    obtain rfl := Option.some.inj hs'
    exact iff_of_true (h.afterLock htracks hlegal) trivial
  | afterUnlock t m loc => exact agrees_afterUnlock_iff h htracks hlegal hs'

end Steps

theorem EachState.head {I : Tracer → Prop} {s : Tracer} {es : List Event}
    (h : EachState I s es) : I s := by
  cases es with
  | nil => exact h
  | cons e es => exact h.1

theorem eachState_agrees_iff {s : Tracer} {d : Depths} {es : List Event} (h : Agrees s)
    (htracks : Tracks s d) (hlegal : EachEvent Legal d es) :
    EachState Agrees s es ↔ EachEvent Outermost d es := by
  induction es generalizing s d with
  | nil => exact iff_of_true h trivial
  | cons e es ih =>
    obtain ⟨hlegal, hrest⟩ := hlegal
    obtain ⟨s', hs', htracks'⟩ := htracks.step hlegal
    have hone := agrees_step_iff h htracks hlegal hs'
    constructor
    · rintro ⟨-, s₁, hs₁, hall⟩
      obtain rfl : s' = s₁ := Option.some.inj (hs'.symm.trans hs₁)
      exact ⟨hone.mp hall.head, (ih hall.head htracks' hrest).mp hall⟩
    · rintro ⟨hout, hall⟩
      exact ⟨h, s', hs', (ih (hone.mpr hout) htracks' hrest).mpr hall⟩

/-- In a run under mutual exclusion no assertion fails, and the record of a thread, the
held set and the owner map agree in all states exactly if no thread unlocks a mutex
that it has locked more than once. -/
theorem agrees_iff (ord : NodeOrder) (g : LockGraph) {s : Tracer} {es : List Event}
    (hstart : start ord g = some s) (hlegal : EachEvent Legal (fun _ _ => 0) es) :
    EachState Agrees s es ↔ EachEvent Outermost (fun _ _ => 0) es :=
  eachState_agrees_iff (agrees_start hstart) (Tracks.start hstart) hlegal

/-- Two threads take turns at mutex 1, thread 7 inside mutex 2. -/
theorem agrees_iff_turns : ∃ s, start .byAddress { name := "g" } = some s ∧
    EachState Agrees s [.afterLock 7 2 0, .afterLock 7 1 0, .afterUnlock 7 1 0, .afterLock 8 1 0] := by
  refine ⟨_, rfl, (agrees_iff .byAddress { name := "g" } rfl ?_).mpr ?_⟩
  · simp [EachEvent, Legal, Depths.after]
  · simp [EachEvent, Outermost, Depths.after]

/-- Thread 7 locks mutex 1 twice and unlocks it once: it still counts the mutex, which is
no longer in the held set. -/
theorem recursive_release_disagrees :
    ¬ ∀ (ord : NodeOrder) (g : LockGraph) (s : Tracer) (es : List Event),
      start ord g = some s → EachEvent Legal (fun _ _ => 0) es → EachState Agrees s es := by
  intro hall
  obtain ⟨s, hs⟩ : ∃ s, start .byAddress { name := "g" } = some s := ⟨_, rfl⟩
  have hlegal : EachEvent Legal (fun _ _ => 0)
      [.afterLock 7 1 0, .afterLock 7 1 0, .afterUnlock 7 1 0] := by
    simp [EachEvent, Legal, Depths.after]
  have hagree := hall .byAddress _ s _ hs hlegal
  have hout := (eachState_agrees_iff (agrees_start hs) (Tracks.start hs) hlegal).mp hagree
  simp [EachEvent, Outermost, Depths.after] at hout

end Lockout.LockTracer.Holding
