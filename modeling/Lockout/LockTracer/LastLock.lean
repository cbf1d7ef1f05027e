import Lockout.LockTracer.Events

/-! # The last lock of a thread

`checkSCC` compares with `lockHistory.back()`, the mutex of the latest acquisition. The
history is never cut when a mutex is released, so that this need not be the latest of
the mutexes that are still held. A thread's record depends only on its own events
(`run_own`). -/

namespace Lockout.LockTracer.LastLock
open Std
open Lockout.LockTracer.Graph Lockout.LockTracer.Threads Lockout.LockTracer.Events

inductive LockEvent
  | lock (op : LockOperation)
  | unlock (op : LockOperation)

/-- The record after one event; an assertion ends the run. -/
def after (th : Thread) : LockEvent → Option Thread
  | .lock op => some (th.lock op)
  | .unlock op => th.unlock op

def runThread (th : Thread) (es : List LockEvent) : Option Thread := es.foldlM after th

/-- `lockHistory.back().second`. -/
def lastLocked (th : Thread) : Option LockAddress := th.lockHistory.getLast?.map Prod.snd

/-- The mutex of the latest acquisition among those that are still held. -/
def lastHeld (th : Thread) : Option LockAddress :=
  (th.lockHistory.filter fun op => 0 < th.held op.2).getLast?.map Prod.snd

/-- Where something is held, `checkSCC` compares with the mutex acquired last of those. -/
def ComparesHeld (th : Thread) : Prop :=
  th.diffLocksHeldNum ≠ 0 → ∃ m, lastLocked th = some m ∧ lastHeld th = some m

/-- A release of `m` gives up the mutex acquired last, and another one stays held. -/
def LosesLast (th : Thread) (m : LockAddress) : Prop :=
  lastLocked th = some m ∧ th.held m = 1 ∧ ∃ m', m' ≠ m ∧ 0 < th.held m'

/-- The counts are right and every held mutex is in the history. -/
structure Recorded (th : Thread) : Prop where
  counted : th.Counted
  history : ∀ m, 0 < th.held m → ∃ op ∈ th.lockHistory, op.2 = m

section Steps
variable {th th' : Thread} {op : LockOperation} {m : LockAddress} {e : LockEvent}

theorem recorded_new : Recorded {} where
  counted := Thread.counted_new
  history m hm := by simp [Thread.held] at hm

theorem Recorded.lock (h : Recorded th) : Recorded (th.lock op) where
  counted := h.counted.lock
  history m hm := by
    rw [Thread.held_lock] at hm
    have hhistory : (th.lock op).lockHistory = th.lockHistory ++ [op] := rfl
    rw [hhistory]
    by_cases hop : m = op.2
    · exact ⟨op, by simp, hop.symm⟩
    · obtain ⟨op', hop', rfl⟩ := h.history m (by simpa [hop] using hm)
      exact ⟨op', List.mem_append_left _ hop', rfl⟩

theorem lockHistory_unlock (h : th.unlock op = some th') : th'.lockHistory = th.lockHistory := by
  obtain ⟨-, rfl⟩ := Thread.unlock_eq_some.mp h
  rfl

theorem Recorded.unlock (h : Recorded th) (hu : th.unlock op = some th') : Recorded th' where
  counted := h.counted.unlock hu
  history m hm := by
    rw [Thread.held_unlock hu] at hm
    rw [lockHistory_unlock hu]
    refine h.history m ?_
    split at hm <;> omega

theorem Recorded.after (h : Recorded th) (he : after th e = some th') : Recorded th' := by
  cases e with
  | lock op => exact Option.some.inj he ▸ h.lock
  | unlock op => exact h.unlock he

theorem Recorded.diff_ne_zero (h : Recorded th) :
    th.diffLocksHeldNum ≠ 0 ↔ ∃ m, 0 < th.held m := by
  constructor
  · intro hne
    rw [h.counted.diff] at hne
    obtain ⟨m, hm⟩ := Finset.card_pos.mp (by omega : 0 < th.heldSet.card)
    exact ⟨m, Thread.mem_heldSet.mp hm⟩
  · rintro ⟨m, hm⟩
    exact h.counted.diff_ne_zero hm

/-- The last entry of the history is also the last held one just if it is held. -/
theorem lastHeld_eq_iff (h : lastLocked th = some m) : lastHeld th = some m ↔ 0 < th.held m := by
  obtain ⟨op, hop, rfl⟩ := Option.map_eq_some_iff.mp h
  obtain ⟨earlier, hhistory⟩ := List.getLast?_eq_some_iff.mp hop
  unfold lastHeld
  rw [hhistory, List.filter_append]
  by_cases hheld : 0 < th.held op.2
  · simp [hheld]
  · simp only [hheld, iff_false]
    intro hlast
    obtain ⟨op', hop', heq⟩ := Option.map_eq_some_iff.mp hlast
    have hmem := List.mem_of_getLast? hop'
    rw [← List.filter_append, List.mem_filter] at hmem
    rw [heq] at hmem
    exact hheld (by simpa using hmem.2)

theorem comparesHeld_iff (h : Recorded th) : ComparesHeld th ↔
    ∀ m', 0 < th.held m' → ∃ m, lastLocked th = some m ∧ 0 < th.held m := by
  unfold ComparesHeld
  rw [h.diff_ne_zero]
  constructor
  · intro hcompares m' hm'
    obtain ⟨m, hlast, hheld⟩ := hcompares ⟨m', hm'⟩
    exact ⟨m, hlast, (lastHeld_eq_iff hlast).mp hheld⟩
  · rintro hheld ⟨m', hm'⟩
    obtain ⟨m, hlast, hm⟩ := hheld m' hm'
    exact ⟨m, hlast, (lastHeld_eq_iff hlast).mpr hm⟩

/-- An acquisition makes the last entry of the history a held one. -/
theorem comparesHeld_lock (h : Recorded th) : ComparesHeld (th.lock op) := by
  refine (comparesHeld_iff h.lock).mpr fun m' _ => ⟨op.2, ?_, ?_⟩
  · simp [lastLocked, Thread.lock]
  · have hnonneg := h.counted.nonneg op.2
    rw [Thread.held_lock, if_pos rfl]
    omega

theorem comparesHeld_unlock (h : Recorded th) (hcompares : ComparesHeld th)
    (hu : th.unlock op = some th') : ComparesHeld th' ↔ ¬ LosesLast th op.2 := by
  have hheld : ∀ m, th'.held m = th.held m - if m = op.2 then 1 else 0 := fun m =>
    Thread.held_unlock hu
  have hlast : lastLocked th' = lastLocked th := by rw [lastLocked, lockHistory_unlock hu, lastLocked]
  rw [comparesHeld_iff h] at hcompares
  rw [comparesHeld_iff (h.unlock hu), hlast]
  constructor
  · rintro hheld' ⟨hback, hone, m', hne, hm'⟩
    obtain ⟨m, hm, hpos⟩ := hheld' m' (by rw [hheld, if_neg hne]; omega)
    obtain rfl := Option.some.inj (hback.symm.trans hm)
    rw [hheld, if_pos rfl] at hpos
    omega
  · intro hkeeps m' hm'
    have hpos : 0 < th.held m' := by
      rw [hheld] at hm'
      split at hm' <;> omega
    obtain ⟨m, hm, hmpos⟩ := hcompares m' hpos
    refine ⟨m, hm, ?_⟩
    by_cases hop : m = op.2
    · -- a second hold on it is left, or nothing else was held
      subst hop
      by_contra hlost
      rw [hheld, if_pos rfl] at hlost
      refine hkeeps ⟨hm, by omega, m', ?_, hpos⟩
      rintro rfl
      rw [hheld, if_pos rfl] at hm'
      omega
    · rw [hheld, if_neg hop]
      omega

end Steps

/-! ## Runs of one thread -/

theorem runThread_append (th : Thread) (es : List LockEvent) (e : LockEvent) :
    runThread th (es ++ [e]) = (runThread th es).bind fun th => after th e := by
  simp [runThread, List.foldlM_append]

theorem recorded_run {th th' : Thread} {es : List LockEvent} (h : Recorded th)
    (hrun : runThread th es = some th') : Recorded th' := by
  induction es generalizing th with
  | nil => exact Option.some.inj hrun ▸ h
  | cons e es ih =>
    obtain ⟨mid, hmid, hrest⟩ := Option.bind_eq_some_iff.mp hrun
    exact ih (h.after hmid) hrest

/-- In the states a thread goes through, `checkSCC` compares with the latest mutex that
is still held, just where no release gives up the last mutex before another one. -/
theorem comparesHeld_run_iff (es : List LockEvent) :
    (∀ es', es' <+: es → ∀ th, runThread {} es' = some th → ComparesHeld th) ↔
      ∀ es' op, es' ++ [.unlock op] <+: es → ∀ th, runThread {} es' = some th →
        ¬ LosesLast th op.2 := by
  constructor
  · intro hcompares es' op hstarts th hrun hloses
    have hmid := hcompares es' ((List.prefix_append _ _).trans hstarts) th hrun
    obtain ⟨th', hu⟩ : ∃ th', th.unlock op = some th' :=
      ⟨_, Thread.unlock_eq_some.mpr ⟨by rw [hloses.2.1]; exact Int.one_pos, rfl⟩⟩
    have hnext := hcompares _ hstarts th' (by rw [runThread_append, hrun]; exact hu)
    exact (comparesHeld_unlock (recorded_run recorded_new hrun) hmid hu).mp hnext hloses
  · intro hkeeps es'
    induction es' using List.reverseRecOn with
    | nil =>
      intro _ th hrun hne
      obtain rfl := Option.some.inj hrun
      exact absurd rfl hne
    | append_singleton es' e ih =>
      intro hstarts th hrun
      rw [runThread_append] at hrun
      obtain ⟨mid, hmid, he⟩ := Option.bind_eq_some_iff.mp hrun
      have hrecorded := recorded_run recorded_new hmid
      cases e with
      | lock op => exact Option.some.inj he ▸ comparesHeld_lock hrecorded
      | unlock op =>
        have hbefore := ih ((List.prefix_append _ _).trans hstarts) mid hmid
        exact (comparesHeld_unlock hrecorded hbefore he).mpr (hkeeps es' op hstarts mid hmid)

/-- Two mutexes, the inner one released first. -/
def nested : List LockEvent := [.lock (1, 1), .lock (2, 2), .unlock (3, 2)]

theorem nested_compares_released : ¬ ∀ (es : List LockEvent) (th : Thread),
    runThread {} es = some th → ComparesHeld th := by
  intro hall
  obtain ⟨m, hlast, hheld⟩ := hall nested _ rfl (by decide)
  have htwo : m = 2 := by simpa [lastLocked, Thread.lock] using hlast.symm
  have hpos := (lastHeld_eq_iff hlast).mp hheld
  subst htwo
  simp [Thread.held, Thread.lock, TreeMap.getD_insert] at hpos

/-! ## Threads of the tracer -/

/-- The lock and unlock events of the thread `t`. -/
def eventsOf (t : Pthread) : List Event → List LockEvent :=
  List.filterMap fun
    | .beforeLock .. => none
    | .afterLock u m loc => if u = t then some (.lock (loc, m)) else none
    | .afterUnlock u m loc => if u = t then some (.unlock (loc, m)) else none

/-- The record of a thread is what its own events make of it. -/
theorem run_own {s s' : Tracer} {es : List Event} (h : run s es = some s') (t : Pthread) :
    runThread (s.thread t) (eventsOf t es) = some (s'.thread t) := by
  induction es generalizing s with
  | nil =>
    obtain rfl := Option.some.inj h
    rfl
  | cons e es ih =>
    obtain ⟨mid, hmid, hrest⟩ := Option.bind_eq_some_iff.mp h
    have hrest := ih hrest
    cases e with
    | beforeLock u m loc =>
      obtain rfl := Option.some.inj hmid
      rwa [thread_beforeLock] at hrest
    | afterLock u m loc =>
      obtain rfl := Option.some.inj hmid
      rw [thread_afterLock] at hrest
      by_cases hu : u = t
      · subst hu
        rw [if_pos rfl] at hrest
        simpa [eventsOf, runThread, after] using hrest
      · rw [if_neg (Ne.symm hu)] at hrest
        simpa [eventsOf, hu] using hrest
    | afterUnlock u m loc =>
      obtain ⟨th, hth, hthread⟩ := thread_afterUnlock hmid
      rw [hthread] at hrest
      by_cases hu : u = t
      · subst hu
        rw [if_pos rfl] at hrest
        simpa [eventsOf, runThread, after, hth] using hrest
      · rw [if_neg (Ne.symm hu)] at hrest
        simpa [eventsOf, hu] using hrest

end Lockout.LockTracer.LastLock
