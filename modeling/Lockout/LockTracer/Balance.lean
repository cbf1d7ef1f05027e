import Lockout.LockTracer.LastLock

/-! # What the events say of a thread's record

`locks[m]` is raised by every acquisition of `m` and lowered by every release, and
`diffLocksHeldNum` follows it at the steps from 0 to 1 and from 1 to 0 only. The keys
of the map are never removed: they are the mutexes the thread has locked so far. -/

namespace Lockout.LockTracer.Balance
open Std
open Lockout.LockTracer.Graph Lockout.LockTracer.Threads Lockout.LockTracer.LastLock

/-- The number of acquisitions of `m`. -/
def acquisitions (m : LockAddress) (es : List LockEvent) : Nat :=
  es.countP fun
    | .lock op => m = op.2
    | .unlock _ => false

/-- The number of releases of `m`. -/
def releases (m : LockAddress) (es : List LockEvent) : Nat :=
  es.countP fun
    | .lock _ => false
    | .unlock op => m = op.2

section Counting
variable {th th' : Thread} {op : LockOperation} {m : LockAddress} {es : List LockEvent}

@[simp] theorem acquisitions_nil : acquisitions m [] = 0 := rfl

@[simp] theorem releases_nil : releases m [] = 0 := rfl

@[simp] theorem acquisitions_lock :
    acquisitions m (.lock op :: es) = acquisitions m es + if m = op.2 then 1 else 0 := by
  simp [acquisitions, List.countP_cons]

@[simp] theorem acquisitions_unlock :
    acquisitions m (.unlock op :: es) = acquisitions m es := by
  simp [acquisitions]

@[simp] theorem releases_lock : releases m (.lock op :: es) = releases m es := by
  simp [releases]

@[simp] theorem releases_unlock :
    releases m (.unlock op :: es) = releases m es + if m = op.2 then 1 else 0 := by
  simp [releases, List.countP_cons]

/-- A run raises a count by the acquisitions and lowers it by the releases. -/
theorem held_runThread (hrun : runThread th es = some th') :
    th'.held m = th.held m + acquisitions m es - releases m es := by
  induction es generalizing th with
  | nil =>
    obtain rfl := Option.some.inj hrun
    simp
  | cons e es ih =>
    obtain ⟨mid, hmid, hrest⟩ := Option.bind_eq_some_iff.mp hrun
    rw [ih hrest]
    cases e with
    | lock op =>
      obtain rfl := Option.some.inj hmid
      rw [Thread.held_lock, acquisitions_lock, releases_lock]
      split <;> push_cast <;> omega
    | unlock op =>
      rw [Thread.held_unlock hmid, acquisitions_unlock, releases_unlock]
      split <;> push_cast <;> omega

/-- The keys of the map after one event: a release adds none, since its assertion has
found the mutex there. -/
theorem mem_getLockset_after {e : LockEvent} (he : after th e = some th') :
    m ∈ th'.getLockset ↔ m ∈ th.getLockset ∨ ∃ op, e = .lock op ∧ op.2 = m := by
  cases e with
  | lock op =>
    obtain rfl := Option.some.inj he
    simp [Thread.getLockset, Thread.lock, TreeMap.mem_keys, or_comm]
  | unlock op =>
    obtain ⟨hpos, rfl⟩ := Thread.unlock_eq_some.mp he
    have hkey := (Finset.mem_filter.mp (Thread.mem_heldSet.mpr hpos)).1
    have hmem : op.2 ∈ th.locks := by simpa [Thread.getLockset] using hkey
    simp only [Thread.getLockset, List.mem_toFinset, TreeMap.mem_keys, TreeMap.mem_insert,
      Std.compare_eq_iff_eq, reduceCtorEq, false_and, exists_false, or_false, or_iff_right_iff_imp]
    rintro rfl
    exact hmem

/-- The keys of the map are the mutexes that were ever locked. -/
theorem mem_getLockset_runThread (hrun : runThread th es = some th') :
    m ∈ th'.getLockset ↔ m ∈ th.getLockset ∨ ∃ op, .lock op ∈ es ∧ op.2 = m := by
  induction es generalizing th with
  | nil =>
    obtain rfl := Option.some.inj hrun
    simp
  | cons e es ih =>
    obtain ⟨mid, hmid, hrest⟩ := Option.bind_eq_some_iff.mp hrun
    rw [ih hrest, mem_getLockset_after hmid, or_assoc]
    simp only [List.mem_cons, eq_comm (a := e), or_and_right, exists_or]

end Counting

/-- After every run of a thread's events whose assertions pass, each count is the
acquisitions less the releases, none is negative, and `diffLocksHeldNum` is the number
of mutexes with a positive count. -/
theorem balanced_run {es : List LockEvent} {th : Thread} (hrun : runThread {} es = some th) :
    (∀ m, th.held m = acquisitions m es - releases m es ∧ 0 ≤ th.held m) ∧
      (∀ m, m ∈ th.heldSet ↔ 0 < th.held m) ∧ th.diffLocksHeldNum = th.heldSet.card := by
  have hcounted := (recorded_run recorded_new hrun).counted
  refine ⟨fun m => ⟨?_, hcounted.nonneg m⟩, fun m => Thread.mem_heldSet, hcounted.diff⟩
  have hempty : Thread.held {} m = 0 := by simp [Thread.held]
  rw [held_runThread hrun, hempty, Int.zero_add]

/-- Mutex 1 is locked twice and released once, mutex 2 is released before it. -/
theorem balanced_run_recursive :
    ∃ th, runThread {} [.lock (1, 1), .lock (2, 1), .lock (3, 2), .unlock (4, 2),
      .unlock (5, 1)] = some th ∧ th.held 1 = 1 ∧ th.diffLocksHeldNum = th.heldSet.card := by
  obtain ⟨th, hrun⟩ : ∃ th, runThread {} [.lock (1, 1), .lock (2, 1), .lock (3, 2),
    .unlock (4, 2), .unlock (5, 1)] = some th := ⟨_, rfl⟩
  obtain ⟨hcounts, -, hdiff⟩ := balanced_run hrun
  exact ⟨th, hrun, (hcounts 1).1, hdiff⟩

end Lockout.LockTracer.Balance
