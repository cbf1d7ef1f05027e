import Mathlib.Data.Finset.Card
import Mathlib.Tactic.Tauto
import Lockout.Lib.Transition
import Lockout.LockTracer.Events

/-! # The instrumented program

Threads that only lock and unlock non-recursive mutexes, once as they are
(`NativeStep`) and once with a hook before and after every operation
(`TracedStep`). The hooks serialise on `tracerBigLock`: `beforeLock` gives it back
before the real lock, and in the middle where `checkSCC` delays; an unlock keeps it
from `beforeUnlock` to `afterUnlock`. Every hook step runs the tracer of `Events`. -/

namespace Lockout.LockTracer.Hooks
open Std
open Lockout.Lib.Transition
open Lockout.LockTracer.Graph Lockout.LockTracer.Threads Lockout.LockTracer.Components
open Lockout.LockTracer.Events

/-! ## The program without hooks -/

inductive MutexOp where
  | lock (m : LockAddress) (loc : Location)
  | unlock (m : LockAddress) (loc : Location)
  deriving DecidableEq

/-- The operations of every thread in program order; `none` where a thread has ended. -/
abbrev Program := Pthread → Nat → Option MutexOp

structure Native where
  owner : LockAddress → Option Pthread := fun _ => none
  /-- The number of operations the thread has performed. -/
  pc : Pthread → Nat := fun _ => 0

/-- The state after thread `t` has performed its next operation and made `m` belong
to `owner`. -/
def Native.perform (n : Native) (t : Pthread) (m : LockAddress) (owner : Option Pthread) : Native where
  owner := Function.update n.owner m owner
  pc := Function.update n.pc t (n.pc t + 1)

/-- One operation. A lock waits until the mutex is free; an unlock by a thread that
is not the owner has no defined behaviour and no step. -/
inductive NativeStep (prog : Program) : Native → Pthread × MutexOp → Native → Prop
  | lock {n t m loc} : prog t (n.pc t) = some (.lock m loc) → n.owner m = none →
      NativeStep prog n (t, .lock m loc) (n.perform t m (some t))
  | unlock {n t m loc} : prog t (n.pc t) = some (.unlock m loc) → n.owner m = some t →
      NativeStep prog n (t, .unlock m loc) (n.perform t m none)

/-- The mutexes a thread has locked and not unlocked in its first `n` operations. -/
def holdings (prog : Program) (t : Pthread) : Nat → LockSet
  | 0 => ∅
  | n + 1 => match prog t n with
    | some (.lock m _) => insert m (holdings prog t n)
    | some (.unlock m _) => (holdings prog t n).erase m
    | none => holdings prog t n

/-- Every unlock is by a thread that has locked the mutex. -/
def OwnerUnlocks (prog : Program) : Prop :=
  ∀ t n m loc, prog t n = some (.unlock m loc) → m ∈ holdings prog t n

/-! ## The program with hooks -/

/-- Where a thread stands in the hooks around its next or its last operation. -/
inductive Point where
  | idle
  /-- In `beforeLock`, with `tracerBigLock`, before `checkSCC`. -/
  | checking (m : LockAddress) (loc : Location)
  /-- In the delay branch, before `tracerBigLock` is given back. -/
  | delaying (m : LockAddress) (loc : Location)
  /-- In `usleep`, or waiting for `tracerBigLock` after it. -/
  | sleeping (m : LockAddress) (loc : Location)
  /-- At the end of `beforeLock`, with `tracerBigLock`. -/
  | leaving (m : LockAddress) (loc : Location)
  /-- At the real lock. -/
  | locking (m : LockAddress) (loc : Location)
  /-- After the real lock, before `afterLock` has `tracerBigLock`. -/
  | locked (m : LockAddress) (loc : Location)
  /-- In `afterLock`, with `tracerBigLock`. -/
  | recording (m : LockAddress) (loc : Location)
  /-- After `Thread::lock` or `Thread::unlock`, with `tracerBigLock`. -/
  | recorded
  /-- At the real unlock, with `tracerBigLock`. -/
  | unlocking (m : LockAddress) (loc : Location)
  /-- In `afterUnlock`, with `tracerBigLock`. -/
  | unlocked (m : LockAddress) (loc : Location)

/-- The points at which a thread has `tracerBigLock`. -/
def Point.holdsBig : Point → Bool
  | .checking .. | .delaying .. | .leaving .. | .recording .. | .recorded => true
  | .unlocking .. | .unlocked .. => true
  | .idle | .sleeping .. | .locking .. | .locked .. => false

structure Traced where
  native : Native
  point : Pthread → Point
  tracerBigLock : Option Pthread
  tracer : Tracer

inductive Label where
  /-- A step inside a hook that records nothing. -/
  | hook (t : Pthread)
  | recordLock (t : Pthread) (m : LockAddress)
  | recordUnlock (t : Pthread) (m : LockAddress)
  /-- A real operation. -/
  | op (t : Pthread) (op : MutexOp)

/-- The operation a label stands for in the program without hooks. -/
def erase : Label → Option (Pthread × MutexOp)
  | .op t op => some (t, op)
  | .hook _ | .recordLock .. | .recordUnlock .. => none

def Traced.goto (s : Traced) (t : Pthread) (p : Point) : Traced :=
  { s with point := Function.update s.point t p }

/-- `pthread_mutex_lock(&tracerBigLock)`, when it is free. -/
def Traced.take (s : Traced) (t : Pthread) : Traced := { s with tracerBigLock := some t }

/-- `pthread_mutex_unlock(&tracerBigLock)`. -/
def Traced.release (s : Traced) : Traced := { s with tracerBigLock := none }

inductive TracedStep (prog : Program) : Traced → Label → Traced → Prop
  | beforeLock {s t m loc} : s.point t = .idle → prog t (s.native.pc t) = some (.lock m loc) →
      s.tracerBigLock = none →
      TracedStep prog s (.hook t) ((s.take t).goto t (.checking m loc))
  | checkSCC {s t m loc} : s.point t = .checking m loc →
      TracedStep prog s (.hook t)
        (Traced.goto { s with tracer := (Events.beforeLock s.tracer t m loc).2 } t
          (if (Events.beforeLock s.tracer t m loc).1 then .delaying m loc else .leaving m loc))
  | giveBack {s t m loc} : s.point t = .delaying m loc →
      TracedStep prog s (.hook t) (s.release.goto t (.sleeping m loc))
  | retake {s t m loc} : s.point t = .sleeping m loc → s.tracerBigLock = none →
      TracedStep prog s (.hook t) ((s.take t).goto t (.leaving m loc))
  | leave {s t m loc} : s.point t = .leaving m loc →
      TracedStep prog s (.hook t) (s.release.goto t (.locking m loc))
  | lock {s t m loc native} : s.point t = .locking m loc →
      NativeStep prog s.native (t, .lock m loc) native →
      TracedStep prog s (.op t (.lock m loc))
        (Traced.goto { s with native := native } t (.locked m loc))
  | afterLock {s t m loc} : s.point t = .locked m loc → s.tracerBigLock = none →
      TracedStep prog s (.hook t) ((s.take t).goto t (.recording m loc))
  | recordLock {s t m loc} : s.point t = .recording m loc →
      TracedStep prog s (.recordLock t m)
        (Traced.goto { s with tracer := Events.afterLock s.tracer t m loc } t .recorded)
  | done {s t} : s.point t = .recorded →
      TracedStep prog s (.hook t) (s.release.goto t .idle)
  | beforeUnlock {s t m loc} : s.point t = .idle →
      prog t (s.native.pc t) = some (.unlock m loc) → s.tracerBigLock = none →
      TracedStep prog s (.hook t) ((s.take t).goto t (.unlocking m loc))
  | unlock {s t m loc native} : s.point t = .unlocking m loc →
      NativeStep prog s.native (t, .unlock m loc) native →
      TracedStep prog s (.op t (.unlock m loc))
        (Traced.goto { s with native := native } t (.unlocked m loc))
  | recordUnlock {s t m loc tracer} : s.point t = .unlocked m loc →
      Events.afterUnlock s.tracer t m loc = some tracer →
      TracedStep prog s (.recordUnlock t m) (Traced.goto { s with tracer := tracer } t .recorded)

/-- All threads before their first operation, the tracer initialised. -/
def Traced.initial (tracer : Tracer) : Traced :=
  { native := {}, point := fun _ => .idle, tracerBigLock := none, tracer := tracer }

/-! ## Erasing the hooks -/

theorem erasure (prog : Program) :
    Erasure (TracedStep prog) (NativeStep prog) Traced.native erase where
  visible := by
    intro s l s' a h hl
    cases h with
    | lock _ hn | unlock _ hn =>
      obtain rfl := Option.some.inj hl
      exact hn
    | _ => cases hl
  hidden := by
    intro s l s' h hl
    cases h with
    | lock | unlock => cases hl
    | _ => rfl

/-! ## The native program -/

/-- A mutex belongs to the thread that has locked and not unlocked it. -/
def Native.Owned (prog : Program) (n : Native) : Prop :=
  ∀ t m, n.owner m = some t ↔ m ∈ holdings prog t (n.pc t)

section Native
variable {prog : Program} {n n' : Native} {t u : Pthread} {m k : LockAddress} {loc : Location}

theorem NativeStep.lock_eq (h : NativeStep prog n (t, .lock m loc) n') :
    prog t (n.pc t) = some (.lock m loc) ∧ n.owner m = none ∧ n' = n.perform t m (some t) := by
  cases h with
  | lock hop hfree => exact ⟨hop, hfree, rfl⟩

theorem NativeStep.unlock_eq (h : NativeStep prog n (t, .unlock m loc) n') :
    prog t (n.pc t) = some (.unlock m loc) ∧ n.owner m = some t ∧ n' = n.perform t m none := by
  cases h with
  | unlock hop hown => exact ⟨hop, hown, rfl⟩

theorem owned_initial : Native.Owned prog {} := by
  intro t m
  simp [holdings]

theorem pc_perform {owner : Option Pthread} :
    (n.perform t m owner).pc u = if u = t then n.pc t + 1 else n.pc u := by
  unfold Native.perform
  simp [Function.update_apply]

theorem owner_perform {owner : Option Pthread} :
    (n.perform t m owner).owner k = if k = m then owner else n.owner k := by
  unfold Native.perform
  simp [Function.update_apply]

theorem holdings_lock (hop : prog t (n.pc t) = some (.lock m loc)) :
    holdings prog t (n.pc t + 1) = insert m (holdings prog t (n.pc t)) := by
  rw [holdings, hop]

theorem holdings_unlock (hop : prog t (n.pc t) = some (.unlock m loc)) :
    holdings prog t (n.pc t + 1) = (holdings prog t (n.pc t)).erase m := by
  rw [holdings, hop]

theorem Native.Owned.perform_lock (h : n.Owned prog)
    (hop : prog t (n.pc t) = some (.lock m loc)) (hfree : n.owner m = none) :
    (n.perform t m (some t)).Owned prog := by
  intro u k
  have hk := h u k
  rw [owner_perform, pc_perform]
  by_cases hu : u = t
  · subst hu
    rw [if_pos rfl, holdings_lock hop, Finset.mem_insert]
    by_cases hkm : k = m
    · simp [hkm]
    · simp [hkm, hk]
  · rw [if_neg hu]
    by_cases hkm : k = m
    · subst hkm
      rw [hfree] at hk
      simp [← hk, Ne.symm hu]
    · rw [if_neg hkm]
      exact hk

theorem Native.Owned.perform_unlock (h : n.Owned prog)
    (hop : prog t (n.pc t) = some (.unlock m loc)) (hown : n.owner m = some t) :
    (n.perform t m none).Owned prog := by
  intro u k
  have hk := h u k
  rw [owner_perform, pc_perform]
  by_cases hu : u = t
  · subst hu
    rw [if_pos rfl, holdings_unlock hop, Finset.mem_erase]
    by_cases hkm : k = m
    · simp [hkm]
    · simp [hkm, hk]
  · rw [if_neg hu]
    by_cases hkm : k = m
    · subst hkm
      rw [hown] at hk
      simp [← hk, Ne.symm hu]
    · rw [if_neg hkm]
      exact hk

end Native

/-! ## The invariant of the hooks -/

/-- The operation of the program a point belongs to. -/
def Point.Matches (prog : Program) (t : Pthread) (n : Nat) : Point → Prop
  | .idle | .recorded => True
  | .checking m loc | .delaying m loc | .sleeping m loc | .leaving m loc | .locking m loc =>
    prog t n = some (.lock m loc)
  | .unlocking m loc => prog t n = some (.unlock m loc)
  | .locked m _ | .recording m _ => m ∈ holdings prog t n
  | .unlocked m _ => m ∉ holdings prog t n

/-- What the tracer has recorded of the mutexes `own` a thread has: an operation
counts from `Thread::lock` or `Thread::unlock` on. -/
def Point.recordedOf (own : LockSet) : Point → LockSet
  | .locked m _ | .recording m _ => own.erase m
  | .unlocked m _ => insert m own
  | _ => own

def Traced.records (prog : Program) (s : Traced) (t : Pthread) : LockSet :=
  (s.point t).recordedOf (holdings prog t (s.native.pc t))

structure Consistent (prog : Program) (s : Traced) : Prop where
  owned : s.native.Owned prog
  big : ∀ t, s.tracerBigLock = some t ↔ (s.point t).holdsBig = true
  place : ∀ t, (s.point t).Matches prog t (s.native.pc t)
  held : ∀ t m, s.tracer.held t m = if m ∈ s.records prog t then 1 else 0
  map : ∀ t m, s.tracer.lockThreadMap[m]? = some t ↔ m ∈ s.records prog t
  all : ∀ m, m ∈ s.tracer.allLocksHeld ↔ m ∈ s.tracer.lockThreadMap

section Invariant
variable {prog : Program} {s s' : Traced} {t u : Pthread} {m k : LockAddress} {loc : Location}
  {p : Point}

@[simp] theorem point_goto : (s.goto t p).point u = if u = t then p else s.point u :=
  Function.update_apply ..

@[simp] theorem native_goto : (s.goto t p).native = s.native := rfl
@[simp] theorem tracer_goto : (s.goto t p).tracer = s.tracer := rfl

theorem records_goto : (s.goto t p).records prog u =
    if u = t then p.recordedOf (holdings prog t (s.native.pc t)) else s.records prog u := by
  unfold Traced.records
  rw [point_goto, native_goto]
  split
  · rename_i hu
    rw [hu]
  · rfl

theorem Consistent.atPoint (h : Consistent prog s) (hp : s.point t = p) :
    p.Matches prog t (s.native.pc t) := by
  rw [← hp]
  exact h.place t

/-- A thread that has `tracerBigLock` is the only one at such a point. -/
theorem Consistent.exclusive (h : Consistent prog s) (ht : (s.point t).holdsBig = true)
    (hu : (s.point u).holdsBig = true) : t = u :=
  Option.some.inj (((h.big t).mpr ht).symm.trans ((h.big u).mpr hu))

/-- What is recorded belongs to the thread, except between the real unlock and its record. -/
theorem records_subset (hp : (s.point t).holdsBig = false) (hm : m ∈ s.records prog t) :
    m ∈ holdings prog t (s.native.pc t) := by
  unfold Traced.records at hm
  cases hpoint : s.point t with
  | unlocked k loc => rw [hpoint] at hp; cases hp
  | locked k loc | recording k loc =>
    rw [hpoint] at hm
    exact Finset.mem_of_mem_erase hm
  | _ =>
    rw [hpoint] at hm
    exact hm

/-- A thread at `recording` owns a mutex nobody is recorded for. -/
theorem Consistent.unrecorded (h : Consistent prog s) (hp : s.point t = .recording m loc) :
    m ∉ s.records prog u := by
  intro hm
  have hplace : m ∈ holdings prog t (s.native.pc t) := h.atPoint hp
  have hrec : s.records prog t = (holdings prog t (s.native.pc t)).erase m := by
    rw [Traced.records, hp]
    rfl
  by_cases hu : u = t
  · rw [hu, hrec] at hm
    exact Finset.notMem_erase _ _ hm
  · -- another thread at a point with `tracerBigLock` is excluded by `t`
    cases hbig : (s.point u).holdsBig with
    | true => exact hu (h.exclusive hbig (by rw [hp]; rfl))
    | false =>
      have hown := (h.owned u m).mpr (records_subset hbig hm)
      rw [(h.owned t m).mpr hplace] at hown
      exact hu (Option.some.inj hown).symm

theorem Consistent.big_take (h : Consistent prog s) (hfree : s.tracerBigLock = none)
    (hp : p.holdsBig = true) (u : Pthread) :
    some t = some u ↔ ((s.goto t p).point u).holdsBig = true := by
  rw [point_goto]
  by_cases hu : u = t
  · simp [hu, hp]
  · have hbig := h.big u
    rw [hfree] at hbig
    simpa [hu, Ne.symm hu] using hbig

theorem Consistent.big_release (h : Consistent prog s) (ht : (s.point t).holdsBig = true)
    (hp : p.holdsBig = false) (u : Pthread) :
    none = some u ↔ ((s.goto t p).point u).holdsBig = true := by
  rw [point_goto]
  by_cases hu : u = t
  · simp [hu, hp]
  · rw [if_neg hu]
    exact ⟨nofun, fun hbig => absurd (h.exclusive hbig ht) hu⟩

theorem Consistent.big_keep (h : Consistent prog s) (hp : p.holdsBig = (s.point t).holdsBig)
    (u : Pthread) : s.tracerBigLock = some u ↔ ((s.goto t p).point u).holdsBig = true := by
  rw [point_goto]
  by_cases hu : u = t
  · rw [if_pos hu, hp, hu]
    exact h.big t
  · rw [if_neg hu]
    exact h.big u

theorem Consistent.place_goto (h : Consistent prog s) (hp : p.Matches prog t (s.native.pc t))
    (u : Pthread) : ((s.goto t p).point u).Matches prog u (s.native.pc u) := by
  rw [point_goto]
  split
  · rename_i hu
    rw [hu]
    exact hp
  · exact h.place u

/-- A hook step that records nothing. -/
theorem Consistent.hook (h : Consistent prog s) {big : Option Pthread} {tracer : Tracer}
    (hbig : ∀ u, big = some u ↔ ((s.goto t p).point u).holdsBig = true)
    (hp : p.Matches prog t (s.native.pc t))
    (hrec : ∀ own, p.recordedOf own = (s.point t).recordedOf own)
    (hheld : ∀ u k, tracer.held u k = s.tracer.held u k)
    (hmap : tracer.lockThreadMap = s.tracer.lockThreadMap)
    (hall : tracer.allLocksHeld = s.tracer.allLocksHeld) :
    Consistent prog (Traced.goto { s with tracerBigLock := big, tracer := tracer } t p) := by
  have hrecords : ∀ u, (Traced.goto { s with tracerBigLock := big, tracer := tracer } t p).records
      prog u = s.records prog u := by
    intro u
    rw [records_goto]
    split
    · rename_i hu
      rw [hu]
      exact hrec _
    · rfl
  refine ⟨h.owned, hbig, h.place_goto hp, ?_, ?_, ?_⟩
  · intro u k
    rw [hrecords]
    exact (hheld u k).trans (h.held u k)
  · intro u k
    rw [hrecords]
    show tracer.lockThreadMap[k]? = some u ↔ _
    rw [hmap]
    exact h.map u k
  · intro k
    show k ∈ tracer.allLocksHeld ↔ k ∈ tracer.lockThreadMap
    rw [hmap, hall]
    exact h.all k

/-- A real operation: the mutexes a thread has change, what is recorded does not. -/
theorem Consistent.op (h : Consistent prog s) {owner : Option Pthread}
    (howned : (s.native.perform t m owner).Owned prog)
    (hbig : p.holdsBig = (s.point t).holdsBig)
    (hp : p.Matches prog t (s.native.pc t + 1))
    (hrec : p.recordedOf (holdings prog t (s.native.pc t + 1)) = s.records prog t) :
    Consistent prog (Traced.goto { s with native := s.native.perform t m owner } t p) := by
  have hrecords : ∀ u, (Traced.goto { s with native := s.native.perform t m owner } t p).records
      prog u = s.records prog u := by
    intro u
    rw [records_goto]
    by_cases hu : u = t
    · rw [if_pos hu, hu, ← hrec, pc_perform, if_pos rfl]
    · rw [if_neg hu, Traced.records, Traced.records]
      dsimp only
      rw [pc_perform, if_neg hu]
  refine ⟨howned, h.big_keep hbig, ?_, ?_, ?_, h.all⟩
  · intro u
    rw [point_goto, native_goto, pc_perform]
    by_cases hu : u = t
    · rw [if_pos hu, if_pos hu, hu]
      exact hp
    · rw [if_neg hu, if_neg hu]
      exact h.place u
  · intro u k
    rw [hrecords]
    exact h.held u k
  · intro u k
    rw [hrecords]
    exact h.map u k

/-- Once recorded, the mutex is among what the records say, and nothing else changes. -/
theorem Consistent.records_recordLock (h : Consistent prog s) (hp : s.point t = .recording m loc) :
    k ∈ (s.goto t .recorded).records prog u ↔ (u = t ∧ k = m) ∨ k ∈ s.records prog u := by
  have hplace : m ∈ holdings prog t (s.native.pc t) := h.atPoint hp
  have hrec : s.records prog t = (holdings prog t (s.native.pc t)).erase m := by
    rw [Traced.records, hp]
    rfl
  rw [records_goto]
  by_cases hu : u = t
  · rw [if_pos hu, hu, hrec, Finset.mem_erase]
    show k ∈ holdings prog t (s.native.pc t) ↔ _
    by_cases hk : k = m
    · simpa [hk] using hplace
    · simp [hk]
  · simp only [hu, if_false, false_and, false_or]

/-- `Thread::lock` makes the record agree with what the thread has. -/
theorem Consistent.recordLock (h : Consistent prog s) (hp : s.point t = .recording m loc) :
    Consistent prog
      (Traced.goto { s with tracer := Events.afterLock s.tracer t m loc } t .recorded) := by
  have hrecords : ∀ u k, k ∈ (Traced.goto { s with tracer := Events.afterLock s.tracer t m loc }
      t .recorded).records prog u ↔ (u = t ∧ k = m) ∨ k ∈ s.records prog u :=
    fun _ _ => h.records_recordLock hp
  refine ⟨h.owned, h.big_keep (by rw [hp]; rfl), h.place_goto trivial, ?_, ?_, ?_⟩
  · intro u k
    rw [tracer_goto, held_afterLock, h.held]
    simp only [hrecords]
    by_cases hnew : u = t ∧ k = m
    · obtain ⟨rfl, rfl⟩ := hnew
      simp [h.unrecorded hp]
    · simp [hnew]
  · intro u k
    rw [tracer_goto, lockThreadMap_afterLock, hrecords, ← h.map]
    by_cases hk : k = m
    · subst hk
      have hnone : s.tracer.lockThreadMap[k]? ≠ some u := fun hs =>
        h.unrecorded hp ((h.map u k).mp hs)
      simp [hnone, @eq_comm _ u t]
    · simp [hk]
  · intro k
    rw [tracer_goto, allLocksHeld_afterLock, Finset.mem_insert, h.all,
      TreeMap.mem_iff_isSome_getElem?, TreeMap.mem_iff_isSome_getElem?, lockThreadMap_afterLock]
    by_cases hk : k = m
    · simp [hk]
    · simp [hk]

/-- At `unlocked` the mutex is recorded for its thread, so for nobody else. -/
theorem Consistent.recorded_iff (h : Consistent prog s) (hp : s.point t = .unlocked m loc) :
    m ∈ s.records prog u ↔ u = t := by
  have hrec : s.records prog t = insert m (holdings prog t (s.native.pc t)) := by
    rw [Traced.records, hp]
    rfl
  have hmap : s.tracer.lockThreadMap[m]? = some t :=
    (h.map t m).mpr (by rw [hrec]; exact Finset.mem_insert_self _ _)
  rw [← h.map, hmap, Option.some.injEq, eq_comm]

/-- Once erased, the mutex is not among what the records say, and nothing else changes. -/
theorem Consistent.records_recordUnlock (h : Consistent prog s) (hp : s.point t = .unlocked m loc) :
    k ∈ (s.goto t .recorded).records prog u ↔ k ≠ m ∧ k ∈ s.records prog u := by
  have hplace : m ∉ holdings prog t (s.native.pc t) := h.atPoint hp
  have hrec : s.records prog t = insert m (holdings prog t (s.native.pc t)) := by
    rw [Traced.records, hp]
    rfl
  rw [records_goto]
  by_cases hu : u = t
  · rw [if_pos hu, hu, hrec, Finset.mem_insert]
    show k ∈ holdings prog t (s.native.pc t) ↔ _
    by_cases hk : k = m
    · simpa [hk] using hplace
    · simp [hk]
  · rw [if_neg hu]
    by_cases hk : k = m
    · simp [hk, h.recorded_iff hp, hu]
    · simp [hk]

/-- `Thread::unlock` erases the record of the thread that has unlocked. -/
theorem Consistent.recordUnlock (h : Consistent prog s) (hp : s.point t = .unlocked m loc)
    {tracer : Tracer} (hrun : Events.afterUnlock s.tracer t m loc = some tracer) :
    Consistent prog (Traced.goto { s with tracer := tracer } t .recorded) := by
  have hrecords : ∀ u k, k ∈ (Traced.goto { s with tracer := tracer } t .recorded).records prog u ↔
      k ≠ m ∧ k ∈ s.records prog u := fun _ _ => h.records_recordUnlock hp
  refine ⟨h.owned, h.big_keep (by rw [hp]; rfl), h.place_goto trivial, ?_, ?_, ?_⟩
  · intro u k
    rw [tracer_goto, held_afterUnlock hrun, h.held]
    simp only [hrecords]
    by_cases hk : k = m
    · simp [hk, h.recorded_iff hp]
    · simp [hk]
  · intro u k
    rw [tracer_goto, lockThreadMap_afterUnlock hrun, hrecords, ← h.map]
    by_cases hk : k = m
    · simp [hk]
    · simp [hk]
  · intro k
    rw [tracer_goto, mem_allLocksHeld_afterUnlock hrun, h.all, TreeMap.mem_iff_isSome_getElem?,
      TreeMap.mem_iff_isSome_getElem?, lockThreadMap_afterUnlock hrun]
    by_cases hk : k = m
    · simp [hk]
    · simp [hk]

theorem Consistent.step {l : Label} (h : Consistent prog s) (hs : TracedStep prog s l s') :
    Consistent prog s' := by
  cases hs with
  | beforeLock hp hop hfree =>
    exact h.hook (h.big_take hfree rfl) hop (by rw [hp]; intro own; rfl) (fun _ _ => rfl) rfl rfl
  | @checkSCC t m loc hp =>
    have hop : prog t (s.native.pc t) = some (.lock m loc) := h.atPoint hp
    cases hdelay : (Events.beforeLock s.tracer t m loc).1 with
    | true | false =>
      refine h.hook (h.big_keep ?_) hop ?_ (fun _ _ => held_beforeLock)
        lockThreadMap_beforeLock allLocksHeld_beforeLock
      · rw [hp]
        rfl
      · rw [hp]
        intro own
        rfl
  | @giveBack t m loc hp =>
    have hop : prog t (s.native.pc t) = some (.lock m loc) := h.atPoint hp
    exact h.hook (h.big_release (by rw [hp]; rfl) rfl) hop (by rw [hp]; intro own; rfl)
      (fun _ _ => rfl) rfl rfl
  | @retake t m loc hp hfree =>
    have hop : prog t (s.native.pc t) = some (.lock m loc) := h.atPoint hp
    exact h.hook (h.big_take hfree rfl) hop (by rw [hp]; intro own; rfl) (fun _ _ => rfl) rfl rfl
  | @leave t m loc hp =>
    have hop : prog t (s.native.pc t) = some (.lock m loc) := h.atPoint hp
    exact h.hook (h.big_release (by rw [hp]; rfl) rfl) hop (by rw [hp]; intro own; rfl)
      (fun _ _ => rfl) rfl rfl
  | @lock t m loc native hp hn =>
    obtain ⟨hop, hfree, rfl⟩ := hn.lock_eq
    have hnot : m ∉ holdings prog t (s.native.pc t) := by
      intro hm
      rw [(h.owned t m).mpr hm] at hfree
      cases hfree
    refine h.op (h.owned.perform_lock hop hfree) (by rw [hp]; rfl) ?_ ?_
    · show m ∈ holdings prog t (s.native.pc t + 1)
      rw [holdings_lock hop]
      exact Finset.mem_insert_self _ _
    · rw [Traced.records, hp, holdings_lock hop]
      exact Finset.erase_insert hnot
  | @afterLock t m loc hp hfree =>
    have hown : m ∈ holdings prog t (s.native.pc t) := h.atPoint hp
    exact h.hook (h.big_take hfree rfl) hown (by rw [hp]; intro own; rfl) (fun _ _ => rfl) rfl rfl
  | recordLock hp => exact h.recordLock hp
  | done hp =>
    exact h.hook (h.big_release (by rw [hp]; rfl) rfl) trivial (by rw [hp]; intro own; rfl)
      (fun _ _ => rfl) rfl rfl
  | beforeUnlock hp hop hfree =>
    exact h.hook (h.big_take hfree rfl) hop (by rw [hp]; intro own; rfl) (fun _ _ => rfl) rfl rfl
  | @unlock t m loc native hp hn =>
    obtain ⟨hop, hown, rfl⟩ := hn.unlock_eq
    refine h.op (h.owned.perform_unlock hop hown) (by rw [hp]; rfl) ?_ ?_
    · show m ∉ holdings prog t (s.native.pc t + 1)
      rw [holdings_unlock hop]
      exact Finset.notMem_erase _ _
    · rw [Traced.records, hp, holdings_unlock hop]
      exact Finset.insert_erase ((h.owned t m).mp hown)
  | recordUnlock hp hrun => exact h.recordUnlock hp hrun

/-- The hooks start consistent on every loaded graph. -/
theorem consistent_initial {ord : NodeOrder} {g : LockGraph} {tracer : Tracer}
    (hstart : start ord g = some tracer) : Consistent prog (Traced.initial tracer) := by
  obtain ⟨n, -, rfl⟩ := Option.map_eq_some_iff.mp hstart
  refine ⟨owned_initial, ?_, fun t => trivial, ?_, ?_, ?_⟩
  · intro t
    simp [Traced.initial, Point.holdsBig]
  · intro t m
    simp [Traced.initial, Traced.records, Point.recordedOf, holdings, Tracer.held, Tracer.thread,
      Thread.held]
  · intro t m
    simp [Traced.initial, Traced.records, Point.recordedOf, holdings]
  · intro m
    simp [Traced.initial]

theorem Consistent.run {ls : List Label} (h : Consistent prog s)
    (hrun : Run (TracedStep prog) s ls s') : Consistent prog s' :=
  hrun.invariant Consistent.step h

end Invariant

/-! ## Progress -/

section Progress
variable {prog : Program} {n : Native} {s : Traced} {t : Pthread} {m : LockAddress} {loc : Location}

/-- The assertion of `Thread::unlock` passes at `afterUnlock`. -/
theorem Consistent.unlock_isSome (h : Consistent prog s) (hp : s.point t = .unlocked m loc) :
    ∃ tracer, Events.afterUnlock s.tracer t m loc = some tracer := by
  refine afterUnlock_isSome.mpr ?_
  rw [h.held, if_pos ((h.recorded_iff hp).mpr rfl)]
  exact Int.one_pos

/-- The thread that has `tracerBigLock` can always go on. -/
theorem Consistent.holder_steps (h : Consistent prog s) (hprog : OwnerUnlocks prog)
    (ht : (s.point t).holdsBig = true) : ∃ l s', TracedStep prog s l s' := by
  cases hp : s.point t with
  | idle | sleeping | locking | locked => rw [hp] at ht; cases ht
  | checking => exact ⟨_, _, .checkSCC hp⟩
  | delaying => exact ⟨_, _, .giveBack hp⟩
  | leaving => exact ⟨_, _, .leave hp⟩
  | recording => exact ⟨_, _, .recordLock hp⟩
  | recorded => exact ⟨_, _, .done hp⟩
  | unlocking m loc =>
    have hop : prog t (s.native.pc t) = some (.unlock m loc) := h.atPoint hp
    have hown := (h.owned t m).mpr (hprog t _ m loc hop)
    exact ⟨_, _, .unlock hp (.unlock hop hown)⟩
  | unlocked m loc =>
    obtain ⟨tracer, htracer⟩ := h.unlock_isSome hp
    exact ⟨_, _, .recordUnlock hp htracer⟩

/-- Where the program can go on, so can the program with hooks. -/
theorem Consistent.progress (h : Consistent prog s) (hprog : OwnerUnlocks prog)
    {a : Pthread × MutexOp} (hstep : NativeStep prog s.native a n) :
    ∃ l s', TracedStep prog s l s' := by
  cases hbig : s.tracerBigLock with
  | some u => exact h.holder_steps hprog ((h.big u).mp hbig)
  | none =>
    obtain ⟨t, op⟩ := a
    have hnot : (s.point t).holdsBig = true → False := by
      intro hholds
      rw [(h.big t).mpr hholds] at hbig
      cases hbig
    cases hp : s.point t with
    | checking | delaying | leaving | recording | recorded | unlocking | unlocked =>
      rw [hp] at hnot
      exact (hnot rfl).elim
    | sleeping => exact ⟨_, _, .retake hp hbig⟩
    | locked => exact ⟨_, _, .afterLock hp hbig⟩
    | idle =>
      cases hstep with
      | lock hop => exact ⟨_, _, .beforeLock hp hop hbig⟩
      | unlock hop => exact ⟨_, _, .beforeUnlock hp hop hbig⟩
    | locking m loc =>
      have hop : prog t (s.native.pc t) = some (.lock m loc) := h.atPoint hp
      -- the operation the program can make is the one the hook stands at
      cases hstep with
      | lock hop' hfree =>
        obtain ⟨rfl, rfl⟩ := MutexOp.lock.inj (Option.some.inj (hop.symm.trans hop'))
        exact ⟨_, _, .lock hp (.lock hop hfree)⟩
      | unlock hop' => rw [hop] at hop'; cases hop'

end Progress

end Lockout.LockTracer.Hooks
