import Mathlib.Data.Finset.Card
import Mathlib.Tactic.Tauto
import Lockout.LockTracer.Graph

/-! # Thread records and ownership

The per-thread record (`Thread`) and the state the hooks share (`Tracer`), with
`Thread::lock`, `Thread::unlock` and `Thread::self`. The vector of records, which
`self` searches with `pthread_equal`, is a map from pthread ids; a `Thread*` is
the id of its record. `Thread::unlock` is partial: its assertion ends the traced
program. Counts are unbounded integers. -/

namespace Lockout.LockTracer.Threads
open Std
open Lockout.LockTracer.Graph

abbrev Location := Int
abbrev LockOperation := Location × LockAddress
abbrev LockSet := Finset LockAddress
/-- `pthread_t`. -/
abbrev Pthread := Nat

structure Thread where
  locks : TreeMap LockAddress Int := ∅
  /-- Oldest operation first. -/
  lockHistory : List LockOperation := []
  diffLocksHeldNum : Int := 0

namespace Thread

/-- The value of `locks[m]`, which the source reads with `operator[]`. -/
def held (th : Thread) (m : LockAddress) : Int := th.locks.getD m 0

/-- `Thread::lock`, the part about the thread's own record. -/
def lock (th : Thread) (lockAq : LockOperation) : Thread :=
  let locks := th.locks.insert lockAq.2 (th.held lockAq.2 + 1)
  { th with
    locks := locks
    diffLocksHeldNum :=
      if locks.getD lockAq.2 0 = 1 then th.diffLocksHeldNum + 1 else th.diffLocksHeldNum
    lockHistory := th.lockHistory ++ [lockAq] }

/-- `Thread::unlock`, the part about the thread's own record. -/
def unlock (th : Thread) (lockRel : LockOperation) : Option Thread :=
  if 0 < th.held lockRel.2 then
    let locks := th.locks.insert lockRel.2 (th.held lockRel.2 - 1)
    some { th with
      locks := locks
      diffLocksHeldNum :=
        if locks.getD lockRel.2 0 = 0 then th.diffLocksHeldNum - 1 else th.diffLocksHeldNum }
  else none

def getLockset (th : Thread) : LockSet := th.locks.keys.toFinset

/-- The mutexes a record counts as held. -/
def heldSet (th : Thread) : LockSet := th.getLockset.filter fun m => 0 < th.held m

end Thread

structure Tracer where
  RAOG : LockGraph
  component : TreeMap LockAddress Int := ∅
  threads : TreeMap Pthread Thread := ∅
  lockThreadMap : TreeMap LockAddress Pthread := ∅
  allLocksHeld : LockSet := ∅

namespace Tracer

/-- The record `Thread::self()` returns to `me`: the one it has, or a new one. -/
def thread (s : Tracer) (me : Pthread) : Thread := s.threads.getD me {}

/-- `Thread::self()`. -/
def self (s : Tracer) (me : Pthread) : Tracer :=
  if s.threads.contains me then s else { s with threads := s.threads.insert me (s.thread me) }

/-- The loop of `Thread::lock` that adds an edge from every mutex the thread holds. -/
def addHeldEdges (g : LockGraph) (th : Thread) (dst : LockAddress) : LockGraph :=
  if th.locks.isEmpty then g
  else th.locks.toList.foldl (fun g p => if 0 < p.2 then g.addEdge p.1 dst 1 else g) g

/-- `Thread::lock`. -/
def lock (s : Tracer) (me : Pthread) (lockAq : LockOperation) : Tracer :=
  { s with
    RAOG := addHeldEdges s.RAOG (s.thread me) lockAq.2
    threads := s.threads.insert me ((s.thread me).lock lockAq)
    lockThreadMap := s.lockThreadMap.insert lockAq.2 me
    allLocksHeld := insert lockAq.2 s.allLocksHeld }

/-- `Thread::unlock`. -/
def unlock (s : Tracer) (me : Pthread) (lockRel : LockOperation) : Option Tracer :=
  ((s.thread me).unlock lockRel).map fun th =>
    { s with
      threads := s.threads.insert me th
      lockThreadMap := s.lockThreadMap.erase lockRel.2
      allLocksHeld := s.allLocksHeld.erase lockRel.2 }

end Tracer

/-! ## Counts of one record -/

namespace Thread
variable {th th' : Thread} {op : LockOperation} {m : LockAddress}

@[simp] theorem held_lock : (th.lock op).held m = th.held m + if m = op.2 then 1 else 0 := by
  unfold lock held
  dsimp only
  rw [TreeMap.getD_insert]
  by_cases h : m = op.2
  · simp [h]
  · simp [h, Ne.symm h]

theorem unlock_eq_some : th.unlock op = some th' ↔ 0 < th.held op.2 ∧ th' =
    { th with
      locks := th.locks.insert op.2 (th.held op.2 - 1)
      diffLocksHeldNum :=
        if th.held op.2 - 1 = 0 then th.diffLocksHeldNum - 1 else th.diffLocksHeldNum } := by
  unfold unlock
  split
  · rename_i h
    simp [h, eq_comm]
  · rename_i h
    simp [h]

theorem held_unlock (h : th.unlock op = some th') :
    th'.held m = th.held m - if m = op.2 then 1 else 0 := by
  obtain ⟨-, rfl⟩ := unlock_eq_some.mp h
  unfold held
  rw [TreeMap.getD_insert]
  by_cases hm : m = op.2
  · simp [hm]
  · simp [hm, Ne.symm hm]

theorem mem_heldSet : m ∈ th.heldSet ↔ 0 < th.held m := by
  unfold heldSet getLockset
  simp only [Finset.mem_filter, List.mem_toFinset, TreeMap.mem_keys, and_iff_right_iff_imp]
  intro h
  by_contra hm
  simp [held, TreeMap.getD_eq_fallback hm] at h

/-- No count is negative and `diffLocksHeldNum` counts the held mutexes. -/
structure Counted (th : Thread) : Prop where
  nonneg : ∀ m, 0 ≤ th.held m
  diff : th.diffLocksHeldNum = th.heldSet.card

theorem counted_new : Counted {} where
  nonneg m := by simp [held]
  diff := by simp [heldSet, held]

theorem Counted.lock (h : th.Counted) : (th.lock op).Counted where
  nonneg m := by
    have := h.nonneg m
    rw [held_lock]
    split <;> omega
  diff := by
    have hset : (th.lock op).heldSet = insert op.2 th.heldSet := by
      ext m
      have := h.nonneg m
      simp only [mem_heldSet, held_lock, Finset.mem_insert]
      by_cases hm : m = op.2
      · simp only [hm, if_true, true_or, iff_true]
        have := h.nonneg op.2
        omega
      · simp [hm]
    have hone : (th.lock op).diffLocksHeldNum =
        if th.held op.2 + 1 = 1 then th.diffLocksHeldNum + 1 else th.diffLocksHeldNum := by
      simp [Thread.lock]
    have hc := h.nonneg op.2
    rw [hset, hone, h.diff]
    by_cases hm : 0 < th.held op.2
    · rw [if_neg (by omega), Finset.insert_eq_of_mem (mem_heldSet.mpr hm)]
    · rw [if_pos (by omega), Finset.card_insert_of_notMem (fun hin => hm (mem_heldSet.mp hin))]
      push_cast
      rfl

theorem Counted.unlock (h : th.Counted) (hu : th.unlock op = some th') : th'.Counted where
  nonneg m := by
    have hpos := (unlock_eq_some.mp hu).1
    have := h.nonneg m
    rw [held_unlock hu]
    split
    · rename_i hm; subst hm; omega
    · omega
  diff := by
    obtain ⟨hpos, hth⟩ := unlock_eq_some.mp hu
    have hdiff : th'.diffLocksHeldNum =
        if th.held op.2 - 1 = 0 then th.diffLocksHeldNum - 1 else th.diffLocksHeldNum := by
      rw [hth]
    rw [hdiff, h.diff]
    by_cases hone : th.held op.2 - 1 = 0
    · have hset : th'.heldSet = th.heldSet.erase op.2 := by
        ext m
        simp only [mem_heldSet, held_unlock hu, Finset.mem_erase]
        by_cases hm : m = op.2
        · subst hm; simp; omega
        · simp [hm]
      rw [if_pos hone, hset, Finset.card_erase_of_mem (mem_heldSet.mpr hpos)]
      have := Finset.card_pos.mpr ⟨op.2, mem_heldSet.mpr hpos⟩
      omega
    · have hset : th'.heldSet = th.heldSet := by
        ext m
        simp only [mem_heldSet, held_unlock hu]
        by_cases hm : m = op.2
        · subst hm; simp; omega
        · simp [hm]
      rw [if_neg hone, hset]

/-- A thread that holds a mutex is counted as holding something. -/
theorem Counted.diff_ne_zero (h : th.Counted) (hm : 0 < th.held m) : th.diffLocksHeldNum ≠ 0 := by
  have := Finset.card_pos.mpr ⟨m, mem_heldSet.mpr hm⟩
  rw [h.diff]
  omega

end Thread

/-! ## The shared state -/

namespace Tracer
variable {s s' : Tracer} {me t : Pthread} {op : LockOperation} {a b m : LockAddress}

theorem thread_of_threads {threads : TreeMap Pthread Thread} {th : Thread}
    (h : s'.threads = threads.insert me th) :
    s'.thread t = if t = me then th else threads.getD t {} := by
  unfold thread
  rw [h, TreeMap.getD_insert]
  by_cases ht : t = me
  · simp [ht]
  · simp [ht, Ne.symm ht]

@[simp] theorem thread_self : (s.self me).thread t = s.thread t := by
  unfold self
  split
  · rfl
  · refine (thread_of_threads rfl).trans ?_
    split
    · rename_i ht
      rw [ht]
    · rfl

theorem thread_lock : (s.lock me op).thread t =
    if t = me then (s.thread me).lock op else s.thread t :=
  thread_of_threads rfl

/-- The count of `m` in the record of `t`. -/
def held (s : Tracer) (t : Pthread) (m : LockAddress) : Int := (s.thread t).held m

theorem held_lock :
    (s.lock me op).held t m = s.held t m + if t = me ∧ m = op.2 then 1 else 0 := by
  unfold held
  rw [thread_lock]
  by_cases ht : t = me
  · subst ht; simp
  · simp [ht]

theorem unlock_eq_some : s.unlock me op = some s' ↔ ∃ th, (s.thread me).unlock op = some th ∧
    s' = { s with
      threads := s.threads.insert me th
      lockThreadMap := s.lockThreadMap.erase op.2
      allLocksHeld := s.allLocksHeld.erase op.2 } := by
  unfold unlock
  rw [Option.map_eq_some_iff]
  exact exists_congr fun th => and_congr_right fun _ => eq_comm

/-- The assertion of `Thread::unlock` passes exactly when the record holds the mutex. -/
theorem unlock_isSome : (∃ s', s.unlock me op = some s') ↔ 0 < s.held me op.2 := by
  constructor
  · rintro ⟨s', h⟩
    obtain ⟨th, hth, -⟩ := unlock_eq_some.mp h
    exact (Thread.unlock_eq_some.mp hth).1
  · intro h
    exact ⟨_, unlock_eq_some.mpr ⟨_, Thread.unlock_eq_some.mpr ⟨h, rfl⟩, rfl⟩⟩

theorem thread_unlock (h : s.unlock me op = some s') : ∃ th, (s.thread me).unlock op = some th ∧
    ∀ t, s'.thread t = if t = me then th else s.thread t := by
  obtain ⟨th, hth, rfl⟩ := unlock_eq_some.mp h
  exact ⟨th, hth, fun t => thread_of_threads rfl⟩

theorem held_unlock (h : s.unlock me op = some s') :
    s'.held t m = s.held t m - if t = me ∧ m = op.2 then 1 else 0 := by
  obtain ⟨th, hth, hthread⟩ := thread_unlock h
  unfold held
  rw [hthread]
  by_cases ht : t = me
  · subst ht; simp [Thread.held_unlock hth]
  · simp [ht]

theorem lockThreadMap_lock : (s.lock me op).lockThreadMap[m]? =
    if m = op.2 then some me else s.lockThreadMap[m]? := by
  unfold lock
  dsimp only
  rw [TreeMap.getElem?_insert]
  by_cases h : m = op.2
  · simp [h]
  · simp [h, Ne.symm h]

theorem lockThreadMap_unlock (h : s.unlock me op = some s') : s'.lockThreadMap[m]? =
    if m = op.2 then none else s.lockThreadMap[m]? := by
  obtain ⟨th, -, rfl⟩ := unlock_eq_some.mp h
  dsimp only
  rw [TreeMap.getElem?_erase]
  by_cases h : m = op.2
  · simp [h]
  · simp [h, Ne.symm h]

theorem mem_allLocksHeld_unlock (h : s.unlock me op = some s') :
    m ∈ s'.allLocksHeld ↔ m ≠ op.2 ∧ m ∈ s.allLocksHeld := by
  obtain ⟨th, -, rfl⟩ := unlock_eq_some.mp h
  simp

/-! ## Edges recorded by one acquisition -/

theorem addHeldEdges_eq_foldl (g : LockGraph) (th : Thread) (dst : LockAddress) :
    addHeldEdges g th dst =
      th.locks.toList.foldl (fun g p => if 0 < p.2 then g.addEdge p.1 dst 1 else g) g := by
  unfold addHeldEdges
  split
  · rename_i h
    have hnil : th.locks.toList = [] := by
      rw [← List.isEmpty_iff, TreeMap.isEmpty_toList]
      exact h
    rw [hnil]
    rfl
  · rfl

theorem nodup_keys_toList {β : Type} (locks : TreeMap LockAddress β) :
    (locks.toList.map Prod.fst).Nodup := by
  rw [List.Nodup, List.pairwise_map]
  exact TreeMap.distinct_keys_toList.imp fun hne he => hne (by simpa using he)

/-- Some entry of the list counts `a` as held. -/
def countsHeld (l : List (LockAddress × Int)) (a : LockAddress) : Bool :=
  l.any fun p => p.1 == a && decide (0 < p.2)

theorem countsHeld_cons {k : LockAddress} {v : Int} {l : List (LockAddress × Int)} :
    countsHeld ((k, v) :: l) a = true ↔ (a = k ∧ 0 < v) ∨ countsHeld l a = true := by
  simp [countsHeld, @eq_comm _ a k]

theorem countsHeld_toList {th : Thread} : countsHeld th.locks.toList a = true ↔ 0 < th.held a := by
  have hmem : countsHeld th.locks.toList a = true ↔ ∃ n, th.locks[a]? = some n ∧ 0 < n := by
    simp only [countsHeld, List.any_eq_true, Prod.exists, Bool.and_eq_true, beq_iff_eq,
      decide_eq_true_eq, ← TreeMap.mem_toList_iff_getElem?_eq_some]
    constructor
    · rintro ⟨k, n, hn, rfl, hpos⟩
      exact ⟨n, hn, hpos⟩
    · rintro ⟨n, hn, hpos⟩
      exact ⟨a, n, hn, rfl, hpos⟩
  rw [hmem, Thread.held, TreeMap.getD_eq_getD_getElem?]
  cases th.locks[a]? <;> simp

theorem edge_foldl {dst : LockAddress} (l : List (LockAddress × Int)) (g : LockGraph) :
    (l.foldl (fun g p => if 0 < p.2 then g.addEdge p.1 dst 1 else g) g).Edge a b ↔
      g.Edge a b ∨ (b = dst ∧ countsHeld l a = true) := by
  induction l generalizing g with
  | nil => simp [countsHeld]
  | cons p l ih =>
    obtain ⟨k, v⟩ := p
    rw [List.foldl_cons, ih, countsHeld_cons]
    by_cases hv : 0 < v
    · simp only [hv, if_true, LockGraph.edge_addEdge, and_true]
      tauto
    · simp [hv]

theorem weight_foldl {dst : LockAddress} (l : List (LockAddress × Int))
    (hl : (l.map Prod.fst).Nodup) (g : LockGraph) :
    (l.foldl (fun g p => if 0 < p.2 then g.addEdge p.1 dst 1 else g) g).weight a b =
      g.weight a b + if b = dst ∧ countsHeld l a = true then 1 else 0 := by
  induction l generalizing g with
  | nil => simp [countsHeld]
  | cons p l ih =>
    obtain ⟨k, v⟩ := p
    obtain ⟨hk, hl⟩ := List.nodup_cons.mp hl
    -- the keys are distinct, so the rest of the list says nothing about `k`
    have hnone : countsHeld l k = false := by
      rw [Bool.eq_false_iff]
      intro h
      obtain ⟨q, hq, hqk⟩ := List.any_eq_true.mp h
      simp only [Bool.and_eq_true, beq_iff_eq] at hqk
      exact hk (List.mem_map.mpr ⟨q, hq, hqk.1⟩)
    rw [List.foldl_cons, ih hl]
    simp only [countsHeld_cons]
    by_cases hak : a = k
    · subst hak
      by_cases hv : 0 < v <;> simp [hv, hnone, LockGraph.weight_addEdge]
    · by_cases hv : 0 < v <;> simp [hv, hak, LockGraph.weight_addEdge]

/-- The edge loop raises the weight of `a -> dst` by one for every held `a` and
changes no other weight. -/
theorem weight_addHeldEdges (g : LockGraph) (th : Thread) (dst : LockAddress) :
    (addHeldEdges g th dst).weight a b =
      g.weight a b + if b = dst ∧ 0 < th.held a then 1 else 0 := by
  simp only [addHeldEdges_eq_foldl, weight_foldl _ (nodup_keys_toList _), countsHeld_toList]

theorem edge_addHeldEdges (g : LockGraph) (th : Thread) (dst : LockAddress) :
    (addHeldEdges g th dst).Edge a b ↔ g.Edge a b ∨ (b = dst ∧ 0 < th.held a) := by
  simp only [addHeldEdges_eq_foldl, edge_foldl, countsHeld_toList]

end Tracer

end Lockout.LockTracer.Threads
