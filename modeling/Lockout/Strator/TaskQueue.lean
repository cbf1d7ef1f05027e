import Lockout.Strator.Workers

/-! # Interleavings of the task queue

`getTask` seen from all workers at once: each call is atomic under the mutex of the
queue, between its calls a worker traverses the entry point it has got, and the
workers are interleaved in any order. The counter goes on falling when the tasks are
used up, once for each worker. The trace of a run has the newest event first. -/

namespace Lockout.Strator.TaskQueue
open Lockout.Strator.Program Lockout.Strator.State Lockout.Strator.Workers

/-- `getTask` without its read of `tasks`: the index of the task, where there is one, and
the counter afterwards. -/
def getTaskIndex (functionCount : Int) : Option Int × Int :=
  let functionCount := functionCount - 1
  if functionCount < 0 then (none, functionCount) else (some functionCount, functionCount)

inductive Status
  | asking
  | traversing (k : Int)
  | ended
  deriving DecidableEq

inductive Event
  /-- `getTask` has given the index `k` to worker `i`. -/
  | handed (i : Nat) (k : Int)
  /-- `getTask` has returned false to worker `i`. -/
  | refused (i : Nat)
  /-- Worker `i` has traversed `tasks[k]`. -/
  | traversed (i : Nat) (k : Int)
  deriving DecidableEq

structure Queue where
  functionCount : Int
  status : Nat → Status := fun _ => .asking

/-- The first `n` workers on the queue, with the trace of what has happened. -/
inductive QueueRun (tasks : List String) (n : Nat) : List Event → Queue → Prop
  | start : QueueRun tasks n [] { functionCount := tasks.length }
  | hand {trace q i k functionCount} : QueueRun tasks n trace q → i < n → q.status i = .asking →
      getTaskIndex q.functionCount = (some k, functionCount) →
      QueueRun tasks n (.handed i k :: trace)
        { functionCount, status := Function.update q.status i (.traversing k) }
  | refuse {trace q i functionCount} : QueueRun tasks n trace q → i < n → q.status i = .asking →
      getTaskIndex q.functionCount = (none, functionCount) →
      QueueRun tasks n (.refused i :: trace)
        { functionCount, status := Function.update q.status i .ended }
  | finish {trace q i k} : QueueRun tasks n trace q → i < n → q.status i = .traversing k →
      QueueRun tasks n (.traversed i k :: trace)
        { q with status := Function.update q.status i .asking }

/-- The indices that have been given away, each with its worker. -/
def handedOut (trace : List Event) : List (Nat × Int) :=
  trace.filterMap fun | .handed i k => some (i, k) | _ => none

/-- The indices whose entry point has been traversed, each with its worker. -/
def traversals (trace : List Event) : List (Nat × Int) :=
  trace.filterMap fun | .traversed i k => some (i, k) | _ => none

def AllEnded (n : Nat) (q : Queue) : Prop := ∀ i, i < n → q.status i = .ended

section Runs
variable {tasks : List String} {n i : Nat} {k functionCount : Int} {trace : List Event} {q : Queue}

@[simp] theorem handedOut_handed : handedOut (.handed i k :: trace) = (i, k) :: handedOut trace := rfl
@[simp] theorem handedOut_refused : handedOut (.refused i :: trace) = handedOut trace := rfl
@[simp] theorem handedOut_traversed : handedOut (.traversed i k :: trace) = handedOut trace := rfl
@[simp] theorem traversals_handed : traversals (.handed i k :: trace) = traversals trace := rfl
@[simp] theorem traversals_refused : traversals (.refused i :: trace) = traversals trace := rfl
@[simp] theorem traversals_traversed :
    traversals (.traversed i k :: trace) = (i, k) :: traversals trace := rfl

theorem getTaskIndex_eq_some (h : getTaskIndex functionCount = (some k, q.functionCount)) :
    k = functionCount - 1 ∧ q.functionCount = functionCount - 1 ∧ 0 ≤ k := by
  unfold getTaskIndex at h
  dsimp only at h
  split at h
  · cases h
  · obtain ⟨hk, hcount⟩ := Prod.mk.inj h
    obtain rfl := Option.some.inj hk
    exact ⟨rfl, hcount.symm, by omega⟩

theorem getTaskIndex_eq_none (h : getTaskIndex functionCount = (none, q.functionCount)) :
    q.functionCount = functionCount - 1 ∧ functionCount - 1 < 0 := by
  unfold getTaskIndex at h
  dsimp only at h
  split at h
  · exact ⟨(Prod.mk.inj h).2.symm, by assumption⟩
  · cases h

/-- The index is the place `getTask` reads. -/
theorem getTask_eq : getTask tasks functionCount =
    ((getTaskIndex functionCount).1.bind fun k => tasks[k.toNat]?, (getTaskIndex functionCount).2) := by
  unfold getTask getTaskIndex
  dsimp only
  split <;> rfl

/-- Where the counter, the indices that are out and the workers stand. -/
structure Accounted (tasks : List String) (n : Nat) (trace : List Event) (q : Queue) : Prop where
  le : q.functionCount ≤ tasks.length
  /-- The indices from the counter up have been handed out, the lowest one last. -/
  order : (handedOut trace).map Prod.snd =
    ((List.range tasks.length).drop q.functionCount.toNat).map Int.ofNat
  /-- An index that is out has been traversed, or its worker is still at it. -/
  balance : ∀ i k, (handedOut trace).count (i, k) =
    (traversals trace).count (i, k) + if q.status i = .traversing k then 1 else 0
  workers : ∀ c ∈ handedOut trace, c.1 < n
  ended : ∀ i, q.status i = .ended → .refused i ∈ trace ∧ q.functionCount < 0

/-- The next index in the order is the one below the counter. -/
theorem Accounted.handed (h : Accounted tasks n trace q) (hi : i < n) (hasking : q.status i = .asking)
    (hindex : getTaskIndex q.functionCount = (some k, functionCount)) :
    Accounted tasks n (.handed i k :: trace)
      { functionCount, status := Function.update q.status i (.traversing k) } := by
  obtain ⟨rfl, rfl, hnonneg⟩ := @getTaskIndex_eq_some _ _ ⟨functionCount, q.status⟩ hindex
  have hle := h.le
  refine ⟨by dsimp only; omega, ?_, fun j k => ?_, ?_, fun j hj => ?_⟩
  · have hlt : (q.functionCount - 1).toNat < (List.range tasks.length).length := by
      rw [List.length_range]
      omega
    have hnext : (q.functionCount - 1).toNat + 1 = q.functionCount.toNat := by omega
    have hfirst : Int.ofNat (q.functionCount - 1).toNat = q.functionCount - 1 :=
      Int.toNat_of_nonneg hnonneg
    dsimp only
    rw [List.drop_eq_getElem_cons hlt, hnext, List.map_cons, List.getElem_range, hfirst,
      handedOut_handed, List.map_cons, h.order]
  · have hbalance := h.balance j k
    simp only [handedOut_handed, traversals_handed, List.count_cons, hbalance]
    by_cases hj : j = i
    · subst hj
      simp [hasking]
    · simp [hj, Ne.symm hj]
  · intro c hc
    rcases List.mem_cons.mp hc with rfl | hc
    · exact hi
    · exact h.workers c hc
  · by_cases hij : j = i
    · subst hij
      simp at hj
    · have hended := (h.ended j (by simpa [hij] using hj)).2
      omega

/-- The counter is at the end of the order and stays there. -/
theorem Accounted.refused (h : Accounted tasks n trace q) (hasking : q.status i = .asking)
    (hindex : getTaskIndex q.functionCount = (none, functionCount)) :
    Accounted tasks n (.refused i :: trace)
      { functionCount, status := Function.update q.status i .ended } := by
  obtain ⟨rfl, hneg⟩ := @getTaskIndex_eq_none _ ⟨functionCount, q.status⟩ hindex
  have hle := h.le
  refine ⟨by dsimp only; omega, ?_, fun j k => ?_, h.workers, fun j hj => ?_⟩
  · have hcount : (q.functionCount - 1).toNat = q.functionCount.toNat := by omega
    dsimp only
    rw [hcount]
    exact h.order
  · have hbalance := h.balance j k
    simp only [handedOut_refused, traversals_refused, hbalance]
    by_cases hj : j = i
    · subst hj
      simp [hasking]
    · simp [hj]
  · by_cases hij : j = i
    · exact ⟨hij ▸ List.mem_cons_self, hneg⟩
    · have hended := (h.ended j (by simpa [hij] using hj)).1
      exact ⟨List.mem_cons_of_mem _ hended, hneg⟩

theorem Accounted.traversed (h : Accounted tasks n trace q) (hat : q.status i = .traversing k) :
    Accounted tasks n (.traversed i k :: trace)
      { q with status := Function.update q.status i .asking } := by
  refine ⟨h.le, h.order, fun j l => ?_, h.workers, fun j hj => ?_⟩
  · have hbalance := h.balance j l
    simp only [handedOut_traversed, traversals_traversed, List.count_cons, hbalance]
    by_cases hj : j = i
    · subst hj
      simp [hat]
    · simp [hj, Ne.symm hj]
  · by_cases hij : j = i
    · subst hij
      simp at hj
    · have hended := h.ended j (by simpa [hij] using hj)
      exact ⟨List.mem_cons_of_mem _ hended.1, hended.2⟩

theorem accounted_of_queueRun (h : QueueRun tasks n trace q) : Accounted tasks n trace q := by
  induction h with
  | start => exact ⟨Int.le_refl _, by simp [handedOut], by simp [handedOut, traversals], nofun, nofun⟩
  | hand _ hi hasking hindex ih => exact ih.handed hi hasking hindex
  | refuse _ _ hasking hindex ih => exact ih.refused hasking hindex
  | finish _ _ hat ih => exact ih.traversed hat

theorem nodup_handedOut (h : QueueRun tasks n trace q) : ((handedOut trace).map Prod.snd).Nodup := by
  rw [(accounted_of_queueRun h).order]
  exact (List.nodup_range.sublist (List.drop_sublist _ _)).map fun _ _ => Int.ofNat.inj

theorem handedOut_range (h : QueueRun tasks n trace q) :
    ∀ c ∈ handedOut trace, 0 ≤ c.2 ∧ c.2 < tasks.length := by
  intro c hc
  have hmem : c.2 ∈ (handedOut trace).map Prod.snd := List.mem_map_of_mem hc
  rw [(accounted_of_queueRun h).order] at hmem
  obtain ⟨k, hk, hck⟩ := List.mem_map.mp hmem
  have hlt := List.mem_range.mp ((List.drop_sublist _ _).subset hk)
  rw [← hck]
  exact ⟨Int.natCast_nonneg k, Int.ofNat_lt.mpr hlt⟩

/-- In the end every index is out, and what is out has been traversed. -/
theorem traversals_perm (h : QueueRun tasks n trace q) (hended : AllEnded n q) :
    (handedOut trace).Perm (traversals trace) := by
  have haccounted := accounted_of_queueRun h
  refine List.perm_iff_count.mpr fun c => ?_
  have hbalance := haccounted.balance c.1 c.2
  by_cases hc : c.1 < n
  · simpa [hended c.1 hc] using hbalance
  · have hnone : (handedOut trace).count (c.1, c.2) = 0 :=
      List.count_eq_zero.mpr fun hmem => hc (haccounted.workers _ hmem)
    have hzero : (traversals trace).count (c.1, c.2) = 0 := by omega
    exact hnone.trans hzero.symm

theorem all_handedOut (h : QueueRun tasks n trace q) (hended : AllEnded n q)
    (hworkers : tasks ≠ [] → 0 < n) : (handedOut trace).map Prod.snd =
      (List.range tasks.length).map Int.ofNat := by
  have haccounted := accounted_of_queueRun h
  rw [haccounted.order]
  by_cases htasks : tasks = []
  · simp [htasks]
  · have hneg := (haccounted.ended 0 (hended 0 (hworkers htasks))).2
    rw [Int.toNat_of_nonpos (by omega), List.drop_zero]

/-- Where no two elements have the same value, each is alone with its value. -/
theorem filter_of_nodup_map {α β : Type} [DecidableEq β] {f : α → β} {l : List α} {a : α}
    (h : (l.map f).Nodup) (ha : a ∈ l) : l.filter (fun b => f b = f a) = [a] := by
  induction l with
  | nil => cases ha
  | cons b l ih =>
    obtain ⟨hb, hl⟩ := List.nodup_cons.mp h
    rcases List.mem_cons.mp ha with rfl | ha
    · have hrest : l.filter (fun b => f b = f a) = [] := by
        rw [List.filter_eq_nil_iff]
        intro c hc heq
        exact hb (List.mem_map.mpr ⟨c, hc, of_decide_eq_true heq⟩)
      rw [List.filter_cons, if_pos (by simp), hrest]
    · have hne : ¬ f b = f a := fun heq => hb (heq ▸ List.mem_map_of_mem ha)
      rw [List.filter_cons_of_neg (by simpa using hne), ih hl ha]

end Runs

/-- Each index is handed out once and in range, a worker that has ended has been
refused, and when all have ended every entry point has been traversed by one worker. -/
theorem queue_exact (tasks : List String) (n : Nat) {trace : List Event} {q : Queue}
    (h : QueueRun tasks n trace q) :
    ((handedOut trace).map Prod.snd).Nodup ∧
      (∀ c ∈ handedOut trace, 0 ≤ c.2 ∧ c.2 < tasks.length) ∧
      (∀ i, q.status i = .ended → .refused i ∈ trace) ∧
      (AllEnded n q → (tasks ≠ [] → 0 < n) → ∀ k : Nat, k < tasks.length →
        ∃ i < n, (traversals trace).filter (fun c : Nat × Int => c.2 = k) = [(i, (k : Int))]) := by
  have haccounted := accounted_of_queueRun h
  refine ⟨nodup_handedOut h, handedOut_range h, fun i hi => (haccounted.ended i hi).1, ?_⟩
  intro hended hworkers k hk
  have hout : (k : Int) ∈ (handedOut trace).map Prod.snd := by
    rw [all_handedOut h hended hworkers]
    exact List.mem_map.mpr ⟨k, List.mem_range.mpr hk, rfl⟩
  obtain ⟨⟨i, k'⟩, hmem, rfl⟩ := List.mem_map.mp hout
  have hone := filter_of_nodup_map (nodup_handedOut h) hmem
  have hperm := (traversals_perm h hended).filter fun c : Nat × Int => c.2 = k
  rw [hone] at hperm
  exact ⟨i, haccounted.workers _ hmem, (List.singleton_perm.mp hperm).symm⟩

/-- One task for two workers; the second one is refused while the first one is busy. -/
theorem queue_exact_two : ∃ trace q, QueueRun ["f"] 2 trace q ∧ AllEnded 2 q ∧
    ((handedOut trace).map Prod.snd).Nodup ∧
      (∀ c ∈ handedOut trace, 0 ≤ c.2 ∧ c.2 < ["f"].length) ∧
      (∀ i, q.status i = .ended → .refused i ∈ trace) ∧
      (AllEnded 2 q → (["f"] ≠ [] → 0 < 2) → ∀ k : Nat, k < ["f"].length →
        ∃ i < 2, (traversals trace).filter (fun c : Nat × Int => c.2 = k) = [(i, (k : Int))]) := by
  have hrun : QueueRun ["f"] 2 [.refused 0, .traversed 0 0, .refused 1, .handed 0 0] _ :=
    .refuse (.finish (.refuse (.hand .start (i := 0) (by simp) rfl rfl) (i := 1) (by simp) rfl rfl)
      (by simp) rfl) (by simp) rfl rfl
  refine ⟨_, _, hrun, fun i hi => ?_, queue_exact _ _ hrun⟩
  obtain rfl | rfl : i = 0 ∨ i = 1 := by omega
  · rfl
  · rfl

/-! ## The pool -/

/-- The workers of the pool are on the queue, each traversing a task as it is handed out. -/
theorem queueRun_of_poolRun {m : IRModule} {opts : Options} {tasks : List String}
    {taken : List (Nat × String)} {pool : Pool} (h : PoolRun m opts tasks taken pool) :
    ∃ trace q, QueueRun tasks (threadPoolSize tasks) trace q ∧
      q.functionCount = pool.functionCount ∧
      (∀ i, q.status i = if pool.finished i = true then .ended else .asking) ∧
      (handedOut trace).map (fun c => (c.1, tasks[c.2.toNat]?)) =
        (taken.map fun c => (c.1, some c.2)) ∧
      traversals trace = handedOut trace := by
  induction h with
  | start => exact ⟨[], _, .start, rfl, fun _ => rfl, rfl, rfl⟩
  | @task taken pool i f functionCount n r w _ hi hbusy htask _ ih =>
    obtain ⟨trace, q, hrun, hcount, hstatus, htaken, hsame⟩ := ih
    obtain ⟨rfl, hnonneg, hf⟩ := getTask_eq_some htask
    have hasking : q.status i = .asking := by simp [hstatus, hbusy]
    have hindex : getTaskIndex q.functionCount =
        (some (pool.functionCount - 1), pool.functionCount - 1) := by
      rw [hcount, getTaskIndex, if_neg (by omega)]
    refine ⟨_, _, .finish (.hand hrun hi hasking hindex) hi (Function.update_self ..), rfl, ?_, ?_,
      ?_⟩
    · intro j
      by_cases hj : j = i
      · subst hj
        simp [hbusy]
      · simp [hj, hstatus]
    · simp only [handedOut_traversed, handedOut_handed, List.map_cons, htaken, hf]
    · simp only [traversals_traversed, traversals_handed, handedOut_traversed, handedOut_handed,
        hsame]
  | @done taken pool i functionCount hpool hi hbusy hnone ih =>
    obtain ⟨trace, q, hrun, hcount, hstatus, htaken, hsame⟩ := ih
    obtain ⟨rfl, hneg⟩ := getTask_eq_none (counted_of_poolRun hpool).le hnone
    have hasking : q.status i = .asking := by simp [hstatus, hbusy]
    have hindex : getTaskIndex q.functionCount = (none, pool.functionCount - 1) := by
      rw [hcount, getTaskIndex, if_pos hneg]
    refine ⟨_, _, .refuse hrun hi hasking hindex, rfl, fun j => ?_, htaken, hsame⟩
    by_cases hj : j = i
    · subst hj
      simp
    · simp [hj, hstatus]

theorem queueRun_of_poolRun_sharing : ∃ pool trace q,
    PoolRun sharing {} entryPoints [(0, "serve"), (1, "start")] pool ∧
    QueueRun entryPoints (threadPoolSize entryPoints) trace q ∧
    (handedOut trace).map (fun c => (c.1, entryPoints[c.2.toNat]?)) =
      [(0, some "serve"), (1, some "start")] ∧
    traversals trace = handedOut trace := by
  obtain ⟨pool, hrun, -⟩ := sharing_two
  obtain ⟨trace, q, hqueue, -, -, htaken, hsame⟩ := queueRun_of_poolRun hrun
  exact ⟨pool, trace, q, hrun, hqueue, htaken, hsame⟩

end Lockout.Strator.TaskQueue
