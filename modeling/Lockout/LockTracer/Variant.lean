import Lockout.LockTracer.LastLock

/-! # The variant `LockTracer-lp.cpp`

The variant treats a requested mutex without a component number as one with the number
1000000. The number of the last mutex is read with `operator[]`, which enters 0
when there is none: from then on the mutex has the number 0 when it is requested. -/

namespace Lockout.LockTracer.Variant
open Std
open Lockout.Lib.DepthFirst Lockout.LockTracer.Graph Lockout.LockTracer.Threads Lockout.LockTracer.Components
open Lockout.LockTracer.Events Lockout.LockTracer.LastLock

/-- `checkSCC` of `LockTracer-lp.cpp`. -/
def checkSCC : Tracer → Pthread → LockAddress → Bool × Tracer := checkSCCWith 1000000

/-- `LockTracer::beforeLock` of the variant. -/
def beforeLock (s : Tracer) (t : Pthread) (m : LockAddress) (_loc : Location) : Bool × Tracer :=
  checkSCC (s.self t) t m

/-- The other hooks are those of `LockTracer.cpp`. -/
def step (s : Tracer) : Event → Option Tracer
  | .beforeLock t m loc => some (beforeLock s t m loc).2
  | .afterLock t m loc => some (afterLock s t m loc)
  | .afterUnlock t m loc => afterUnlock s t m loc

def run : Tracer → List Event → Option Tracer
  | s, [] => some s
  | s, e :: es => (step s e).bind fun s => run s es

/-- The request is delayed. -/
def Delays (s : Tracer) (t : Pthread) (lock : LockAddress) (loc : Location) : Prop :=
  (beforeLock s t lock loc).1 = true

/-- The thread holds something. -/
def Holds (s : Tracer) (t : Pthread) : Prop := (s.thread t).diffLocksHeldNum ≠ 0

instance (s : Tracer) (t : Pthread) : Decidable (Holds s t) :=
  inferInstanceAs (Decidable ((s.thread t).diffLocksHeldNum ≠ 0))

/-- The mutex whose number the event reads as that of a last mutex. -/
def compared (s : Tracer) : Event → Option LockAddress
  | .beforeLock t _ _ => if Holds s t then lastLocked (s.thread t) else none
  | _ => none

/-- Some request of the run was made by a thread that held something and had locked the
mutex last. -/
def ComparedWith (m : LockAddress) : Tracer → List Event → Prop
  | _, [] => False
  | s, e :: es => compared s e = some m ∨ ∃ s', step s e = some s' ∧ ComparedWith m s' es

/-! ## The numbers of a run -/

/-- Counts and histories of all threads are right. -/
def AllRecorded (s : Tracer) : Prop := ∀ t, Recorded (s.thread t)

section Numbers
variable {s s' : Tracer} {t u : Pthread} {lock m : LockAddress} {loc : Location} {e : Event}

@[simp] theorem thread_beforeLock : (beforeLock s t lock loc).2.thread u = s.thread u := by
  refine Eq.trans ?_ (@Tracer.thread_self s t u)
  unfold beforeLock checkSCC checkSCCWith
  dsimp only
  split <;> rfl

theorem AllRecorded.step (h : AllRecorded s) (he : step s e = some s') : AllRecorded s' := by
  intro u
  cases e with
  | beforeLock t m loc =>
    obtain rfl := Option.some.inj he
    rw [thread_beforeLock]
    exact h u
  | afterLock t m loc =>
    obtain rfl := Option.some.inj he
    rw [thread_afterLock]
    split
    · exact (h t).lock
    · exact h u
  | afterUnlock t m loc =>
    obtain ⟨th, hth, hthread⟩ := thread_afterUnlock he
    rw [hthread]
    split
    · exact (h t).unlock hth
    · exact h u

/-- `lockHistory.back().second` of a thread that holds something. -/
theorem lastLocked_of_holds (h : Recorded (s.thread t)) (hholds : Holds s t) :
    lastLocked (s.thread t) = some ((s.thread t).lockHistory.getLastD (0, 0)).2 := by
  obtain ⟨m, hm⟩ := h.diff_ne_zero.mp hholds
  obtain ⟨op, hop, -⟩ := h.history m hm
  have hne := List.ne_nil_of_mem hop
  rw [lastLocked, List.getLast?_eq_some_getLast hne, List.getLastD_eq_getLast?,
    List.getLast?_eq_some_getLast hne]
  rfl

theorem component_beforeLock : (beforeLock s t lock loc).2.component =
    if Holds s t then s.component.insertIfNew ((s.thread t).lockHistory.getLastD (0, 0)).2 0
    else s.component := by
  have hthread : ∀ g, Tracer.thread { s.self t with RAOG := g } t = s.thread t := fun _ =>
    Tracer.thread_self
  unfold beforeLock checkSCC checkSCCWith
  dsimp only
  rw [hthread, component_self]
  by_cases hholds : (s.thread t).diffLocksHeldNum ≠ 0
  · rw [if_pos hholds, if_pos (show Holds s t from hholds)]
  · rw [if_neg hholds, if_neg (show ¬ Holds s t from hholds)]

/-- A thread that holds something is delayed when the number of its last mutex, or 0, is
not above the number of the requested one, or 1000000. -/
theorem delays_iff : Delays s t lock loc ↔
    (if Holds s t then s.component.getD ((s.thread t).lockHistory.getLastD (0, 0)).2 0
      else 10000000) ≤ s.component.getD lock 1000000 := by
  have hthread : ∀ g, Tracer.thread { s.self t with RAOG := g } t = s.thread t := fun _ =>
    Tracer.thread_self
  have hread : ∀ m : LockAddress, (s.component.insertIfNew m 0).getD m 0 = s.component.getD m 0 := by
    intro m
    rw [TreeMap.getD_insertIfNew]
    split
    · rename_i hnew
      exact (TreeMap.getD_eq_fallback hnew.2).symm
    · rfl
  unfold Delays beforeLock checkSCC checkSCCWith
  dsimp only
  rw [hthread, component_self]
  by_cases hholds : (s.thread t).diffLocksHeldNum ≠ 0
  · rw [if_pos hholds, if_pos (show Holds s t from hholds), decide_eq_true_iff, hread]
  · rw [if_neg hholds, if_neg (show ¬ Holds s t from hholds), decide_eq_true_iff]

/-- The number of a mutex after one event. -/
theorem component_step (h : AllRecorded s) (he : step s e = some s') :
    s'.component[m]? =
      (s.component[m]?).or (if compared s e = some m then some 0 else none) := by
  cases e with
  | beforeLock t lock loc =>
    obtain rfl := Option.some.inj he
    rw [component_beforeLock, compared]
    by_cases hholds : Holds s t
    · rw [if_pos hholds, if_pos hholds, lastLocked_of_holds (h t) hholds,
        TreeMap.getElem?_insertIfNew]
      generalize ((s.thread t).lockHistory.getLastD (0, 0)).2 = last
      by_cases hlast : last = m
      · subst hlast
        cases hnum : s.component[last]? with
        | none => simp [TreeMap.mem_iff_isSome_getElem?, hnum]
        | some c => simp [TreeMap.mem_iff_isSome_getElem?, hnum]
      · simp [hlast]
    · simp [hholds]
  | afterLock t lock loc =>
    obtain rfl := Option.some.inj he
    simp [component_afterLock, compared]
  | afterUnlock t lock loc =>
    simp [component_afterUnlock he, compared]

open Classical in
/-- The number of a mutex after a run: the one it had, or 0 if it was compared with. -/
theorem component_run {es : List Event} (h : AllRecorded s) (hrun : run s es = some s') :
    s'.component[m]? =
      (s.component[m]?).or (if ComparedWith m s es then some 0 else none) := by
  induction es generalizing s with
  | nil =>
    obtain rfl := Option.some.inj hrun
    simp [ComparedWith]
  | cons e es ih =>
    obtain ⟨mid, hmid, hrest⟩ := Option.bind_eq_some_iff.mp hrun
    have hiff : ComparedWith m s (e :: es) ↔ compared s e = some m ∨ ComparedWith m mid es := by
      simp [ComparedWith, hmid]
    rw [ih (h.step hmid) hrest, component_step h hmid, Option.or_assoc]
    congr 1
    by_cases hnow : compared s e = some m
    · simp [hiff, hnow]
    · simp [hiff, hnow]

end Numbers

/-! ## Numbers of a loaded graph -/

/-- `findSCC` numbers from 1 on, whatever the graph. -/
theorem one_le_of_numberAll {ord : NodeOrder} {g : LockGraph} {queue : List LockAddress}
    {n n' : Numbering} (hnum : 0 ≤ n.componentNum)
    (hn : ∀ (v : LockAddress) (c : Int), n.component[v]? = some c → 1 ≤ c)
    (hrun : numberAll ord g queue n = some n') :
    ∀ (v : LockAddress) (c : Int), n'.component[v]? = some c → 1 ≤ c := by
  induction queue generalizing n with
  | nil =>
    obtain rfl := Option.some.inj hrun
    exact hn
  | cons node queue ih =>
    unfold numberAll at hrun
    split at hrun
    · exact ih hnum hn hrun
    · rename_i hnode
      obtain ⟨⟨visited, component⟩, hassign, hrest⟩ := Option.bind_eq_some_iff.mp hrun
      obtain ⟨⟨hnew, hold⟩, -⟩ := visit_rule (addsNumber_rule _ _) trivial hnode hassign
      refine ih (by dsimp only; omega) ?_ hrest
      intro v c hc
      dsimp only at hc hnew hold
      by_cases hv : v ∈ visited ∧ v ∉ n.visited
      · rw [hnew v hv.1 hv.2] at hc
        obtain rfl := Option.some.inj hc
        omega
      · refine hn v c ?_
        rw [← hold v (by tauto)]
        exact hc

theorem one_le_of_start {ord : NodeOrder} {g : LockGraph} {s : Tracer}
    (hstart : start ord g = some s) {v : LockAddress} {c : Int} (hc : s.component[v]? = some c) :
    1 ≤ c := by
  obtain ⟨n, hn, rfl⟩ := Option.map_eq_some_iff.mp hstart
  obtain ⟨queue, -, hrun⟩ := Option.bind_eq_some_iff.mp hn
  exact one_le_of_numberAll (Int.le_refl 0) (by simp) hrun v c hc

/-- The four values a decision is meant to depend on: the numbering of `findSCC`, whether
the thread holds something, its last mutex, and (the same in both) the requested one. -/
structure SameValues (s₀ s₁ s s' : Tracer) (t t' : Pthread) : Prop where
  numbering : ∀ m : LockAddress, s₀.component[m]? = s₁.component[m]?
  holds : Holds s t ↔ Holds s' t'
  last : lastLocked (s.thread t) = lastLocked (s'.thread t')

/-- The request reads 1000000 or 0 for its mutex, and the number of the last mutex lies
between. -/
def Sensitive (s₀ s : Tracer) (t : Pthread) (lock : LockAddress) : Prop :=
  s₀.component[lock]? = none ∧ Holds s t ∧
    ∃ m c, lastLocked (s.thread t) = some m ∧ s₀.component[m]? = some c ∧ c ≤ 1000000

section Decisions
variable {ord ord' : NodeOrder} {g g' : LockGraph} {s₀ s₁ s s' : Tracer} {es es' : List Event}
  {t t' : Pthread} {lock : LockAddress} {loc : Location}

theorem allRecorded_of_run (hstart : start ord g = some s₀) (hrun : run s₀ es = some s) :
    AllRecorded s₀ ∧ AllRecorded s := by
  have hnew : AllRecorded s₀ := by
    obtain ⟨n, -, rfl⟩ := Option.map_eq_some_iff.mp hstart
    exact fun _ => recorded_new
  refine ⟨hnew, ?_⟩
  clear hstart
  induction es generalizing s₀ with
  | nil => exact Option.some.inj hrun ▸ hnew
  | cons e es ih =>
    obtain ⟨mid, hmid, hrest⟩ := Option.bind_eq_some_iff.mp hrun
    exact ih hrest (hnew.step hmid)

open Classical in
/-- The decision after a run, by the numbers at its start. -/
theorem delays_run_iff (hstart : start ord g = some s₀) (hrun : run s₀ es = some s) :
    Delays s t lock loc ↔
      (if Holds s t then ((lastLocked (s.thread t)).bind (s₀.component[·]?)).getD 0
        else 10000000) ≤
      (s₀.component[lock]?).getD (if ComparedWith lock s₀ es then 0 else 1000000) := by
  obtain ⟨hnew, hrecorded⟩ := allRecorded_of_run hstart hrun
  have hlock : s.component.getD lock 1000000 =
      (s₀.component[lock]?).getD (if ComparedWith lock s₀ es then 0 else 1000000) := by
    rw [TreeMap.getD_eq_getD_getElem?, component_run hnew hrun]
    cases s₀.component[lock]? with
    | some c => rfl
    | none => split <;> rfl
  have hlast : ∀ m, s.component.getD m 0 = (s₀.component[m]?).getD 0 := by
    intro m
    rw [TreeMap.getD_eq_getD_getElem?, component_run hnew hrun]
    cases s₀.component[m]? with
    | some c => rfl
    | none => split <;> rfl
  rw [delays_iff, hlock]
  by_cases hholds : Holds s t
  · rw [if_pos hholds, if_pos hholds, lastLocked_of_holds (hrecorded t) hholds, hlast]
    rfl
  · rw [if_neg hholds, if_neg hholds]

/-- Two requests for one mutex with the same four values, in any two runs on graphs with
the same numbering, get the same decision exactly when the mutex and the last one are not
of the sensitive kind or the mutex was compared with in both runs or in neither. -/
theorem same_decision_iff (hstart : start ord g = some s₀) (hstart' : start ord' g' = some s₁)
    (hrun : run s₀ es = some s) (hrun' : run s₁ es' = some s')
    (hsame : SameValues s₀ s₁ s s' t t') (loc' : Location) :
    (Delays s t lock loc ↔ Delays s' t' lock loc') ↔
      ¬ Sensitive s₀ s t lock ∨ (ComparedWith lock s₀ es ↔ ComparedWith lock s₁ es') := by
  classical
  have hnumber : (s₁.component[·]? : LockAddress → Option Int) = (s₀.component[·]?) :=
    funext fun m => (hsame.numbering m).symm
  rw [delays_run_iff hstart hrun, delays_run_iff hstart' hrun', ← hsame.numbering lock, hnumber,
    ← hsame.last, Sensitive]
  simp only [← hsame.holds]
  cases hlock : s₀.component[lock]? with
  | some c => simp
  | none =>
    have hnonneg : ∀ ran : Prop, 0 ≤ (none : Option Int).getD (if ran then 0 else 1000000) ∧
        (none : Option Int).getD (if ran then 0 else 1000000) ≤ 1000000 := by
      intro ran
      rw [Option.getD_none]
      split <;> omega
    by_cases hholds : Holds s t
    · simp only [if_pos hholds]
      cases hlast : (lastLocked (s.thread t)).bind (s₀.component[·]?) with
      | none =>
        -- a last mutex without a number counts as 0, and everything is delayed
        have hnot : ¬ ∃ m c, lastLocked (s.thread t) = some m ∧ s₀.component[m]? = some c ∧
            c ≤ 1000000 := by
          rintro ⟨m, c, hm, hc, -⟩
          rw [hm, Option.bind_some, hc] at hlast
          cases hlast
        exact iff_of_true (iff_of_true (hnonneg _).1 (hnonneg _).1) (.inl fun h => hnot h.2.2)
      | some c =>
        obtain ⟨m, hm, hc⟩ := Option.bind_eq_some_iff.mp hlast
        have hone := one_le_of_start hstart hc
        have hsensitive : (∃ m c, lastLocked (s.thread t) = some m ∧ s₀.component[m]? = some c ∧
            c ≤ 1000000) ↔ c ≤ 1000000 := by
          constructor
          · rintro ⟨m', c', hm', hc', hle⟩
            obtain rfl := Option.some.inj (hm.symm.trans hm')
            obtain rfl := Option.some.inj (hc.symm.trans hc')
            exact hle
          · exact fun hle => ⟨m, c, hm, hc, hle⟩
        rw [hsensitive]
        by_cases hran : ComparedWith lock s₀ es <;> by_cases hran' : ComparedWith lock s₁ es' <;>
          simp [hran, hran', hholds] <;> omega
    · -- 10000000 is above what an unnumbered mutex can count as
      simp only [if_neg hholds]
      refine iff_of_true (iff_of_false ?_ ?_) (.inl fun h => hholds h.2.1)
      · have := hnonneg (ComparedWith lock s₀ es)
        omega
      · have := hnonneg (ComparedWith lock s₁ es')
        omega

/-- Thread 7 holds mutex 2. -/
def early : List Event := [.afterLock 7 2 0]

/-- Then thread 8 locks mutex 9, which is not in the loaded graph, and asks for mutex 1. -/
def later : List Event := [.afterLock 7 2 0, .afterLock 8 9 0, .beforeLock 8 1 0]

theorem runs_crossing : ∃ s₀ s s', start .byAddress crossing = some s₀ ∧ run s₀ early = some s ∧
    run s₀ later = some s' ∧ SameValues s₀ s₀ s s' 7 7 ∧ s₀.component[1]? = some 2 ∧
      Delays s 7 9 0 ∧ ¬ Delays s' 7 9 0 := by
  have hexec : (start .byAddress crossing).bind (fun s₀ => (run s₀ early).bind fun s =>
      (run s₀ later).map fun s' => ((s₀.component[1]?, (beforeLock s 7 9 0).1,
        (beforeLock s' 7 9 0).1), ((s.thread 7).diffLocksHeldNum, lastLocked (s.thread 7)),
        ((s'.thread 7).diffLocksHeldNum, lastLocked (s'.thread 7)))) =
      some ((some 2, true, false), (1, some 2), (1, some 2)) := by decide
  obtain ⟨s₀, hstart, hexec⟩ := Option.bind_eq_some_iff.mp hexec
  obtain ⟨s, hrun, hexec⟩ := Option.bind_eq_some_iff.mp hexec
  obtain ⟨s', hrun', hobs⟩ := Option.map_eq_some_iff.mp hexec
  simp only [Prod.mk.injEq] at hobs
  obtain ⟨⟨hone, hdelays, hdelays'⟩, ⟨hnum, hlast⟩, hnum', hlast'⟩ := hobs
  refine ⟨s₀, s, s', hstart, hrun, hrun', ⟨fun _ => rfl, ?_, hlast.trans hlast'.symm⟩, hone,
    hdelays, ?_⟩
  · exact iff_of_true (by rw [Holds, hnum]; decide) (by rw [Holds, hnum']; decide)
  · rw [Delays, hdelays']
    decide

/-- A request for the loaded mutex 1 is decided as it was before. -/
theorem same_decision_iff_crossing : ∃ s₀ s s', start .byAddress crossing = some s₀ ∧
    run s₀ early = some s ∧ run s₀ later = some s' ∧ (Delays s 7 1 0 ↔ Delays s' 7 1 0) := by
  obtain ⟨s₀, s, s', hstart, hrun, hrun', hsame, hone, -⟩ := runs_crossing
  refine ⟨s₀, s, s', hstart, hrun, hrun',
    (same_decision_iff hstart hstart hrun hrun' hsame 0).mpr (.inl fun h => ?_)⟩
  rw [h.1] at hone
  cases hone

/-- The request for mutex 9 is delayed before thread 8 has compared with it, not after. -/
theorem decision_changes : ¬ ∀ (ord : NodeOrder) (g : LockGraph) (s₀ s s' : Tracer)
    (es es' : List Event) (t t' : Pthread) (lock : LockAddress) (loc : Location),
    start ord g = some s₀ → run s₀ es = some s → run s₀ es' = some s' →
    SameValues s₀ s₀ s s' t t' → (Delays s t lock loc ↔ Delays s' t' lock loc) := by
  intro hall
  obtain ⟨s₀, s, s', hstart, hrun, hrun', hsame, -, hdelays, hdelays'⟩ := runs_crossing
  exact hdelays' ((hall _ _ s₀ s s' _ _ 7 7 9 0 hstart hrun hrun' hsame).mp hdelays)

end Decisions

end Lockout.LockTracer.Variant
