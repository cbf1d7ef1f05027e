import Mathlib.Data.Finset.Card
import Mathlib.Tactic.Tauto
import Lockout.LockTracer.Components

/-! # Runs of hook events

A run of the tracer is a sequence of hook calls, each made by some thread under
`tracerBigLock`. The first part says what one event changes; the second follows
the delay decision and the edge weights of `RAOG` through whole runs. A run that
fails an assertion has no final state. -/

namespace Lockout.LockTracer.Events
open Std
open Lockout.LockTracer.Graph Lockout.LockTracer.Threads Lockout.LockTracer.Components

inductive Event where
  | beforeLock (t : Pthread) (m : LockAddress) (loc : Location)
  | afterLock (t : Pthread) (m : LockAddress) (loc : Location)
  | afterUnlock (t : Pthread) (m : LockAddress) (loc : Location)

/-- `LockTracer::beforeLock`: the decision of `checkSCC` and the state after it. -/
def beforeLock (s : Tracer) (t : Pthread) (m : LockAddress) (_loc : Location) : Bool × Tracer :=
  checkSCC (s.self t) t m

/-- `LockTracer::afterLock`. -/
def afterLock (s : Tracer) (t : Pthread) (m : LockAddress) (loc : Location) : Tracer :=
  (s.self t).lock t (loc, m)

/-- `LockTracer::afterUnlock`. -/
def afterUnlock (s : Tracer) (t : Pthread) (m : LockAddress) (loc : Location) : Option Tracer :=
  (s.self t).unlock t (loc, m)

def step (s : Tracer) : Event → Option Tracer
  | .beforeLock t m loc => some (beforeLock s t m loc).2
  | .afterLock t m loc => some (afterLock s t m loc)
  | .afterUnlock t m loc => afterUnlock s t m loc

def run : Tracer → List Event → Option Tracer
  | s, [] => some s
  | s, e :: es => (step s e).bind fun s => run s es

/-! ## What one event changes -/

section Effects
variable {s s' : Tracer} {t u : Pthread} {m a b : LockAddress} {loc : Location}

@[simp] theorem RAOG_self : (s.self t).RAOG = s.RAOG := by
  unfold Tracer.self; split <;> rfl

@[simp] theorem component_self : (s.self t).component = s.component := by
  unfold Tracer.self; split <;> rfl

@[simp] theorem lockThreadMap_self : (s.self t).lockThreadMap = s.lockThreadMap := by
  unfold Tracer.self; split <;> rfl

@[simp] theorem allLocksHeld_self : (s.self t).allLocksHeld = s.allLocksHeld := by
  unfold Tracer.self; split <;> rfl

@[simp] theorem thread_beforeLock : (beforeLock s t m loc).2.thread u = s.thread u := by
  refine Eq.trans ?_ (@Tracer.thread_self s t u)
  unfold beforeLock checkSCC checkSCCWith
  dsimp only
  split <;> rfl

@[simp] theorem lockThreadMap_beforeLock :
    (beforeLock s t m loc).2.lockThreadMap = s.lockThreadMap := by
  rw [← lockThreadMap_self (s := s) (t := t)]
  unfold beforeLock checkSCC checkSCCWith
  dsimp only
  split <;> rfl

@[simp] theorem allLocksHeld_beforeLock :
    (beforeLock s t m loc).2.allLocksHeld = s.allLocksHeld := by
  rw [← allLocksHeld_self (s := s) (t := t)]
  unfold beforeLock checkSCC checkSCCWith
  dsimp only
  split <;> rfl

/-- A request only adds nodes to the graph. -/
theorem outEdges_beforeLock : (beforeLock s t m loc).2.RAOG.outEdges a = s.RAOG.outEdges a := by
  rw [← RAOG_self (s := s) (t := t)]
  unfold beforeLock checkSCC checkSCCWith
  dsimp only
  split <;> simp

theorem getElem?_insertIfNew_of_some {component : TreeMap LockAddress Int} {k : LockAddress}
    {c d : Int} (h : component[a]? = some c) : (component.insertIfNew k d)[a]? = some c := by
  rw [TreeMap.getElem?_insertIfNew, if_neg]
  · exact h
  · rintro ⟨he, hn⟩
    have hka : k = a := by simpa using he
    exact hn (TreeMap.mem_iff_isSome_getElem?.mpr (by rw [hka, h]; rfl))

/-- A request keeps every number that is already there. -/
theorem component_beforeLock {c : Int} (h : s.component[a]? = some c) :
    (beforeLock s t m loc).2.component[a]? = some c := by
  rw [← component_self (t := t)] at h
  unfold beforeLock checkSCC checkSCCWith
  dsimp only
  split
  · exact getElem?_insertIfNew_of_some h
  · exact h

@[simp] theorem thread_afterLock : (afterLock s t m loc).thread u =
    if u = t then (s.thread t).lock (loc, m) else s.thread u := by
  simp [afterLock, Tracer.thread_lock]

@[simp] theorem component_afterLock : (afterLock s t m loc).component = s.component :=
  component_self

theorem weight_afterLock : (afterLock s t m loc).RAOG.weight a b =
    s.RAOG.weight a b + if b = m ∧ 0 < s.held t a then 1 else 0 := by
  unfold afterLock Tracer.lock
  dsimp only
  rw [Tracer.weight_addHeldEdges, RAOG_self, Tracer.thread_self]
  rfl

theorem edge_afterLock : (afterLock s t m loc).RAOG.Edge a b ↔
    s.RAOG.Edge a b ∨ (b = m ∧ 0 < s.held t a) := by
  unfold afterLock Tracer.lock
  dsimp only
  rw [Tracer.edge_addHeldEdges, RAOG_self, Tracer.thread_self]
  rfl

theorem afterUnlock_eq_some : afterUnlock s t m loc = some s' ↔
    ∃ th, (s.thread t).unlock (loc, m) = some th ∧ s' =
      { s.self t with
        threads := (s.self t).threads.insert t th
        lockThreadMap := s.lockThreadMap.erase m
        allLocksHeld := s.allLocksHeld.erase m } := by
  unfold afterUnlock
  rw [Tracer.unlock_eq_some]
  simp

theorem thread_afterUnlock (h : afterUnlock s t m loc = some s') :
    ∃ th, (s.thread t).unlock (loc, m) = some th ∧
      ∀ u, s'.thread u = if u = t then th else s.thread u := by
  obtain ⟨th, hth, hthread⟩ := Tracer.thread_unlock h
  simp only [Tracer.thread_self] at hth hthread
  exact ⟨th, hth, hthread⟩

@[simp] theorem held_beforeLock {k : LockAddress} :
    (beforeLock s t m loc).2.held u k = s.held u k := by
  unfold Tracer.held
  rw [thread_beforeLock]

theorem held_afterLock {k : LockAddress} : (afterLock s t m loc).held u k =
    s.held u k + if u = t ∧ k = m then 1 else 0 := by
  unfold afterLock
  rw [Tracer.held_lock, Tracer.held, Tracer.thread_self]
  rfl

theorem lockThreadMap_afterLock {k : LockAddress} : (afterLock s t m loc).lockThreadMap[k]? =
    if k = m then some t else s.lockThreadMap[k]? := by
  unfold afterLock
  rw [Tracer.lockThreadMap_lock, lockThreadMap_self]

theorem allLocksHeld_afterLock :
    (afterLock s t m loc).allLocksHeld = insert m s.allLocksHeld := by
  rw [← allLocksHeld_self (s := s) (t := t)]
  rfl

/-- The assertion passes when the thread's record counts the mutex as held. -/
theorem afterUnlock_isSome : (∃ s', afterUnlock s t m loc = some s') ↔ 0 < s.held t m := by
  unfold afterUnlock
  rw [Tracer.unlock_isSome, Tracer.held, Tracer.thread_self]
  rfl

theorem held_afterUnlock (h : afterUnlock s t m loc = some s') {k : LockAddress} :
    s'.held u k = s.held u k - if u = t ∧ k = m then 1 else 0 := by
  rw [Tracer.held_unlock h, Tracer.held, Tracer.thread_self]
  rfl

theorem lockThreadMap_afterUnlock (h : afterUnlock s t m loc = some s') {k : LockAddress} :
    s'.lockThreadMap[k]? = if k = m then none else s.lockThreadMap[k]? := by
  rw [Tracer.lockThreadMap_unlock h, lockThreadMap_self]

theorem mem_allLocksHeld_afterUnlock (h : afterUnlock s t m loc = some s') {k : LockAddress} :
    k ∈ s'.allLocksHeld ↔ k ≠ m ∧ k ∈ s.allLocksHeld := by
  rw [Tracer.mem_allLocksHeld_unlock h, allLocksHeld_self]

theorem RAOG_afterUnlock (h : afterUnlock s t m loc = some s') : s'.RAOG = s.RAOG := by
  obtain ⟨th, -, rfl⟩ := afterUnlock_eq_some.mp h
  exact RAOG_self

theorem component_afterUnlock (h : afterUnlock s t m loc = some s') :
    s'.component = s.component := by
  obtain ⟨th, -, rfl⟩ := afterUnlock_eq_some.mp h
  exact component_self

end Effects

/-! ## Runs -/

/-- What every event keeps, every run keeps. -/
theorem run_invariant {I : Tracer → Prop}
    (hstep : ∀ {s e s'}, I s → step s e = some s' → I s') {s s' : Tracer} {es : List Event}
    (hs : I s) (h : run s es = some s') : I s' := by
  induction es generalizing s with
  | nil => exact Option.some.inj h ▸ hs
  | cons e es ih =>
    obtain ⟨mid, hmid, hrest⟩ := Option.bind_eq_some_iff.mp h
    exact ih (hstep hs hmid) hrest

/-- The records of all threads are counted. -/
def AllCounted (s : Tracer) : Prop := ∀ t, (s.thread t).Counted

theorem AllCounted.step {s s' : Tracer} {e : Event} (h : AllCounted s) (he : step s e = some s') :
    AllCounted s' := by
  intro u
  cases e with
  | beforeLock t m loc =>
    obtain rfl := Option.some.inj he
    rw [thread_beforeLock]
    exact h u
  | afterLock t m loc =>
    obtain rfl := Option.some.inj he
    rw [thread_afterLock]
    split
    · exact (h t).lock
    · exact h u
  | afterUnlock t m loc =>
    obtain ⟨th, hth, hthread⟩ := thread_afterUnlock he
    rw [hthread]
    split
    · exact (h t).unlock hth
    · exact h u

/-- The number of a node that is numbered at the start never changes. -/
theorem component_step {s s' : Tracer} {e : Event} (he : step s e = some s') {a : LockAddress}
    {c : Int} (h : s.component[a]? = some c) : s'.component[a]? = some c := by
  cases e with
  | beforeLock t m loc =>
    obtain rfl := Option.some.inj he
    exact component_beforeLock h
  | afterLock t m loc =>
    obtain rfl := Option.some.inj he
    rw [component_afterLock]
    exact h
  | afterUnlock t m loc =>
    rw [component_afterUnlock he]
    exact h

/-- The tracer on a loaded graph: `initialize`, then the hook events in their order. -/
def execute (ord : NodeOrder) (g : LockGraph) (es : List Event) : Option Tracer :=
  (start ord g).bind fun s => run s es

theorem execute_allCounted {ord : NodeOrder} {g : LockGraph} {es : List Event} {s : Tracer}
    (h : execute ord g es = some s) : AllCounted s := by
  obtain ⟨s₀, hstart, hrun⟩ := Option.bind_eq_some_iff.mp h
  obtain ⟨n, -, rfl⟩ := Option.map_eq_some_iff.mp hstart
  exact run_invariant AllCounted.step (s := { RAOG := g, component := n.component }) (fun _ => Thread.counted_new) hrun

/-! ## The delay decision -/

/-- A thread that holds something is delayed just if the mutex it acquired last has no
larger number than the requested one. -/
theorem checkSCC_delays_iff {s : Tracer} {t : Pthread} {l : LockAddress} {op : LockOperation}
    {cl cop : Int} (hheld : (s.thread t).diffLocksHeldNum ≠ 0)
    (hlast : (s.thread t).lockHistory.getLast? = some op) (hl : s.component[l]? = some cl)
    (hop : s.component[op.2]? = some cop) : (checkSCC s t l).1 = true ↔ cop ≤ cl := by
  have hthread : ({ s with RAOG := s.RAOG.getNode l } : Tracer).thread t = s.thread t := rfl
  unfold checkSCC checkSCCWith
  dsimp only
  rw [hthread, if_pos hheld, List.getLastD_eq_getLast?, hlast, Option.getD_some,
    TreeMap.getD_eq_getD_getElem?, TreeMap.getD_eq_getD_getElem?, hl,
    getElem?_insertIfNew_of_some hop]
  exact decide_eq_true_iff

/-- A request for a mutex from which the mutex the thread acquired last, and still
holds, can be reached along the loaded edges is delayed. -/
theorem delays_below_last_mutex (ord : NodeOrder) (name : String)
    (entries : List (LockAddress × List (LockAddress × Int))) {es : List Event} {s : Tracer}
    (hrun : execute ord (LockGraph.read name entries) es = some s) {t : Pthread}
    {l h : LockAddress} {loc acquiredAt : Location} (hheld : 0 < s.held t h)
    (hlast : (s.thread t).lockHistory.getLast? = some (acquiredAt, h))
    (hl : l ∈ (LockGraph.read name entries).lockNodeMap)
    (hh : h ∈ (LockGraph.read name entries).lockNodeMap)
    (hreach : (LockGraph.read name entries).Reachable l h) :
    (beforeLock s t l loc).1 = true := by
  have hclosed := LockGraph.closed_read name entries
  obtain ⟨n, hn, hnum, hall⟩ := findSCC_numbered ord hclosed
  obtain ⟨cl, hcl⟩ := Option.isSome_iff_exists.mp (TreeMap.mem_iff_isSome_getElem?.mp (hall l hl))
  obtain ⟨ch, hch⟩ := Option.isSome_iff_exists.mp (TreeMap.mem_iff_isSome_getElem?.mp (hall h hh))
  obtain ⟨s₀, hstart, hsteps⟩ := Option.bind_eq_some_iff.mp hrun
  rw [start, hn] at hstart
  obtain rfl := Option.some.inj hstart
  -- the numbers of the loaded nodes survive the run
  have hkeep : ∀ {a : LockAddress} {c : Int}, n.component[a]? = some c →
      s.component[a]? = some c := fun ha =>
    run_invariant (fun hs he => component_step he hs) ha hsteps
  have hcounted := execute_allCounted hrun t
  have hle : ch ≤ cl := hnum.reachable hall hreach hcl hch
  refine (@checkSCC_delays_iff _ _ _ (acquiredAt, h) cl ch ?_ ?_ ?_ ?_).mpr hle
  · rw [Tracer.thread_self]
    exact hcounted.diff_ne_zero hheld
  · rw [Tracer.thread_self]
    exact hlast
  · rw [component_self]
    exact hkeep hcl
  · rw [component_self]
    exact hkeep hch

/-- Mutex 1 leads to mutex 2 and mutex 3 to mutex 1. -/
def crossing : LockGraph := LockGraph.read "runtime-address-order-graph" [(1, [(2, 1)]), (3, [(1, 1)])]

/-- A thread that holds 2 and asks for 1 is delayed. -/
theorem delays_below_last_mutex_crossing :
    ∃ s, execute .byAddress crossing [.afterLock 7 2 0] = some s ∧
      (beforeLock s 7 1 0).1 = true := by
  have hexec : (execute .byAddress crossing [.afterLock 7 2 0]).map
      (fun s => (s.held 7 2, (s.thread 7).lockHistory)) = some (1, [(0, 2)]) := by decide
  obtain ⟨s, hs, hobs⟩ := Option.map_eq_some_iff.mp hexec
  obtain ⟨hheld, hhist⟩ := Prod.mk.inj hobs
  have hpos : 0 < s.held 7 2 := by omega
  have hlast : (s.thread 7).lockHistory.getLast? = some (0, 2) := by rw [hhist]; rfl
  exact ⟨s, hs, delays_below_last_mutex .byAddress _ _ hs hpos hlast (by decide) (by decide)
    (Relation.ReflTransGen.single (by decide))⟩

/-- Only the mutex acquired last is compared: a thread that holds 2 and then 3 may
ask for 1 without a delay, although 2 is reachable from 1. -/
theorem outer_mutex_not_compared :
    ¬ ∀ (ord : NodeOrder) (name : String) (entries : List (LockAddress × List (LockAddress × Int)))
      (es : List Event) (s : Tracer) (t : Pthread) (l h : LockAddress) (loc : Location),
      execute ord (LockGraph.read name entries) es = some s → 0 < s.held t h →
      l ∈ (LockGraph.read name entries).lockNodeMap →
      h ∈ (LockGraph.read name entries).lockNodeMap →
      (LockGraph.read name entries).Reachable l h → (beforeLock s t l loc).1 = true := by
  intro hall
  have hexec : (execute .byAddress crossing [.afterLock 7 2 0, .afterLock 7 3 0]).map
      (fun s => (s.held 7 2, (beforeLock s 7 1 0).1)) = some (1, false) := by decide
  obtain ⟨s, hs, hobs⟩ := Option.map_eq_some_iff.mp hexec
  obtain ⟨hheld, hdelay⟩ := Prod.mk.inj hobs
  have htrue := hall .byAddress _ _ _ s 7 1 2 0 hs (by omega) (by decide) (by decide)
    (Relation.ReflTransGen.single (by decide))
  rw [hdelay] at htrue
  cases htrue

/-! ## Edge weights -/

/-- One if the event is the acquisition of `b` by a thread whose record holds `a`. -/
def acquiresUnder (a b : LockAddress) (s : Tracer) : Event → Nat
  | .afterLock t m _ => if b = m ∧ 0 < s.held t a then 1 else 0
  | _ => 0

/-- The acquisitions of `b` under a held `a` in a run from `s`. -/
def acquisitionsUnder (a b : LockAddress) : Tracer → List Event → Nat
  | _, [] => 0
  | s, e :: es => acquiresUnder a b s e +
    match step s e with
    | some s => acquisitionsUnder a b s es
    | none => 0

theorem weight_step {s s' : Tracer} {e : Event} (he : step s e = some s') (a b : LockAddress) :
    s'.RAOG.weight a b = s.RAOG.weight a b + acquiresUnder a b s e ∧
      (s'.RAOG.Edge a b ↔ s.RAOG.Edge a b ∨ 0 < acquiresUnder a b s e) := by
  cases e with
  | beforeLock t m loc =>
    obtain rfl := Option.some.inj he
    simp [LockGraph.weight_eq_getD, LockGraph.Edge, outEdges_beforeLock, acquiresUnder]
  | afterUnlock t m loc =>
    rw [RAOG_afterUnlock he]
    simp [acquiresUnder]
  | afterLock t m loc =>
    obtain rfl := Option.some.inj he
    rw [weight_afterLock, edge_afterLock, acquiresUnder]
    by_cases hacq : b = m ∧ 0 < s.held t a
    · simp [hacq]
    · simp [hacq]

/-- A run adds to every weight the acquisitions it records and no other edge. -/
theorem weight_run {s s' : Tracer} {es : List Event} (h : run s es = some s')
    (a b : LockAddress) :
    s'.RAOG.weight a b = s.RAOG.weight a b + acquisitionsUnder a b s es ∧
      (s'.RAOG.Edge a b ↔ s.RAOG.Edge a b ∨ 0 < acquisitionsUnder a b s es) := by
  induction es generalizing s with
  | nil =>
    obtain rfl := Option.some.inj h
    simp [acquisitionsUnder]
  | cons e es ih =>
    obtain ⟨mid, hmid, hrest⟩ := Option.bind_eq_some_iff.mp h
    obtain ⟨hweight, hedge⟩ := weight_step hmid a b
    obtain ⟨hweights, hedges⟩ := ih hrest
    have hcount : acquisitionsUnder a b s (e :: es) =
        acquiresUnder a b s e + acquisitionsUnder a b mid es := by
      rw [acquisitionsUnder, hmid]
    rw [hcount, hweights, hedges, hweight, hedge]
    constructor
    · push_cast
      omega
    · rw [or_assoc, Nat.add_pos_iff_pos_or_pos]

/-- The weights of `RAOG` after any run on a loaded graph: what was loaded, plus the
acquisitions under a held mutex. Loaded edges stay and no other edge appears. -/
theorem weight_execute (ord : NodeOrder) (name : String)
    (entries : List (LockAddress × List (LockAddress × Int))) {es : List Event} {s₀ s : Tracer}
    (hstart : start ord (LockGraph.read name entries) = some s₀) (hrun : run s₀ es = some s)
    (a b : LockAddress) :
    s.RAOG.weight a b =
        (LockGraph.read name entries).weight a b + acquisitionsUnder a b s₀ es ∧
      (s.RAOG.Edge a b ↔
        (LockGraph.read name entries).Edge a b ∨ 0 < acquisitionsUnder a b s₀ es) := by
  obtain ⟨n, -, rfl⟩ := Option.map_eq_some_iff.mp hstart
  exact weight_run hrun a b

/-- Thread 7 takes 1 under 2 and then 2 a second time under both. -/
theorem weight_execute_crossing : ∃ s₀ s, start .byAddress crossing = some s₀ ∧
    run s₀ [.afterLock 7 2 0, .afterLock 7 1 0, .afterLock 7 2 0] = some s ∧
    s.RAOG.weight 1 2 = crossing.weight 1 2 +
      acquisitionsUnder 1 2 s₀ [.afterLock 7 2 0, .afterLock 7 1 0, .afterLock 7 2 0] := by
  obtain ⟨s₀, hstart⟩ := start_read .byAddress "runtime-address-order-graph" [(1, [(2, 1)]), (3, [(1, 1)])]
  exact ⟨_, _, hstart, rfl, (weight_execute .byAddress _ _ hstart rfl 1 2).1⟩

end Lockout.LockTracer.Events
