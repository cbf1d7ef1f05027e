import Mathlib.Data.Set.Lattice
import Lockout.Strator.Isolation
import Lockout.Strator.Tasks

/-! # The worker pool of global mode

The workers of the pool take the entry points one after the other from the end of
`tasks` (`getTask`), each at any time, and analyse them with what they have kept from
their earlier tasks (`PoolRun`); in the end their records are merged. A schedule in
which no worker takes two tasks that share a function leaves the records that each
task makes on its own, whichever worker takes it and when (`recordsOf_final`). Where a
worker does take two such tasks, the second one can find the shared function in the
caches. -/

namespace Lockout.Strator.Workers
open Lockout.Strator.Program Lockout.Strator.State Lockout.Strator.Traverse
open Lockout.Strator.Effects Lockout.Strator.Termination Lockout.Strator.Tasks
open Lockout.Strator.Territories Lockout.Strator.Isolation

/-! ## The pool -/

/-- `Strator::getTask`, with the number of tasks that are left. -/
def getTask (tasks : List String) (functionCount : Int) : Option String × Int :=
  let functionCount := functionCount - 1
  if functionCount < 0 then (none, functionCount)
  else (tasks[functionCount.toNat]?, functionCount)

def threadPoolSize (tasks : List String) : Nat := if 50 < tasks.length then 50 else tasks.length

structure Pool where
  functionCount : Int
  workers : Nat → Worker := fun _ => {}
  /-- The workers that have got no more task. -/
  finished : Nat → Bool := fun _ => false

/-- The pool comes to a state with its workers taking tasks in some order. The list has
every task that was taken, with its worker, the last one first. -/
inductive PoolRun (m : IRModule) (opts : Options) (tasks : List String) :
    List (Nat × String) → Pool → Prop
  | start : PoolRun m opts tasks [] { functionCount := tasks.length }
  | task {taken pool i f functionCount n r w} : PoolRun m opts tasks taken pool →
      i < threadPoolSize tasks → pool.finished i = false →
      getTask tasks pool.functionCount = (some f, functionCount) →
      traverseFrom m opts n f ((pool.workers i).startTask f) = .ok (r, w) →
      PoolRun m opts tasks ((i, f) :: taken)
        { pool with functionCount, workers := Function.update pool.workers i w }
  | done {taken pool i functionCount} : PoolRun m opts tasks taken pool →
      i < threadPoolSize tasks → pool.finished i = false →
      getTask tasks pool.functionCount = (none, functionCount) →
      PoolRun m opts tasks taken
        { pool with functionCount, finished := Function.update pool.finished i true }

/-- All threads of the pool have been joined. -/
def Pool.Joined (tasks : List String) (pool : Pool) : Prop :=
  ∀ i, i < threadPoolSize tasks → pool.finished i = true

instance (tasks : List String) (pool : Pool) : Decidable (pool.Joined tasks) :=
  inferInstanceAs (Decidable (∀ i, i < threadPoolSize tasks → pool.finished i = true))

/-- The accesses to one value, put to those that are there. -/
def mergeAccesses (final : ValueToAccessTypeMap) (v : Value) (accesses : List AccessType) :
    ValueToAccessTypeMap :=
  match final.lookup v with
  | none => final.insert v accesses
  | some there => final.insert v (there ++ accesses)

/-- The inner loop: one worker's map put to the final one. -/
def mergeMap (final map : ValueToAccessTypeMap) : ValueToAccessTypeMap :=
  map.entries.foldl (fun final e => mergeAccesses final e.1 e.2) final

/-- The rounds of the outer loop from index `i` on. An index past the end of the vector is
undefined behaviour and has no result. -/
def mergeRest (workers : List Worker) : Nat → Nat → ValueToAccessTypeMap →
    Option ValueToAccessTypeMap
  | 0, _, final => some final
  | k + 1, i, final => do
    let worker ← workers[i]?
    mergeRest workers k (i + 1) (mergeMap final worker.valueToAccessTypeMap)

/-- `Strator::mergeValueToAccessTypeMaps`. -/
def mergeValueToAccessTypeMaps (threadPoolSize : Int) (workers : List Worker) :
    Option ValueToAccessTypeMap := do
  let first ← workers[0]?
  mergeRest workers (threadPoolSize - 1).toNat 1 first.valueToAccessTypeMap

def finalValueToAccessTypeMap (tasks : List String) (pool : Pool) : Option ValueToAccessTypeMap :=
  mergeValueToAccessTypeMaps (threadPoolSize tasks)
    ((List.range (threadPoolSize tasks)).map pool.workers)

/-- Value, instruction, `isStore` and lockset of every record. -/
def reported (final : ValueToAccessTypeMap) : Set (Value × InstId × Bool × LockSet) :=
  (fun r => (r.1, r.2.instruction, r.2.isStore, r.2.lockSet)) '' recordsOf final

/-- No worker takes a task that shares a function with an earlier task it took. -/
def Separate (m : IRModule) (taken : List (Nat × String)) : Prop :=
  taken.Pairwise fun later earlier => later.1 = earlier.1 →
    Disjoint (territoryOf m earlier.2).mem (territoryOf m later.2).mem

/-- The records of a task that a new worker analyses. -/
def alone (m : IRModule) (opts : Options) (f : String) : Set (Value × AccessType) :=
  {x | ∃ r w, Runs m opts (.visit (.function f ∅)) {} r w ∧ x ∈ recordsOf w.valueToAccessTypeMap}

/-! ## Every task is taken once -/

section Taken
variable {m : IRModule} {opts : Options} {tasks : List String} {taken : List (Nat × String)}
  {pool : Pool} {functionCount k : Int} {f : String} {i : Nat}

theorem threadPoolSize_pos : 0 < threadPoolSize tasks ↔ tasks ≠ [] := by
  rw [← List.length_pos_iff]
  unfold threadPoolSize
  split <;> omega

theorem getTask_eq_some (h : getTask tasks functionCount = (some f, k)) :
    k = functionCount - 1 ∧ 0 ≤ k ∧ tasks[k.toNat]? = some f := by
  unfold getTask at h
  dsimp only at h
  split at h
  · cases h
  · obtain ⟨hf, rfl⟩ := Prod.mk.inj h
    exact ⟨rfl, by omega, hf⟩

theorem getTask_eq_none (hcount : functionCount ≤ tasks.length)
    (h : getTask tasks functionCount = (none, k)) : k = functionCount - 1 ∧ k < 0 := by
  unfold getTask at h
  dsimp only at h
  split at h
  · obtain ⟨-, rfl⟩ := Prod.mk.inj h
    exact ⟨rfl, by assumption⟩
  · obtain ⟨hnone, rfl⟩ := Prod.mk.inj h
    have hlength := List.getElem?_eq_none_iff.mp hnone
    omega

/-- How far the workers have come with the tasks. -/
structure Counted (tasks : List String) (taken : List (Nat × String)) (pool : Pool) : Prop where
  le : pool.functionCount ≤ tasks.length
  order : taken.map Prod.snd = tasks.drop pool.functionCount.toNat
  worker : ∀ c ∈ taken, c.1 < threadPoolSize tasks
  finished : ∀ i, pool.finished i = true → pool.functionCount < 0

theorem counted_of_poolRun (h : PoolRun m opts tasks taken pool) : Counted tasks taken pool := by
  induction h with
  | start => exact ⟨Int.le_refl _, by simp, nofun, nofun⟩
  | @task taken pool i f functionCount n r w _ hi _ htask _ ih =>
    obtain ⟨rfl, hnonneg, hf⟩ := getTask_eq_some htask
    have hle := ih.le
    refine ⟨by dsimp only; omega, ?_, ?_, fun j hj => ?_⟩
    · obtain ⟨hlt, hget⟩ := List.getElem?_eq_some_iff.mp hf
      have hnext : (pool.functionCount - 1).toNat + 1 = pool.functionCount.toNat := by omega
      rw [List.map_cons, ih.order, List.drop_eq_getElem_cons hlt, hget, hnext]
    · intro c hc
      rcases List.mem_cons.mp hc with rfl | hc
      · exact hi
      · exact ih.worker c hc
    · have hneg := ih.finished j hj
      omega
  | @done taken pool i functionCount _ _ _ hnone ih =>
    obtain ⟨rfl, hneg⟩ := getTask_eq_none ih.le hnone
    have hle := ih.le
    refine ⟨by dsimp only; omega, ?_, ih.worker, fun _ _ => hneg⟩
    have hcount : (pool.functionCount - 1).toNat = pool.functionCount.toNat := by omega
    dsimp only
    rw [hcount]
    exact ih.order

/-- In the end every task has been taken. -/
theorem taken_of_joined (h : PoolRun m opts tasks taken pool) (hjoined : pool.Joined tasks) :
    taken.map Prod.snd = tasks := by
  have hcounted := counted_of_poolRun h
  rw [hcounted.order]
  cases htasks : tasks with
  | nil => simp
  | cons f rest =>
    have hpositive : 0 < threadPoolSize tasks := threadPoolSize_pos.mpr (by simp [htasks])
    have hneg := hcounted.finished 0 (hjoined 0 hpositive)
    rw [Int.toNat_of_nonpos (Int.le_of_lt hneg)]
    rfl

end Taken

/-! ## The records of a worker -/

section Records
variable {m : IRModule} {opts : Options} {tasks : List String} {taken : List (Nat × String)}
  {pool : Pool} {w w' : Worker} {T : Territory m} {f : String} {r : List LockSet}

theorem settled_of_new (h : SameOn T {} w)
    (hapis : ∀ v ∈ w.multithreadedAPISet, ∃ f, v = .function f ∧ m.entry f ≠ none) :
    Settled T w where
  callers f hf c hc := by
    rw [← h.callers f hf] at hc
    cases hc
  bindings v p hv hp := by
    rw [← h.bindings v hv] at hp
    cases hp
  apis := hapis

theorem settled_new : Settled T {} :=
  settled_of_new .refl fun v hv => absurd hv (Finset.notMem_empty v)

/-- A worker that has kept nothing about the functions of a task makes the records that
a new worker makes of it. -/
theorem task_alone (hlocal : Local m)
    (h : Runs m opts (.visit (.function f ∅)) (w.startTask f) r w')
    (hnew : SameOn (territoryOf m f) {} w)
    (hapis : ∀ v ∈ w.multithreadedAPISet, ∃ f, v = .function f ∧ m.entry f ≠ none) :
    recordsOf w'.valueToAccessTypeMap = recordsOf w.valueToAccessTypeMap ∪ alone m opts f ∧
      Settled (territoryOf m f) w' ∧
      ∀ T : Territory m, Disjoint (territoryOf m f).mem T.mem → SameOn T (w.startTask f) w' := by
  have hwithin : Within (territoryOf m f) (.visit (.function f ∅)) := fun hbody => ⟨hbody, .refl⟩
  have hsame : SameOn (territoryOf m f) (w.startTask f) {} := by
    rw [← @startTask_new f]
    exact hnew.symm.startTask
  obtain ⟨u, hrun, halike⟩ := alike_runs hlocal h hwithin hsame
    { settled_of_new hnew hapis with } settled_new
  obtain ⟨new, hw, hu⟩ := halike.adds
  have halone : alone m opts f = new := by
    have hempty : recordsOf ({} : Worker).valueToAccessTypeMap = ∅ := by
      ext x
      simp [recordsOf]
    rw [← Set.empty_union new, ← hempty, ← hu]
    ext x
    constructor
    · intro hx
      obtain ⟨r', u', hrun', hx⟩ := hx
      obtain ⟨-, rfl⟩ := hrun.unique hrun'
      exact hx
    · exact fun hx => ⟨r, u, hrun, hx⟩
  rw [halone]
  exact ⟨hw, halike.settled, halike.others⟩

/-- What a worker has kept, after some tasks of a separate schedule. -/
structure Worked (m : IRModule) (opts : Options) (taken : List (Nat × String)) (i : Nat)
    (w : Worker) : Prop where
  records : recordsOf w.valueToAccessTypeMap = {x | ∃ f, (i, f) ∈ taken ∧ x ∈ alone m opts f}
  new : ∀ T : Territory m, (∀ f, (i, f) ∈ taken → Disjoint (territoryOf m f).mem T.mem) →
    SameOn T {} w
  apis : ∀ v ∈ w.multithreadedAPISet, ∃ f, v = .function f ∧ m.entry f ≠ none

/-- Another task of the worker that is separate from its earlier ones. -/
theorem Worked.task {i : Nat} (hlocal : Local m) (hworked : Worked m opts taken i w)
    (hseparate : ∀ g, (i, g) ∈ taken → Disjoint (territoryOf m g).mem (territoryOf m f).mem)
    (h : Runs m opts (.visit (.function f ∅)) (w.startTask f) r w') :
    Worked m opts ((i, f) :: taken) i w' := by
  obtain ⟨hrecords, hsettled, hothers⟩ :=
    task_alone hlocal h (hworked.new _ hseparate) hworked.apis
  refine ⟨?_, fun T hT => ?_, hsettled.apis⟩
  · rw [hrecords, hworked.records]
    ext x
    simp [or_comm, or_and_right, exists_or]
  · have hf := hT f List.mem_cons_self
    have hbefore := hworked.new T fun g hg => hT g (List.mem_cons_of_mem _ hg)
    have hstart : SameOn T w (w.startTask f) := sameOn_startTask fun hmem =>
      Set.disjoint_left.mp hf ⟨T.body hmem, .refl⟩ hmem
    exact (hbefore.trans hstart).trans (hothers T hf)

/-- A task of another worker. -/
theorem Worked.other {i j : Nat} (hworked : Worked m opts taken j w) (hne : j ≠ i) :
    Worked m opts ((i, f) :: taken) j w where
  records := by
    rw [hworked.records]
    simp [hne]
  new T hT := hworked.new T fun g hg => hT g (List.mem_cons_of_mem _ hg)
  apis := hworked.apis

theorem worked_of_poolRun (hlocal : Local m) (h : PoolRun m opts tasks taken pool)
    (hseparate : Separate m taken) (i : Nat) : Worked m opts taken i (pool.workers i) := by
  induction h generalizing i with
  | start =>
    refine ⟨?_, fun T _ => .refl, fun v hv => absurd hv (Finset.notMem_empty v)⟩
    ext x
    simp [recordsOf]
  | @task taken pool j f functionCount n r w _ _ _ _ hrun ih =>
    obtain ⟨hfirst, hrest⟩ := List.pairwise_cons.mp hseparate
    by_cases hij : i = j
    · subst hij
      dsimp only
      rw [Function.update_self]
      exact (ih hrest i).task hlocal (fun g hg => hfirst _ hg rfl) (traverse_runs hrun)
    · dsimp only
      rw [Function.update_of_ne hij]
      exact (ih hrest i).other hij
  | done _ _ _ _ ih => exact ih hseparate i

end Records

/-! ## The merged records -/

/-- The records of a value; they are pointers in the source, so equal ones count. -/
def accessesOf (map : ValueToAccessTypeMap) (v : Value) : List AccessType :=
  (map.lookup v).getD []

section Merge
variable {m : IRModule} {opts : Options} {tasks : List String} {taken taken' : List (Nat × String)}
  {pool pool' : Pool} {final map : ValueToAccessTypeMap} {v v' : Value}
  {accesses : List AccessType} {workers before rest : List Worker} {first : Worker} {size : Int}

theorem mem_recordsOf {x : Value × AccessType} : x ∈ recordsOf map ↔ x.2 ∈ accessesOf map x.1 := by
  unfold accessesOf
  cases hlookup : map.lookup x.1 with
  | none => simp [recordsOf, hlookup]
  | some accesses => simp [recordsOf, hlookup]

theorem accessesOf_mergeAccesses : accessesOf (mergeAccesses final v accesses) v' =
    accessesOf final v' ++ if v' = v then accesses else [] := by
  unfold mergeAccesses accessesOf
  by_cases hv : v' = v
  · subst hv
    cases hold : final.lookup v' <;> simp
  · cases hold : final.lookup v <;> simp [AList.lookup_insert_ne hv, hv]

theorem accessesOf_mergeEntries {entries : List (Sigma fun _ : Value => List AccessType)}
    (hkeys : entries.NodupKeys) :
    accessesOf (entries.foldl (fun final e => mergeAccesses final e.1 e.2) final) v =
      accessesOf final v ++ (entries.dlookup v).getD [] := by
  induction entries generalizing final with
  | nil => simp
  | cons e entries ih =>
    obtain ⟨hnew, hkeys⟩ := List.nodupKeys_cons.mp hkeys
    rw [List.foldl_cons, ih hkeys, accessesOf_mergeAccesses, List.append_assoc]
    by_cases hv : v = e.1
    · subst hv
      rw [List.dlookup_eq_none.mpr hnew, List.dlookup_cons_eq]
      simp
    · rw [List.dlookup_cons_ne _ _ hv]
      simp [hv]

/-- A map is added value by value. -/
theorem accessesOf_mergeMap : accessesOf (mergeMap final map) v =
    accessesOf final v ++ accessesOf map v :=
  accessesOf_mergeEntries map.nodupKeys

/-- The loop goes through the workers after those that have been merged. -/
theorem mergeRest_append : ∃ final', mergeRest (before ++ rest) rest.length before.length final =
    some final' ∧ ∀ v, accessesOf final' v =
      accessesOf final v ++ rest.flatMap fun w => accessesOf w.valueToAccessTypeMap v := by
  induction rest generalizing before final with
  | nil => exact ⟨final, rfl, by simp⟩
  | cons worker rest ih =>
    have hget : (before ++ worker :: rest)[before.length]? = some worker := by simp
    obtain ⟨final', hrun, hfinal⟩ :=
      @ih (mergeMap final worker.valueToAccessTypeMap) (before ++ [worker])
    refine ⟨final', ?_, fun v => ?_⟩
    · rw [List.length_cons, mergeRest, hget]
      simpa using hrun
    · rw [hfinal, accessesOf_mergeMap, List.flatMap_cons, List.append_assoc]

/-- With as many rounds as there are other workers, the records of all are there. -/
theorem merge_all (hsize : (size - 1).toNat = rest.length) :
    ∃ final, mergeValueToAccessTypeMaps size (first :: rest) = some final ∧ ∀ v,
      accessesOf final v = (first :: rest).flatMap fun w => accessesOf w.valueToAccessTypeMap v := by
  obtain ⟨final, hrun, hfinal⟩ := @mergeRest_append first.valueToAccessTypeMap [first] rest
  refine ⟨final, ?_, hfinal⟩
  unfold mergeValueToAccessTypeMaps
  rw [hsize]
  exact hrun

/-- What the pool leaves is merged without a failure when there is a task. -/
theorem merge_pool (htasks : tasks ≠ []) (pool : Pool) :
    ∃ final, finalValueToAccessTypeMap tasks pool = some final ∧ ∀ v, accessesOf final v =
      (List.range (threadPoolSize tasks)).flatMap fun i =>
        accessesOf (pool.workers i).valueToAccessTypeMap v := by
  have hpos := threadPoolSize_pos.mpr htasks
  have hlength : ((List.range (threadPoolSize tasks)).map pool.workers).length =
      threadPoolSize tasks := by simp
  obtain ⟨first, rest, hworkers⟩ := List.exists_cons_of_length_pos (by rw [hlength]; exact hpos)
  rw [hworkers, List.length_cons] at hlength
  obtain ⟨final, hrun, hfinal⟩ :=
    @merge_all rest first (threadPoolSize tasks : Int) (by omega)
  refine ⟨final, by rw [finalValueToAccessTypeMap, hworkers]; exact hrun, fun v => ?_⟩
  rw [hfinal, ← hworkers, List.flatMap_map]

/-- A separate schedule leaves the records that the tasks make on their own. -/
theorem recordsOf_final (hlocal : Local m) (h : PoolRun m opts tasks taken pool)
    (hjoined : pool.Joined tasks) (hseparate : Separate m taken) (htasks : tasks ≠ []) :
    ∃ final, finalValueToAccessTypeMap tasks pool = some final ∧
      recordsOf final = {x | ∃ f ∈ tasks, x ∈ alone m opts f} := by
  have hworked := worked_of_poolRun hlocal h hseparate
  have htaken := taken_of_joined h hjoined
  obtain ⟨final, hrun, hfinal⟩ := merge_pool htasks pool
  refine ⟨final, hrun, ?_⟩
  ext x
  rw [mem_recordsOf, hfinal, List.mem_flatMap]
  constructor
  · intro hx
    obtain ⟨i, -, hx⟩ := hx
    rw [← mem_recordsOf, (hworked i).records] at hx
    obtain ⟨f, hf, hx⟩ := hx
    refine ⟨f, ?_, hx⟩
    rw [← htaken]
    exact List.mem_map.mpr ⟨(i, f), hf, rfl⟩
  · intro hx
    obtain ⟨f, hf, hx⟩ := hx
    rw [← htaken] at hf
    obtain ⟨⟨i, f⟩, hmem, rfl⟩ := List.mem_map.mp hf
    have hi := (counted_of_poolRun h).worker (i, f) hmem
    refine ⟨i, List.mem_range.mpr hi, ?_⟩
    rw [← mem_recordsOf, (hworked i).records]
    exact ⟨f, hmem, hx⟩

/-- Two schedules in which no worker takes two tasks that share a function report the
same records. -/
theorem schedule_independent (hlocal : Local m) (h : PoolRun m opts tasks taken pool)
    (hjoined : pool.Joined tasks) (hseparate : Separate m taken)
    (h' : PoolRun m opts tasks taken' pool') (hjoined' : pool'.Joined tasks)
    (hseparate' : Separate m taken') :
    (finalValueToAccessTypeMap tasks pool).map reported =
      (finalValueToAccessTypeMap tasks pool').map reported := by
  by_cases htasks : tasks = []
  · subst htasks
    rfl
  · obtain ⟨final, hrun, hfinal⟩ := recordsOf_final hlocal h hjoined hseparate htasks
    obtain ⟨final', hrun', hfinal'⟩ := recordsOf_final hlocal h' hjoined' hseparate' htasks
    rw [hrun, hrun', Option.map_some, Option.map_some]
    unfold reported
    rw [hfinal, hfinal']

theorem reported_of_empty (h : map.entries = []) : reported map = ∅ := by
  have hnone : recordsOf map = ∅ := by
    ext x
    simp [mem_recordsOf, accessesOf, AList.lookup, h]
  rw [reported, hnone, Set.image_empty]

end Merge

/-! ## Two entry points that share a function -/

/-- `start` and `serve` call `helper`, which loads `g`; `serve` is multithreaded. -/
def sharing : IRModule where
  functions := [
    ("serve", .straight ⟨"", .call (.function "pthread_mutex_lock") [.global "m"]⟩ [
      ⟨"", .call (.function "pthread_mutex_unlock") [.global "m"]⟩,
      ⟨"", .call (.function "helper") []⟩, ⟨"", .ret⟩]),
    ("start", .straight ⟨"", .call (.function "helper") []⟩ [⟨"", .ret⟩]),
    ("helper", .straight ⟨"", .load (.global "g")⟩ [⟨"", .ret⟩])]
  globals := [("m", false), ("g", false)]

def entryPoints : List String := ["serve", "start"]

theorem sharing_local : Local sharing := local_of_statements (by decide)

/-- One worker takes both tasks: `helper` is in its caches when `serve` calls it. -/
theorem sharing_one : ∃ pool, PoolRun sharing {} entryPoints [(0, "serve"), (0, "start")] pool ∧
    pool.Joined entryPoints ∧
    (finalValueToAccessTypeMap entryPoints pool).map reported = some ∅ := by
  have hstart := (@PoolRun.start sharing {} entryPoints).task (i := 0) (n := 8) (by decide) rfl rfl rfl
  have hserve := hstart.task (i := 0) (n := 8) (by decide) rfl rfl rfl
  have hdone := (hserve.done (i := 0) (by decide) rfl rfl).done (i := 1) (by decide) rfl rfl
  refine ⟨_, hdone, by decide, ?_⟩
  exact congrArg some (reported_of_empty rfl)

/-- Two workers take one task each. -/
theorem sharing_two : ∃ pool, PoolRun sharing {} entryPoints [(0, "serve"), (1, "start")] pool ∧
    pool.Joined entryPoints ∧ ∃ final, finalValueToAccessTypeMap entryPoints pool = some final ∧
      (.global "g", ⟨"helper", 0, 0⟩, false, ∅) ∈ reported final := by
  have hstart := (@PoolRun.start sharing {} entryPoints).task (i := 1) (n := 8) (by decide) rfl rfl rfl
  have hserve := hstart.task (i := 0) (n := 8) (by decide) rfl rfl rfl
  have hdone := (hserve.done (i := 0) (by decide) rfl rfl).done (i := 1) (by decide) rfl rfl
  refine ⟨_, hdone, by decide, _, rfl, (.global "g", ⟨false, true, ⟨"helper", 0, 0⟩, ∅⟩), ?_, rfl⟩
  exact ⟨_, rfl, List.mem_cons_self⟩

/-- The same two workers the other way round. -/
theorem sharing_swapped : ∃ pool,
    PoolRun sharing {} entryPoints [(1, "serve"), (0, "start")] pool ∧ pool.Joined entryPoints := by
  have hstart := (@PoolRun.start sharing {} entryPoints).task (i := 0) (n := 8) (by decide) rfl rfl rfl
  have hserve := hstart.task (i := 1) (n := 8) (by decide) rfl rfl rfl
  have hdone := (hserve.done (i := 0) (by decide) rfl rfl).done (i := 1) (by decide) rfl rfl
  exact ⟨_, hdone, by decide⟩

theorem schedule_independent_sharing : ∃ pool pool',
    PoolRun sharing {} entryPoints [(0, "serve"), (1, "start")] pool ∧
    PoolRun sharing {} entryPoints [(1, "serve"), (0, "start")] pool' ∧
    (finalValueToAccessTypeMap entryPoints pool).map reported =
      (finalValueToAccessTypeMap entryPoints pool').map reported := by
  obtain ⟨pool, hrun, hjoined, -⟩ := sharing_two
  obtain ⟨pool', hrun', hjoined'⟩ := sharing_swapped
  exact ⟨pool, pool', hrun, hrun', schedule_independent sharing_local hrun hjoined
    (by simp [Separate]) hrun' hjoined' (by simp [Separate])⟩

/-- In general the schedule decides what is reported. -/
theorem schedule_matters : ¬ ∀ (m : IRModule) (opts : Options) (tasks : List String)
    (taken taken' : List (Nat × String)) (pool pool' : Pool), Local m →
    PoolRun m opts tasks taken pool → pool.Joined tasks →
    PoolRun m opts tasks taken' pool' → pool'.Joined tasks →
    (finalValueToAccessTypeMap tasks pool).map reported =
      (finalValueToAccessTypeMap tasks pool').map reported := by
  intro h
  obtain ⟨pool, hrun, hjoined, hempty⟩ := sharing_one
  obtain ⟨pool', hrun', hjoined', final, hfinal, hrecord⟩ := sharing_two
  have hsame := h _ _ _ _ _ _ _ sharing_local hrun hjoined hrun' hjoined'
  rw [hempty, hfinal, Option.map_some, Option.some.injEq] at hsame
  rw [← hsame] at hrecord
  exact hrecord

end Lockout.Strator.Workers
