import Lockout.Strator.Isolation
import Lockout.Strator.Multithreaded
import Lockout.Strator.Races
import Lockout.Strator.ThreadCreation

/-! # Unprotected stores of a worker

Everything the traversal visits inside a call of `pthread_create` is visited in a
multithreaded function, so an unprotected store there is recorded. The report has a
pair with it as soon as there is a second record of its variable, or of an alias
(`unprotected_store`): a second thread that runs the same store makes none, because the
second call of `pthread_create` is answered from the summaries. -/

namespace Lockout.Strator.Reports
open Lockout.Strator.Program Lockout.Strator.State Lockout.Strator.Traverse
open Lockout.Strator.Effects Lockout.Strator.Tasks Lockout.Strator.ThreadCreation
open Lockout.Strator.Multithreaded Lockout.Strator.Isolation Lockout.Strator.Races

/-- The analysis from `root` comes to call `c` of `pthread_create`, which starts
`worker`, and analyses `worker` from lockset `L` in state `w`. -/
inductive Creates (m : IRModule) (opts : Options) (root : String) (c : InstId) (worker : String) :
    LockSet → Worker → Prop
  | mk {ctx E L L' w w₁} : createsThread m c = true →
      Reached m opts (.visit (.function root ∅)) {} ctx (.visit (.statement c E L)) w →
      w.isInCache c E L = false →
      processStatement m opts c L (w.addToCache c E L) = .ok (.call worker L', w₁) →
      Creates m opts root c worker L' w₁

/-- The analysis of `worker`, from lockset `L` in state `w₁`, visits the store `s` with
lockset `L'`, in `worker` or in a function called there, where its pointer resolves
to `v`. -/
inductive VisitsStore (m : IRModule) (opts : Options) (worker : String) (L : LockSet) (w₁ : Worker)
    (s : InstId) (L' : LockSet) : Value → Prop
  | mk {ctx E w value pointer} : m.op? s = some (.store value pointer) →
      Reached m opts (.visit (.function worker L)) w₁ ctx (.visit (.statement s E L')) w →
      w.isInCache s E L' = false →
      VisitsStore m opts worker L w₁ s L' (getDefOperand opts w.parentValue pointer)

/-- The functions of a task are multithreaded. -/
def Flagged (w : Worker) : Search → Prop
  | .visit (.function f _) => w.multithreadedFunctionMap f = true
  | .visit (.statement s _ _) => w.multithreadedFunctionMap s.func = true
  | .each _ work => ∀ c ∈ work, w.multithreadedFunctionMap c.1.func = true

section Visits
variable {m : IRModule} {opts : Options} {root worker f : String} {c s : InstId}
  {L L' : LockSet} {w w₁ w' : Worker} {ctx : List InstId} {t : Search} {v : Value}
  {x : Value × AccessType}

theorem flag_processStatement {E : LockSet} {next : Next} (hf : w.multithreadedFunctionMap f = true)
    (hs : processStatement m opts s L (w.addToCache s E L) = .ok (next, w')) :
    w'.multithreadedFunctionMap f = true := by
  have hcached : (w.addToCache s E L).multithreadedFunctionMap f = true := hf
  exact flag_step hcached (step_of_processStatement hs)

theorem flagged_successors {E : LockSet} {working : List LockSet}
    (hs : w.multithreadedFunctionMap s.func = true) :
    Flagged w (.each E (successors m s working)) :=
  forall_successors (P := fun f => w.multithreadedFunctionMap f = true) hs

/-- What is visited inside a multithreaded function is multithreaded. -/
theorem reached_flagged (hf : w₁.multithreadedFunctionMap f = true)
    (h : Reached m opts (.visit (.function f L)) w₁ ctx t w) : Flagged w t := by
  induction h with
  | start => exact hf
  | body _ hentry _ _ ih =>
    rw [← func_entry hentry] at ih
    exact ih
  | goOn _ _ hs ih => exact flagged_successors (flag_processStatement ih hs)
  | enter _ _ hs ih => exact flag_callee (step_of_processStatement hs) (flag_processStatement ih hs)
  | resume _ _ hs hcallee ih =>
    have hcaller := runs_keeps kept_flag hcallee (flag_processStatement ih hs)
    exact flagged_successors (@Kept.erase m opts _ kept_flag _ _ hcaller)
  | head _ ih => exact ih _ List.mem_cons_self
  | rest _ hrun ih => exact fun c hc => runs_keeps kept_flag hrun (ih c (List.mem_cons_of_mem _ hc))

theorem callsAPI_of_createsThread (h : createsThread m c = true) : callsAPI m c = true := by
  unfold createsThread at h
  split at h
  · rename_i callee args hop
    have hname : callsAPI m c = isMultiThreadedName (m.valueName callee) := by
      rw [callsAPI, hop]
    rw [hname]
    cases callee with
    | function f =>
      obtain rfl : f = "pthread_create" := of_decide_eq_true h
      show isMultiThreadedName "pthread_create" = true
      decide
    | _ => cases h
  · cases h

/-- The worker function of a new thread is multithreaded. -/
theorem flag_of_creates (h : Creates m opts root c worker L w) :
    w.multithreadedFunctionMap worker = true := by
  cases h with
  | mk hcreates _ _ hs =>
    have hstep := step_of_processStatement hs
    exact flag_callee hstep (flag_of_callsAPI (callsAPI_of_createsThread hcreates) hstep)

theorem recordsOf_of_bookkeeping (h : Bookkeeping w w') :
    recordsOf w'.valueToAccessTypeMap = recordsOf w.valueToAccessTypeMap := by
  rw [h.recorded]

/-- A record stays. -/
theorem kept_recordsOf : Kept m opts fun w => x ∈ recordsOf w.valueToAccessTypeMap where
  cache := id
  step h hstep := by
    cases hstep with
    | returned | bitCast | plain => exact h
    | unresolved | lock | unlock =>
      rw [recordsOf_of_bookkeeping bookkeeping_markMultithreaded]
      exact h
    | call =>
      rw [recordsOf_of_bookkeeping bookkeeping_call]
      exact h
    | load | store =>
      rw [recordsOf_detectRaces]
      exact .inl h
  stack := id
  finish := id
  erase := id

theorem processStatement_store {value pointer : Value}
    (hop : m.op? s = some (.store value pointer)) : processStatement m opts s L w =
      .ok (.goOn L, detectRaces m opts s true pointer L w) :=
  processStatement_of_step (.store hop)

/-- A store that is visited inside a call of `pthread_create` has a record in the end. -/
theorem recorded_of_visitsStore {r : List LockSet}
    (hrun : Runs m opts (.visit (.function root ∅)) {} r w')
    (hcreates : Creates m opts root c worker L w₁)
    (hstore : VisitsStore m opts worker L w₁ s L' v) (hv : m.isConstantGlobal v = false) :
    (v, ⟨true, true, s, L'⟩) ∈ recordsOf w'.valueToAccessTypeMap := by
  have hflag := flag_of_creates hcreates
  cases hcreates with
  | mk _ hcreation hnew hs =>
    obtain ⟨r₁, w₂, hworker, hkept⟩ := (hcreation.enter hnew hs).ends hrun
    cases hstore with
    | @mk ctx E w value pointer hop hvisit hfresh =>
      have hgoOn := hvisit.goOn hfresh (processStatement_store hop)
      obtain ⟨r₂, w₃, hrest, hkept'⟩ := hgoOn.ends hworker
      refine hkept _ kept_recordsOf (hkept' _ kept_recordsOf (runs_keeps kept_recordsOf hrest ?_))
      rw [recordsOf_detectRaces]
      exact .inr ⟨hv, reached_flagged hflag hvisit, rfl⟩

theorem isRecord_of_recordsOf {final : ValueToAccessTypeMap} {a : AccessType}
    (h : (v, a) ∈ recordsOf final) : ∃ k, IsRecord final v k a := by
  obtain ⟨accesses, hlookup, ha⟩ := h
  obtain ⟨k, hk⟩ := List.mem_iff_getElem?.mp ha
  exact ⟨k, accesses, hlookup, hk⟩

end Visits

section Report
variable {m : IRModule} {opts : Options} {root worker : String} {c s : InstId} {L : LockSet}
  {w₁ w' : Worker} {r : List LockSet} {v : Value} {n : Nat} {useAliasAnalysis : Bool}
  {mayAlias : Value → Value → Bool}

/-- The values that count as aliases in the report. -/
def aliases (useAliasAnalysis : Bool) (mayAlias : Value → Value → Bool) (v v' : Value) : Bool :=
  useAliasAnalysis && mayAlias v v'

theorem reportLevel1Races_aliases {final : ValueToAccessTypeMap} :
    reportLevel1Races useAliasAnalysis mayAlias final =
      reportLevel1Races true (aliases useAliasAnalysis mayAlias) final := by
  cases useAliasAnalysis with
  | true => rfl
  | false => exact reportLevel1Races_false

/-- An unprotected store to a variable that is not constant, visited inside a call of
`pthread_create`, is recorded in the end, the report has a pair of it with every other
record of the variable or of an alias, and it has a pair with the store exactly where
two records, one of them of the store, conflict. -/
theorem unprotected_store (hsymm : ∀ v v', mayAlias v v' = mayAlias v' v)
    (hrun : traverseFrom m opts n root {} = .ok (r, w'))
    (hcreates : Creates m opts root c worker L w₁)
    (hstore : VisitsStore m opts worker L w₁ s ∅ v) (hv : m.isConstantGlobal v = false) :
    (∃ k, IsRecord w'.valueToAccessTypeMap v k ⟨true, true, s, ∅⟩ ∧
      ∀ v' k' a, IsRecord w'.valueToAccessTypeMap v' k' a → (v', k') ≠ (v, k) →
        (v' = v ∨ aliases useAliasAnalysis mayAlias v v' = true) →
        s(s, a.instruction) ∈
          pairs (reportLevel1Races useAliasAnalysis mayAlias w'.valueToAccessTypeMap)) ∧
    ((∃ p ∈ pairs (reportLevel1Races useAliasAnalysis mayAlias w'.valueToAccessTypeMap), s ∈ p) ↔
      ∃ j, Racy w'.valueToAccessTypeMap (aliases useAliasAnalysis mayAlias) s j) := by
  have hsymm' : ∀ v v', aliases useAliasAnalysis mayAlias v v' =
      aliases useAliasAnalysis mayAlias v' v := fun v v' => by rw [aliases, aliases, hsymm]
  rw [reportLevel1Races_aliases]
  constructor
  · obtain ⟨k, hk⟩ := isRecord_of_recordsOf
      (recorded_of_visitsStore (traverse_runs hrun) hcreates hstore hv)
    refine ⟨k, hk, fun v' k' a ha hne hvalues => (mem_pairs hsymm').mpr ?_⟩
    exact ⟨v, k, _, v', k', a, hk, ha, hne.symm, hvalues.imp_left Eq.symm,
      ⟨rfl, Finset.disjoint_empty_left _⟩, rfl, rfl⟩
  · constructor
    · intro h
      obtain ⟨p, hp, hs⟩ := h
      obtain ⟨j, rfl⟩ := Sym2.mem_iff_exists.mp hs
      exact ⟨j, (mem_pairs hsymm').mp hp⟩
    · intro h
      obtain ⟨j, hj⟩ := h
      exact ⟨s(s, j), (mem_pairs hsymm').mpr hj, Sym2.mem_mk_left s j⟩

end Report

/-- `main` starts `worker` twice and then loads `h`; `worker` stores to `g` and to `h`. -/
def spawning : IRModule where
  functions := [
    ("main", { blocks := [{ insts := [
      ⟨"", .call (.function "pthread_create")
        [.constant "null", .constant "null", .function "worker", .constant "null"]⟩,
      ⟨"", .call (.function "pthread_create")
        [.constant "null", .constant "null", .function "worker", .constant "null"]⟩,
      ⟨"", .load (.global "h")⟩, ⟨"", .ret⟩] }] }),
    ("worker", { params := ["arg"], blocks := [{ insts := [
      ⟨"", .store (.constant "1") (.global "g")⟩, ⟨"", .store (.constant "1") (.global "h")⟩,
      ⟨"", .ret⟩] }] })]
  globals := [("g", false), ("h", false)]

/-- The second store is visited after the first. -/
theorem spawning_visits {w : Worker} (hstack : w.onStack "worker" = false)
    (hnone : w.summary? "worker" ∅ = none) (hnew : w.isInCache ⟨"worker", 0, 0⟩ ∅ ∅ = false) :
    Reached spawning {} (.visit (.function "worker" ∅)) w []
      (.visit (.statement ⟨"worker", 0, 1⟩ ∅ ∅)) (detectRaces spawning {} ⟨"worker", 0, 0⟩ true
        (.global "g") ∅ ((w.setOnStack "worker" true).addToCache ⟨"worker", 0, 0⟩ ∅ ∅)) := by
  have hg := (@Reached.start spawning {} (.visit (.function "worker" ∅)) w).body rfl hnone hstack
  exact (hg.goOn hnew rfl).head

/-- The analysis of `spawning` comes to both calls of `pthread_create` without locks, and
inside the first to both stores. -/
theorem spawning_creates :
    (∃ w, Creates spawning {} "main" ⟨"main", 0, 0⟩ "worker" ∅ w ∧
      VisitsStore spawning {} "worker" ∅ w ⟨"worker", 0, 0⟩ ∅ (.global "g") ∧
      VisitsStore spawning {} "worker" ∅ w ⟨"worker", 0, 1⟩ ∅ (.global "h")) ∧
    ∃ w, Creates spawning {} "main" ⟨"main", 0, 1⟩ "worker" ∅ w := by
  have hmain : Reached spawning {} (.visit (.function "main" ∅)) {} []
      (.visit (.function "main" ∅)) {} := .start
  have hfirst := hmain.body rfl rfl rfl
  have hrest := hfirst.resume rfl rfl (traverse_runs (n := 6) rfl)
  refine ⟨⟨_, .mk rfl hfirst rfl rfl, ?_, ?_⟩, ⟨_, .mk rfl hrest.head rfl rfl⟩⟩
  · exact @VisitsStore.mk _ _ _ _ _ _ _ _ _ _ (.constant "1") (.global "g") rfl
      (.body .start rfl rfl rfl) rfl
  · exact @VisitsStore.mk _ _ _ _ _ _ _ _ _ _ (.constant "1") (.global "h") rfl
      (spawning_visits rfl rfl rfl) rfl

/-- The store to `g` is its only access, and the report does not have it. -/
theorem unreported_store :
    (∃ w, Creates spawning {} "main" ⟨"main", 0, 0⟩ "worker" ∅ w ∧
      VisitsStore spawning {} "worker" ∅ w ⟨"worker", 0, 0⟩ ∅ (.global "g")) ∧
    (∃ w, Creates spawning {} "main" ⟨"main", 0, 1⟩ "worker" ∅ w) ∧
    spawning.isConstantGlobal (.global "g") = false ∧
    ∃ r w', traverseFrom spawning {} 9 "main" {} = .ok (r, w') ∧
      ¬ ∃ p ∈ pairs (reportLevel1Races true (fun v v' => v = v') w'.valueToAccessTypeMap),
        ⟨"worker", 0, 0⟩ ∈ p := by
  obtain ⟨⟨w, hcreates, hstore, -⟩, hagain⟩ := spawning_creates
  refine ⟨⟨w, hcreates, hstore⟩, hagain, rfl, _, _, rfl, ?_⟩
  decide

/-- The store to `h` races with the load in `main`. -/
theorem unprotected_store_loaded : ∃ r w', traverseFrom spawning {} 9 "main" {} = .ok (r, w') ∧
    (∃ k, IsRecord w'.valueToAccessTypeMap (.global "h") k ⟨true, true, ⟨"worker", 0, 1⟩, ∅⟩ ∧
      ∀ v' k' a, IsRecord w'.valueToAccessTypeMap v' k' a → (v', k') ≠ (.global "h", k) →
        (v' = .global "h" ∨ aliases true (fun v v' => v = v') (.global "h") v' = true) →
        s(⟨"worker", 0, 1⟩, a.instruction) ∈
          pairs (reportLevel1Races true (fun v v' => v = v') w'.valueToAccessTypeMap)) ∧
    ((∃ p ∈ pairs (reportLevel1Races true (fun v v' => v = v') w'.valueToAccessTypeMap),
        ⟨"worker", 0, 1⟩ ∈ p) ↔
      ∃ j, Racy w'.valueToAccessTypeMap (aliases true fun v v' => v = v') ⟨"worker", 0, 1⟩ j) := by
  obtain ⟨⟨w, hcreates, -, hstore⟩, -⟩ := spawning_creates
  refine ⟨_, _, rfl, ?_⟩
  exact unprotected_store (n := 9) (fun v v' => by simp [eq_comm]) rfl hcreates hstore rfl

end Lockout.Strator.Reports
