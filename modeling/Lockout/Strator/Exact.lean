import Lockout.Lib.Tabulation
import Lockout.Strator.Paths
import Lockout.Strator.Termination

/-! # The traversal is exact

Over an acyclic call graph whose lock operands do not depend on the context, the
traversal is a memoised search of `lockPaths`: its caches are the tables of the
search (`memo`), so what it passes to `detectRaces` are the accesses with the
locksets of all paths. -/

namespace Lockout.Strator.Exact
open Lockout.Lib Lockout.Lib.Interprocedural
open Lockout.Strator.Program Lockout.Strator.State Lockout.Strator.Traverse
open Lockout.Strator.Effects Lockout.Strator.Paths Lockout.Strator.Termination

/-- The caches of a worker as tables of a memoised search. -/
def memo (w : Worker) : Tabulation.Memo String InstId LockSet where
  summary f L := (w.summary? f L).map fun e => {X | X ∈ e.exitLockSets}
  seen := {c | (c.2.1, c.2.2) ∈ w.statementCache c.1}
  active := {f | w.onStack f = true}

def searchOf : Search → Tabulation.Visit String InstId LockSet
  | .visit (.function f L) => .proc f L
  | .visit (.statement s E L) => .node E s L
  | .each E work => .each E work

section Projection
variable {m : IRModule} {opts : Options} {mutex : InstId → Lock} {w w' : Worker} {s : InstId}
  {E L : LockSet} {f : String} {r : List LockSet}

theorem mem_seen_memo {c : InstId × LockSet × LockSet} :
    c ∈ (memo w).seen ↔ w.isInCache c.1 c.2.1 c.2.2 = true := by
  simp [memo, Worker.isInCache]

theorem memo_of_sameCaches (h : SameCaches w w') : memo w' = memo w := by
  unfold memo Worker.summary?
  rw [h.functionCache, h.onStack, h.statementCache]

theorem memo_addToCache : memo (w.addToCache s E L) = (memo w).see s E L := by
  have hseen : (memo (w.addToCache s E L)).seen = ((memo w).see s E L).seen := by
    ext c
    obtain ⟨s', E', L'⟩ := c
    rw [Tabulation.Memo.mem_see]
    show (E', L') ∈ Function.update w.statementCache s _ s' ↔ _ ∨ (E', L') ∈ w.statementCache s'
    rw [Function.update_apply]
    by_cases hs : s' = s
    · subst hs
      simp [or_comm]
    · simp [hs]
  exact congrArg (fun seen => { memo w with seen := seen }) hseen

theorem notMem_seen_memo (h : w.isInCache s E L = false) : (s, E, L) ∉ (memo w).seen := by
  intro hseen
  rw [mem_seen_memo.mp hseen] at h
  cases h

theorem memo_processStatement {next : Next}
    (h : processStatement m opts s L (w.addToCache s E L) = .ok (next, w')) :
    memo w' = (memo w).see s E L := by
  rw [memo_of_sameCaches (step_of_processStatement h).sameCaches, memo_addToCache]

theorem memo_setOnStack : memo (w.setOnStack f true) = (memo w).start f := by
  have hactive : (memo (w.setOnStack f true)).active = insert f (memo w).active := by
    ext g
    show Function.update w.onStack f true g = true ↔ g = f ∨ w.onStack g = true
    rw [Function.update_apply]
    by_cases hg : g = f
    · simp [hg]
    · simp [hg]
  exact congrArg (fun active => { memo w with active := active }) hactive

theorem summary?_finishFunction {g : String} {L' : LockSet} (hnone : w.summary? f L = none) :
    (finishFunction f L r w).summary? g L' =
      if g = f ∧ L' = L then some ⟨L, r⟩ else w.summary? g L' := by
  unfold Worker.summary? at hnone ⊢
  rw [functionCache_finishFunction]
  by_cases hg : g = f
  · subst hg
    rw [if_pos rfl, List.find?_append]
    by_cases hL : L' = L
    · subst hL
      rw [hnone]
      simp
    · simp [hL, Ne.symm hL]
  · simp [hg]

theorem memo_finishFunction (hnone : w.summary? f L = none) :
    memo (finishFunction f L r w) = (memo w).finish f L {X | X ∈ r} := by
  have hsummary : (memo (finishFunction f L r w)).summary =
      ((memo w).finish f L {X | X ∈ r}).summary := by
    funext g L'
    rw [Tabulation.summary_finish]
    show ((finishFunction f L r w).summary? g L').map _ = _
    rw [summary?_finishFunction hnone]
    by_cases hg : g = f ∧ L' = L
    · rw [if_pos hg, if_pos hg]
      rfl
    · rw [if_neg hg, if_neg hg]
      rfl
  have hactive : (memo (finishFunction f L r w)).active = (memo w).active \ {f} := by
    ext g
    show (finishFunction f L r w).onStack g = true ↔ w.onStack g = true ∧ g ≠ f
    rw [onStack_finishFunction]
    by_cases hg : g = f
    · simp [hg]
    · simp [hg]
  show (⟨_, _, _⟩ : Tabulation.Memo String InstId LockSet) = ⟨_, _, _⟩
  congr

theorem lists_successors {working : List LockSet} {facts : Set LockSet}
    (h : ∀ L, L ∈ working ↔ L ∈ facts) :
    Tabulation.Lists (lockPaths m mutex) s facts (successors m s working) :=
  fun c => mem_successors.trans (and_congr_right fun _ => h c.2)

/-- The working list after a function: its exits, or the lockset as it was. -/
theorem mem_workingList {exits : List LockSet} {L' : LockSet} :
    L' ∈ workingList opts L exits ↔
      L' ∈ Tabulation.afterCall {X | X ∈ exits} (fun X => X) L := by
  unfold workingList
  show _ ↔ (∃ y ∈ {X | X ∈ exits}, L' = y) ∨ ({X | X ∈ exits} = ∅ ∧ L' = L)
  split
  · rename_i hempty
    subst hempty
    simp
  · rename_i hne
    rw [(opts.order.perm exits).mem_iff]
    have hnonempty : {X | X ∈ exits} ≠ ∅ := by
      obtain ⟨X, rest, rfl⟩ := List.exists_cons_of_ne_nil hne
      exact Set.nonempty_iff_ne_empty.mp ⟨X, List.mem_cons_self⟩
    simp [hnonempty]

theorem exits_nil : {X : LockSet | X ∈ []} = ∅ := by
  ext X
  simp

/-- A call of the traversal is a memoised search of the paths. -/
theorem tabulates (hmutex : OfMutex m opts mutex) {t : Search} (h : Runs m opts t w r w')
    (hw : Admissible m w.parentValue) :
    Tabulation.Runs (lockPaths m mutex) (searchOf t) (memo w) {X | X ∈ r} (memo w') := by
  induction h with
  | declaration hentry =>
    rw [exits_nil]
    exact .noBody hentry
  | @summary f L w first e hentry he =>
    refine .summary (by rw [show (lockPaths m mutex).entry f = _ from hentry]; nofun) ?_
    show (w.summary? f L).map _ = _
    rw [he]
    rfl
  | recursion _ _ hstack =>
    rw [exits_nil]
    exact .recursive hstack
  | @function f L w first r w' hentry hnone hstack hbody ih =>
    have hstill : w'.summary? f L = none := by
      unfold Worker.summary? at hnone ⊢
      rw [functionCache_of_runs hbody (Function.update_self ..)]
      exact hnone
    rw [memo_finishFunction hstill]
    refine .proc hentry ?_ (by simp [memo, hstack]) ?_
    · show (w.summary? f L).map _ = none
      rw [hnone]
      rfl
    · rw [← memo_setOnStack]
      exact ih hw
  | cached hcached =>
    rw [exits_nil]
    exact .seen (mem_seen_memo.mpr hcached)
  | @returned s E L w w₁ hnew hs =>
    have hone : {X | X ∈ [L]} = {L} := by ext X; simp
    rw [hone, memo_processStatement hs]
    exact .exit (notMem_seen_memo hnew) (kind_of_processStatement hmutex hw hs)
  | @goOn s E L w w₁ L' r w' hnew hs _ ih =>
    obtain ⟨effect, hkind, rfl⟩ := kind_of_processStatement hmutex hw hs
    have hrest := ih (admissible_processStatement hw hs)
    rw [memo_processStatement hs] at hrest
    exact .step (notMem_seen_memo hnew) hkind (lists_successors fun X => List.mem_singleton) hrest
  | @call s E L w w₁ f L' exits w₂ r w' hnew hs hcallee _ ihf ih =>
    obtain ⟨hkind, rfl⟩ := kind_of_processStatement hmutex hw hs
    have hw₁ := admissible_processStatement hw hs
    have hfunction := ihf hw₁
    rw [memo_processStatement hs] at hfunction
    have hrest := ih (admissible_eraseArguments (admissible_of_runs hcallee hw₁))
    rw [memo_of_sameCaches bookkeeping_eraseArguments.toSameCaches] at hrest
    exact .call (notMem_seen_memo hnew) hkind hfunction
      (lists_successors fun X => mem_workingList) hrest
  | nil =>
    rw [exits_nil]
    exact .nil
  | @cons E s L work w r w₁ r' w' hfirst _ ih ih' =>
    have hunion : {X | X ∈ r ∪ r'} = {X | X ∈ r} ∪ {X | X ∈ r'} := by
      ext X
      simp
    rw [hunion]
    exact .cons (ih hw) (ih' (admissible_of_runs hfirst hw))

end Projection

/-! ## Modules the analysis accepts -/

/-- No assertion of the traversal can fail. -/
structure Accepted (m : IRModule) : Prop where
  noIndirectBr : ∀ s, m.op? s ≠ some .indirectBr
  mutexes : GlobalMutexes m
  workers : ∀ {s callee args g}, m.op? s = some (.call callee args) →
    calledFunction callee = some g → isThreadCreationFunction g = true →
    ∃ f, getThreadWorkerFunction m args = .ok f ∧ (m.function f).params.length = 1

/-- `Accepted` for one statement, as a check. -/
def acceptsAt (m : IRModule) (s : InstId) : Bool :=
  match m.op? s with
  | some .indirectBr => false
  | some (.call callee args) =>
    match calledFunction callee with
    | none => true
    | some g =>
      if isThreadCreationFunction g then
        match getThreadWorkerFunction m args with
        | .ok f => (m.function f).params.length = 1
        | .error _ => false
      else if isLock g || isUnLock g then
        match args with
        | [.global _] => true
        | _ => false
      else true
  | _ => true

theorem accepted_of_statements {m : IRModule} (h : ∀ s ∈ statements m, acceptsAt m s = true) :
    Accepted m := by
  have hat : ∀ {s op}, m.op? s = some op → acceptsAt m s = true := by
    intro s op hop
    obtain ⟨inst, hinst, -⟩ := Option.map_eq_some_iff.mp hop
    exact h s (mem_statements hinst)
  refine ⟨?_, ?_, ?_⟩
  · intro s hop
    have hs := hat hop
    simp [acceptsAt, hop] at hs
  · intro s callee args g hop hcallee hlock
    have hs := hat hop
    simp only [acceptsAt, hop, hcallee] at hs
    have hcreate : isThreadCreationFunction g = false := by
      cases hg : isThreadCreationFunction g with
      | false => rfl
      | true =>
        rw [show g = "pthread_create" by simpa [isThreadCreationFunction] using hg] at hlock
        exact absurd hlock (by decide)
    rw [hcreate, hlock, if_neg nofun, if_pos rfl] at hs
    split at hs
    · exact ⟨_, rfl⟩
    · cases hs
  · intro s callee args g hop hcallee hg
    have hs := hat hop
    simp only [acceptsAt, hop, hcallee, hg, if_true] at hs
    split at hs
    · rename_i f hf
      exact ⟨f, hf, of_decide_eq_true hs⟩
    · cases hs

/-- The function a statement calls, on the paths. -/
def calleeOf (m : IRModule) (mutex : InstId → Lock) (s : InstId) : Option String :=
  match lockKind m mutex s with
  | .call f .. => some f
  | _ => none

theorem statement_of_calls {m : IRModule} {mutex : InstId → Lock} {f g : String}
    (h : (lockPaths m mutex).Calls f g) :
    ∃ s ∈ statements m, s.func = f ∧ calleeOf m mutex s = some g := by
  obtain ⟨s, enter, resume, skip, hfunc, hk⟩ := h
  have hkind : lockKind m mutex s = .call g enter resume skip := hk
  refine ⟨s, ?_, hfunc, by simp [calleeOf, hkind]⟩
  cases hinst : m.inst? s with
  | some inst => exact mem_statements hinst
  | none => simp [lockKind, IRModule.op?, hinst] at hkind

/-- A call graph that descends some rank has no cycle. -/
theorem acyclic_of_rank {m : IRModule} {mutex : InstId → Lock} (rank : String → Nat)
    (h : ∀ s ∈ statements m, ∀ f ∈ calleeOf m mutex s, rank f < rank s.func) :
    Acyclic m mutex := by
  have hcalls : ∀ {f g}, (lockPaths m mutex).Calls f g → rank g < rank f := by
    intro f g hcalls
    obtain ⟨s, hs, rfl, hcallee⟩ := statement_of_calls hcalls
    exact h s hs g hcallee
  have hpath : ∀ {f g}, Relation.TransGen (lockPaths m mutex).Calls f g → rank g < rank f := by
    intro f g hfg
    induction hfg with
    | single hfg => exact hcalls hfg
    | tail _ hgk ih => exact (hcalls hgk).trans ih
  exact fun f hf => Nat.lt_irrefl _ (hpath hf)

def Exists (m : IRModule) : Visit → Prop
  | .function .. => True
  | .statement s _ _ => ∃ inst, m.inst? s = some inst

section Accept
variable {m : IRModule} {opts : Options} {w : Worker} {s : InstId} {E L : LockSet}
  {message : String}

theorem getLockValue_accepted (hm : Accepted m) {callee : Value} {args : List Value} {g : String}
    {bindings : FlowSensitiveValue} (hop : m.op? s = some (.call callee args))
    (hcallee : calledFunction callee = some g) (hlock : (isLock g || isUnLock g) = true) :
    getLockValue m opts bindings args ≠ .error (.assertFailed message) := by
  obtain ⟨name, rfl⟩ := hm.mutexes hop hcallee hlock
  nofun

theorem processStatement_accepted (hm : Accepted m) (hs : ∃ inst, m.inst? s = some inst) :
    processStatement m opts s L w ≠ .error (.assertFailed message) := by
  obtain ⟨inst, hinst⟩ := hs
  have hop : m.op? s = some inst.op := by
    rw [IRModule.op?, hinst]
    rfl
  unfold processStatement
  rw [hop]
  cases hi : inst.op with
  | indirectBr =>
    rw [hi] at hop
    exact absurd hop (hm.noIndirectBr s)
  | call callee args =>
    rw [hi] at hop
    dsimp only
    unfold processCall
    dsimp only
    cases hcallee : calledFunction callee with
    | none => nofun
    | some g =>
      dsimp only
      split
      · rename_i hlock
        exact map_ne_error (getLockValue_accepted hm hop hcallee (by rw [hlock]; rfl))
      · split
        · rename_i hunlock
          exact map_ne_error (getLockValue_accepted hm hop hcallee (by rw [hunlock]; simp))
        · unfold enterCall
          cases hg : isThreadCreationFunction g with
          | false => nofun
          | true =>
            obtain ⟨f, hf, hparams⟩ := hm.workers hop hcallee hg
            simp [hf, hparams, Except.bind]
  | _ => nofun

theorem traverseEach_accepted {rec : Visit → Worker → Outcome}
    (hrec : ∀ v w, Exists m v → rec v w ≠ .error (.assertFailed message))
    {work : List (InstId × LockSet)} (hwork : ∀ c ∈ work, ∃ inst, m.inst? c.1 = some inst)
    {w : Worker} : traverseEach rec E work w ≠ .error (.assertFailed message) := by
  induction work generalizing w with
  | nil => nofun
  | cons c work ih =>
    refine bind_ne_error (hrec _ w (hwork c List.mem_cons_self)) fun out _ => ?_
    exact map_ne_error (ih fun c hc => hwork c (List.mem_cons_of_mem _ hc))

theorem exists_successors (hs : ∃ inst, m.inst? s = some inst) {working : List LockSet} :
    ∀ c ∈ successors m s working, ∃ inst, m.inst? c.1 = some inst := by
  intro c hc
  exact inst?_succs (mem_successors.mp hc).1 hs

theorem traverse_accepted (hm : Accepted m) {n : Nat} {v : Visit} (hv : Exists m v) :
    traverse m opts n v w ≠ .error (.assertFailed message) := by
  induction n generalizing v w with
  | zero => nofun
  | succ n ih =>
    cases v with
    | function f L =>
      show traverseFunction m (traverse m opts n) f L w ≠ _
      unfold traverseFunction
      split
      · nofun
      · rename_i first hfirst
        split
        · nofun
        · split
          · nofun
          · exact map_ne_error (ih (inst?_entry hfirst))
    | statement s E L =>
      show traverseStatement m opts (traverse m opts n) s E L w ≠ _
      unfold traverseStatement
      split
      · nofun
      · refine bind_ne_error (processStatement_accepted hm hv) ?_
        rintro ⟨next, w₁⟩ -
        cases next with
        | returned => nofun
        | goOn L' => exact traverseEach_accepted (fun v w hv => ih hv) (exists_successors hv)
        | call f L' =>
          refine bind_ne_error (ih trivial) fun out _ => ?_
          exact traverseEach_accepted (fun v w hv => ih hv) (exists_successors hv)

/-- In a module it accepts every call of the traversal returns. -/
theorem visit_returns (hm : Accepted m) {V : Finset Value} (hV : Covers m V) {v : Visit}
    (hv : Exists m v) (hstarts : Starts V (.visit v)) (hw : Bounded V w) :
    ∃ r w', Runs m opts (.visit v) w r w' := by
  have hends : traverse m opts (nesting m V w v) v w ≠ .error .outOfFuel :=
    traverse_ends hV hstarts hw (Nat.le_refl _)
  cases hout : traverse m opts (nesting m V w v) v w with
  | ok out => exact ⟨out.1, out.2, traverse_runs hout⟩
  | error e =>
    cases e with
    | outOfFuel => exact absurd hout hends
    | assertFailed message => exact absurd hout (traverse_accepted hm hv)

/-- The analysis of a module it accepts returns. -/
theorem traverseFrom_returns (hm : Accepted m) (opts : Options) (root : String)
    (hw : Bounded (values m) w) : ∃ r w', Runs m opts (.visit (.function root ∅)) w r w' :=
  visit_returns hm (covers_values m) trivial (Finset.empty_subset _) hw

end Accept

/-! ## What is passed to `detectRaces` -/

/-- `detectRaces` has been called for the accesses in the statement cache. -/
def Logged (m : IRModule) (w : Worker) : Prop :=
  ∀ s L, (s, L) ∈ w.detected ↔ isAccess m s = true ∧ ∃ E, w.isInCache s E L = true

section Detected
variable {m : IRModule} {opts : Options} {mutex : InstId → Lock} {w w' : Worker} {s : InstId}
  {E L : LockSet} {r : List LockSet} {root f : String}

theorem Logged.processStatement {next : Next} (hw : Logged m w)
    (h : processStatement m opts s L (w.addToCache s E L) = .ok (next, w')) : Logged m w' := by
  have hstep := step_of_processStatement h
  intro s' L'
  have hcache : (∃ E', w'.isInCache s' E' L' = true) ↔
      (s' = s ∧ L' = L) ∨ ∃ E', w.isInCache s' E' L' = true := by
    simp only [isInCache_of_statementCache hstep.sameCaches.statementCache, isInCache_addToCache]
    constructor
    · rintro ⟨E', ⟨hs, -, hL⟩ | h⟩
      · exact .inl ⟨hs, hL⟩
      · exact .inr ⟨E', h⟩
    · rintro (⟨hs, hL⟩ | ⟨E', h⟩)
      · exact ⟨E, .inl ⟨hs, rfl, hL⟩⟩
      · exact ⟨E', .inr h⟩
  have hdetected : (w.addToCache s E L).detected = w.detected := rfl
  rw [hcache, hstep.detected, hdetected]
  cases haccess : isAccess m s with
  | true =>
    rw [if_pos rfl, List.mem_cons, Prod.mk.injEq, hw s' L']
    constructor
    · rintro (⟨rfl, rfl⟩ | ⟨ha, h⟩)
      · exact ⟨haccess, .inl ⟨rfl, rfl⟩⟩
      · exact ⟨ha, .inr h⟩
    · rintro ⟨ha, h | h⟩
      · exact .inl h
      · exact .inr ⟨ha, h⟩
  | false =>
    rw [if_neg nofun, hw s' L']
    constructor
    · exact fun ⟨ha, h⟩ => ⟨ha, .inr h⟩
    · rintro ⟨ha, ⟨rfl, -⟩ | h⟩
      · rw [haccess] at ha
        cases ha
      · exact ⟨ha, h⟩

theorem logged_of_runs {t : Search} (h : Runs m opts t w r w') (hw : Logged m w) :
    Logged m w' := by
  induction h with
  | declaration | summary | recursion | cached | nil => exact hw
  | function _ _ _ _ ih => exact ih hw
  | returned _ hs => exact hw.processStatement hs
  | goOn _ hs _ ih => exact ih (hw.processStatement hs)
  | call _ hs _ _ ihf ih => exact ih (ihf (hw.processStatement hs))
  | cons _ _ ih ih' => exact ih' (ih hw)

theorem consistent_memo_empty {A : String → LockSet → Prop} :
    Tabulation.Consistent (lockPaths m mutex) A (memo {}) := by
  refine Tabulation.consistent_empty ?_ fun _ _ => rfl
  ext c
  simp [memo]

/-- What a whole analysis has visited. -/
theorem isInCache_iff (hmutex : OfMutex m opts mutex) (hacyclic : Acyclic m mutex)
    (h : Runs m opts (.visit (.function root ∅)) {} r w) :
    w.isInCache s E L = true ↔ (lockPaths m mutex).Activated root ∅ s.func E ∧
      (lockPaths m mutex).Reach s.func E s L := by
  have hrun := tabulates hmutex h admissible_empty
  have hactive : (memo {}).active = ∅ := by
    ext f
    simp [memo]
  rw [← mem_seen_memo (c := (s, E, L))]
  exact hrun.seen_iff hacyclic consistent_memo_empty hactive

/-- A module without recursion whose mutexes are global variables: the analysis from any
root ends, and when it has returned it has passed to `detectRaces` exactly the loads and
stores with the locksets they are reached with on the paths from the root. -/
theorem detected_exact (hmutexes : GlobalMutexes m) (hacyclic : Acyclic m (operandOf m))
    (opts : Options) (root : String) :
    (∃ N, ∀ n, N ≤ n → traverseFrom m opts n root {} ≠ .error .outOfFuel) ∧
    ∀ n r w, traverseFrom m opts n root {} = .ok (r, w) →
      ∀ s L, (s, L) ∈ w.detected ↔ isAccess m s = true ∧
        ∃ E, (lockPaths m (operandOf m)).Activated root ∅ s.func E ∧
          (lockPaths m (operandOf m)).Reach s.func E s L := by
  refine ⟨traverseFrom_ends m opts root {} bounded_empty, fun n r w hreturns s L => ?_⟩
  have hrun := traverse_runs hreturns
  have hlogged : Logged m {} := by
    intro s L
    simp [Worker.isInCache]
  rw [logged_of_runs hrun hlogged s L]
  simp only [isInCache_iff (ofMutex_operandOf hmutexes) hacyclic hrun]

end Detected

/-- `main` locks `m`, starts a thread, stores and unlocks; the worker loads. -/
def guarded : IRModule where
  functions := [
    ("main", { blocks := [{ insts := [
      ⟨"", .call (.function "pthread_mutex_lock") [.global "m"]⟩,
      ⟨"", .call (.function "pthread_create")
        [.constant "null", .constant "null", .function "worker", .constant "null"]⟩,
      ⟨"", .store (.constant "1") (.global "g")⟩,
      ⟨"", .call (.function "pthread_mutex_unlock") [.global "m"]⟩,
      ⟨"", .ret⟩] }] }),
    ("worker", { params := ["arg"], blocks := [{ insts := [⟨"", .load (.global "g")⟩, ⟨"", .ret⟩] }] })]
  globals := [("m", false), ("g", false)]

theorem guarded_accepted : Accepted guarded := accepted_of_statements (by decide)

theorem guarded_acyclic : Acyclic guarded (operandOf guarded) :=
  acyclic_of_rank (fun f => if f = "main" then 1 else 0) (by decide)

theorem detected_exact_guarded : ∃ n r w, traverseFrom guarded {} n "main" {} = .ok (r, w) ∧
    ∀ s L, (s, L) ∈ w.detected ↔ isAccess guarded s = true ∧
      ∃ E, (lockPaths guarded (operandOf guarded)).Activated "main" ∅ s.func E ∧
        (lockPaths guarded (operandOf guarded)).Reach s.func E s L := by
  obtain ⟨r, w, hrun⟩ := traverseFrom_returns guarded_accepted {} "main" bounded_empty
  obtain ⟨N, hN⟩ := hrun.ends
  have hreturns : traverseFrom guarded {} N "main" {} = .ok (r, w) := hN N (Nat.le_refl _)
  exact ⟨N, r, w, hreturns,
    (detected_exact guarded_accepted.mutexes guarded_acyclic {} "main").2 N r w hreturns⟩

end Lockout.Strator.Exact
