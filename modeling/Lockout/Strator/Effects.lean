import Lockout.Strator.Traverse

/-! # What one statement does

`Step` lists the ways through `processStatement`, so that later proofs split on them
once and do not unfold it. The rest follows single parts of the state through one
statement and through a whole call: the caches, the stack and the flags. -/

namespace Lockout.Strator.Effects
open Lockout.Strator.Program Lockout.Strator.State Lockout.Strator.Traverse

/-- A call of `g` with `args` enters `f` with the actuals `actuals`. -/
inductive Resolves (m : IRModule) (g : String) (args : List Value) : String → List Value → Prop
  | direct : isThreadCreationFunction g = false → Resolves m g args g args
  | creation {f} : isThreadCreationFunction g = true → getThreadWorkerFunction m args = .ok f →
      (m.function f).params.length = 1 → Resolves m g args f (args.drop 3)

/-- The actuals are arguments of the call. -/
theorem Resolves.subset {m : IRModule} {g f : String} {args actuals : List Value}
    (h : Resolves m g args f actuals) : actuals ⊆ args := by
  cases h with
  | direct => exact List.Subset.refl _
  | creation => exact List.drop_subset _ _

/-- Instructions the traversal passes over. -/
def isPlain : Opcode → Bool
  | .alloca _ | .getElementPtr .. | .other _ => true
  | _ => false

/-- Statement `s` with lockset `L` goes on as the first index says, in the state of
the second. -/
inductive Step (m : IRModule) (opts : Options) (s : InstId) (L : LockSet) (w : Worker) :
    Next → Worker → Prop
  | returned : m.op? s = some .ret → Step m opts s L w .returned w
  | bitCast {v} : m.op? s = some (.bitCast v) →
      Step m opts s L w (.goOn L) (w.setParentValue (.inst s) v)
  | unresolved {callee args} : m.op? s = some (.call callee args) → calledFunction callee = none →
      Step m opts s L w (.goOn L) (markMultithreaded m opts s callee w)
  | lock {callee args g l} : m.op? s = some (.call callee args) → calledFunction callee = some g →
      isLock g = true →
      getLockValue m opts (markMultithreaded m opts s callee w).parentValue args = .ok l →
      Step m opts s L w (.goOn (insert l L)) (markMultithreaded m opts s callee w)
  | unlock {callee args g l} : m.op? s = some (.call callee args) →
      calledFunction callee = some g → isLock g = false → isUnLock g = true →
      getLockValue m opts (markMultithreaded m opts s callee w).parentValue args = .ok l →
      Step m opts s L w (.goOn (L.erase l)) (markMultithreaded m opts s callee w)
  | call {callee args g f actuals} : m.op? s = some (.call callee args) →
      calledFunction callee = some g → isLock g = false → isUnLock g = false →
      Resolves m g args f actuals →
      Step m opts s L w (.call f L)
        (bindArguments m f actuals (inheritFlag s f (markMultithreaded m opts s callee w)))
  | load {pointer} : m.op? s = some (.load pointer) →
      Step m opts s L w (.goOn L) (detectRaces m opts s false pointer L w)
  | store {value pointer} : m.op? s = some (.store value pointer) →
      Step m opts s L w (.goOn L) (detectRaces m opts s true pointer L w)
  | plain {op} : m.op? s = some op → isPlain op = true → Step m opts s L w (.goOn L) w

section Inversion
variable {m : IRModule} {opts : Options} {s : InstId} {L : LockSet} {w w' : Worker} {next : Next}

theorem enterCall_eq_ok {g : String} {args : List Value}
    (h : enterCall m s g args L w = .ok (next, w')) : ∃ f actuals, Resolves m g args f actuals ∧
      next = .call f L ∧ w' = bindArguments m f actuals (inheritFlag s f w) := by
  unfold enterCall at h
  obtain ⟨f, hf, h⟩ := bind_eq_ok.mp h
  dsimp only at h
  cases hg : isThreadCreationFunction g with
  | false =>
    rw [hg] at hf h
    cases hf
    cases h
    exact ⟨g, args, .direct hg, rfl, rfl⟩
  | true =>
    rw [hg] at hf h
    rw [if_pos rfl] at hf h
    split at h
    · rename_i hparams
      cases h
      exact ⟨f, args.drop 3, .creation hg hf hparams, rfl, rfl⟩
    · cases h

/-- Every statement that does not fail goes one of the ways of `Step`. -/
theorem step_of_processStatement (h : processStatement m opts s L w = .ok (next, w')) :
    Step m opts s L w next w' := by
  unfold processStatement at h
  cases hop : m.op? s with
  | none => rw [hop] at h; cases h
  | some op =>
    rw [hop] at h
    cases op with
    | indirectBr => cases h
    | ret => cases h; exact .returned hop
    | bitCast v => cases h; exact .bitCast hop
    | load pointer => cases h; exact .load hop
    | store value pointer => cases h; exact .store hop
    | alloca size => cases h; exact .plain hop rfl
    | getElementPtr base indices => cases h; exact .plain hop rfl
    | other operands => cases h; exact .plain hop rfl
    | call callee args =>
      dsimp only at h
      unfold processCall at h
      dsimp only at h
      cases hcallee : calledFunction callee with
      | none =>
        rw [hcallee] at h
        cases h
        exact .unresolved hop hcallee
      | some g =>
        rw [hcallee] at h
        dsimp only at h
        split at h
        · rename_i hlock
          obtain ⟨l, hl, h⟩ := map_eq_ok.mp h
          cases h
          exact .lock hop hcallee hlock hl
        · rename_i hlock
          split at h
          · rename_i hunlock
            obtain ⟨l, hl, h⟩ := map_eq_ok.mp h
            cases h
            exact .unlock hop hcallee (Bool.eq_false_iff.mpr hlock) hunlock hl
          · rename_i hunlock
            obtain ⟨f, actuals, hresolves, rfl, rfl⟩ := enterCall_eq_ok h
            exact .call hop hcallee (Bool.eq_false_iff.mpr hlock) (Bool.eq_false_iff.mpr hunlock)
              hresolves

/-- And `Step` lists no other ways. -/
theorem processStatement_of_step (h : Step m opts s L w next w') :
    processStatement m opts s L w = .ok (next, w') := by
  unfold processStatement
  cases h with
  | returned hop | bitCast hop | load hop | store hop => rw [hop]
  | @plain op hop hplain =>
    rw [hop]
    cases op with
    | alloca | getElementPtr | other => rfl
    | _ => cases hplain
  | unresolved hop hcallee =>
    rw [hop]
    simp [processCall, hcallee]
  | lock hop hcallee hlock hl =>
    rw [hop]
    simp [processCall, hcallee, hlock, hl, Except.map]
  | unlock hop hcallee hlock hunlock hl =>
    rw [hop]
    simp [processCall, hcallee, hlock, hunlock, hl, Except.map]
  | call hop hcallee hlock hunlock hresolves =>
    rw [hop]
    cases hresolves with
    | direct hcreation =>
      simp [processCall, hcallee, hlock, hunlock, enterCall, hcreation, Except.bind]
    | creation hcreation hworker hparams =>
      simp [processCall, hcallee, hlock, hunlock, enterCall, hcreation, hworker, hparams,
        Except.bind]

end Inversion

/-! ## What stays as it is -/

/-- The caches and the stack of `w'` are those of `w`. -/
structure SameCaches (w w' : Worker) : Prop where
  functionCache : w'.functionCache = w.functionCache
  onStack : w'.onStack = w.onStack
  statementCache : w'.statementCache = w.statementCache

/-- Besides the caches and the stack, nothing more is detected or recorded either. -/
structure Bookkeeping (w w' : Worker) : Prop extends SameCaches w w' where
  detected : w'.detected = w.detected
  recorded : w'.valueToAccessTypeMap = w.valueToAccessTypeMap

section Frames
variable {m : IRModule} {opts : Options} {s : InstId} {L : LockSet} {w w' w'' : Worker}
  {next : Next} {f : String}

theorem SameCaches.refl : SameCaches w w := ⟨rfl, rfl, rfl⟩

theorem Bookkeeping.refl : Bookkeeping w w := ⟨.refl, rfl, rfl⟩

theorem Bookkeeping.trans (h : Bookkeeping w w') (h' : Bookkeeping w' w'') :
    Bookkeeping w w'' where
  functionCache := h'.functionCache.trans h.functionCache
  onStack := h'.onStack.trans h.onStack
  statementCache := h'.statementCache.trans h.statementCache
  detected := h'.detected.trans h.detected
  recorded := h'.recorded.trans h.recorded

theorem bookkeeping_propagateUpward {n : Nat} {g : Option String} :
    Bookkeeping w (propagateUpward n g w) := by
  induction n generalizing g w with
  | zero => exact .refl
  | succ n ih =>
    unfold propagateUpward
    split
    · exact .refl
    · rename_i caller _
      have hmark : Bookkeeping w ((w.addAPI caller).setMultithreaded caller) :=
        ⟨⟨rfl, rfl, rfl⟩, rfl, rfl⟩
      exact hmark.trans ih

theorem bookkeeping_noteCaller {g : Option String} : Bookkeeping w (noteCaller opts s g w) := by
  unfold noteCaller
  split
  · exact ⟨⟨rfl, rfl, rfl⟩, rfl, rfl⟩
  · exact .refl

theorem bookkeeping_setMultithreaded : Bookkeeping w (w.setMultithreaded f) :=
  ⟨⟨rfl, rfl, rfl⟩, rfl, rfl⟩

theorem bookkeeping_markMultithreaded {callee : Value} :
    Bookkeeping w (markMultithreaded m opts s callee w) := by
  have hcaller : Bookkeeping w (noteCaller opts s (calledFunction callee) w) :=
    bookkeeping_noteCaller
  unfold markMultithreaded
  dsimp only
  split
  · exact hcaller.trans (bookkeeping_setMultithreaded.trans bookkeeping_propagateUpward)
  · exact hcaller

theorem bookkeeping_inheritFlag : Bookkeeping w (inheritFlag s f w) := by
  unfold inheritFlag
  split
  · exact bookkeeping_setMultithreaded
  · exact .refl

/-- A call changes nothing but the bindings when it binds the arguments. -/
theorem bindArguments_eq {actuals : List Value} : ∃ bindings,
    bindArguments m f actuals w = { w with parentValue := bindings } := by
  unfold bindArguments
  generalize (m.arguments f).zip actuals = pairs
  induction pairs generalizing w with
  | nil => exact ⟨w.parentValue, rfl⟩
  | cons p pairs ih => exact ih

theorem bookkeeping_bindArguments {actuals : List Value} :
    Bookkeeping w (bindArguments m f actuals w) := by
  obtain ⟨bindings, heq⟩ := @bindArguments_eq m w f actuals
  rw [heq]
  exact ⟨⟨rfl, rfl, rfl⟩, rfl, rfl⟩

theorem bookkeeping_call {callee : Value} {actuals : List Value} :
    Bookkeeping w
      (bindArguments m f actuals (inheritFlag s f (markMultithreaded m opts s callee w))) :=
  (bookkeeping_markMultithreaded.trans bookkeeping_inheritFlag).trans bookkeeping_bindArguments

theorem bookkeeping_eraseArguments : Bookkeeping w (eraseArguments m f w) :=
  ⟨⟨rfl, rfl, rfl⟩, rfl, rfl⟩

theorem detectRaces_sameCaches {isStore : Bool} {pointer : Value} :
    SameCaches w (detectRaces m opts s isStore pointer L w) := by
  unfold detectRaces
  dsimp only
  split
  · exact ⟨rfl, rfl, rfl⟩
  · split
    · exact ⟨rfl, rfl, rfl⟩
    · exact ⟨rfl, rfl, rfl⟩

theorem detected_detectRaces {isStore : Bool} {pointer : Value} :
    (detectRaces m opts s isStore pointer L w).detected = (s, L) :: w.detected := by
  unfold detectRaces
  dsimp only
  split
  · rfl
  · split
    · rfl
    · rfl

/-- A load or store. -/
def isAccess (m : IRModule) (s : InstId) : Bool :=
  match m.op? s with
  | some (.load _) | some (.store ..) => true
  | _ => false

/-- One statement leaves the caches and the stack alone. -/
theorem Step.sameCaches (h : Step m opts s L w next w') : SameCaches w w' := by
  cases h with
  | returned | plain => exact .refl
  | bitCast => exact ⟨rfl, rfl, rfl⟩
  | unresolved | lock | unlock => exact bookkeeping_markMultithreaded.toSameCaches
  | call => exact bookkeeping_call.toSameCaches
  | load | store => exact detectRaces_sameCaches

/-- A load or store is passed to `detectRaces`, and nothing else is. -/
theorem Step.detected (h : Step m opts s L w next w') :
    w'.detected = if isAccess m s then (s, L) :: w.detected else w.detected := by
  unfold isAccess
  cases h with
  | returned hop | bitCast hop => rw [hop]; rfl
  | unresolved hop | lock hop | unlock hop =>
    rw [hop]
    exact bookkeeping_markMultithreaded.detected
  | call hop =>
    rw [hop]
    exact bookkeeping_call.detected
  | load hop | store hop =>
    rw [hop]
    exact detected_detectRaces
  | @plain op hop hplain =>
    rw [hop]
    cases op with
    | alloca | getElementPtr | other => rfl
    | _ => cases hplain

end Frames

/-! ## The bindings -/

section Bindings
variable {m : IRModule} {opts : Options} {s : InstId} {L : LockSet} {w : Worker} {f : String}
  {v p : Value}

theorem parentValue_propagateUpward {n : Nat} {g : Option String} :
    (propagateUpward n g w).parentValue = w.parentValue := by
  induction n generalizing g w with
  | zero => rfl
  | succ n ih =>
    unfold propagateUpward
    split
    · rfl
    · exact ih

theorem parentValue_noteCaller {g : Option String} :
    (noteCaller opts s g w).parentValue = w.parentValue := by
  unfold noteCaller
  split
  · rfl
  · rfl

@[simp] theorem parentValue_markMultithreaded {callee : Value} :
    (markMultithreaded m opts s callee w).parentValue = w.parentValue := by
  unfold markMultithreaded
  dsimp only
  split
  · rw [parentValue_propagateUpward]
    exact parentValue_noteCaller
  · exact parentValue_noteCaller

@[simp] theorem parentValue_inheritFlag : (inheritFlag s f w).parentValue = w.parentValue := by
  unfold inheritFlag
  split
  · rfl
  · rfl

@[simp] theorem parentValue_detectRaces {isStore : Bool} {pointer : Value} :
    (detectRaces m opts s isStore pointer L w).parentValue = w.parentValue := by
  unfold detectRaces
  dsimp only
  split
  · rfl
  · split
    · rfl
    · rfl

theorem lookup_insert_iff {bindings : FlowSensitiveValue} {k q : Value} :
    (bindings.insert k q).lookup v = some p ↔
      (v = k ∧ p = q) ∨ (v ≠ k ∧ bindings.lookup v = some p) := by
  by_cases hv : v = k
  · subst hv
    simp [@eq_comm _ p q]
  · rw [AList.lookup_insert_ne hv]
    simp [hv]

theorem lookup_foldl_of_notMem {l : List (Value × Value)} (h : ∀ q, (v, q) ∉ l) :
    (l.foldl (fun w b => w.setParentValue b.1 b.2) w).parentValue.lookup v =
      w.parentValue.lookup v := by
  induction l generalizing w with
  | nil => rfl
  | cons b l ih =>
    have hb : v ≠ b.1 := fun hv => h b.2 (by rw [hv]; exact List.mem_cons_self)
    rw [List.foldl_cons, ih fun q hq => h q (List.mem_cons_of_mem _ hq)]
    exact AList.lookup_insert_ne hb

theorem lookup_foldl_of_mem {l : List (Value × Value)} (hl : (l.map Prod.fst).Nodup)
    (h : (v, p) ∈ l) :
    (l.foldl (fun w b => w.setParentValue b.1 b.2) w).parentValue.lookup v = some p := by
  induction l generalizing w with
  | nil => cases h
  | cons b l ih =>
    obtain ⟨hb, hl⟩ := List.nodup_cons.mp hl
    rw [List.foldl_cons]
    rcases List.mem_cons.mp h with rfl | h
    · refine (lookup_foldl_of_notMem ?_).trans (AList.lookup_insert _)
      intro q hq
      exact hb (List.mem_map.mpr ⟨_, hq, rfl⟩)
    · exact ih hl h

theorem nodup_arguments : (m.arguments f).Nodup := by
  unfold IRModule.arguments
  refine List.Nodup.map ?_ List.nodup_range
  intro i j hij
  exact (Value.argument.inj hij).2

theorem getElem?_arguments {i : Nat} : (m.arguments f)[i]? =
    if i < (m.function f).params.length then some (.argument f i) else none := by
  unfold IRModule.arguments
  rw [List.getElem?_map]
  split
  · rename_i hi
    rw [List.getElem?_range hi]
    rfl
  · rename_i hi
    rw [List.getElem?_eq_none (by simpa using hi)]
    rfl

theorem mem_arguments : v ∈ m.arguments f ↔
    ∃ i, i < (m.function f).params.length ∧ v = .argument f i := by
  unfold IRModule.arguments
  simp [@eq_comm _ v]

theorem mem_zip_arguments {actuals : List Value} : (v, p) ∈ (m.arguments f).zip actuals ↔
    ∃ i, i < (m.function f).params.length ∧ v = .argument f i ∧ actuals[i]? = some p := by
  rw [List.mem_iff_getElem?]
  refine exists_congr fun i => ?_
  rw [List.getElem?_zip_eq_some, getElem?_arguments]
  by_cases hi : i < (m.function f).params.length
  · simp [hi, @eq_comm _ v]
  · simp [hi]

theorem sublist_zip_fst (l l' : List Value) : ((l.zip l').map Prod.fst).Sublist l := by
  induction l generalizing l' with
  | nil => exact .slnil
  | cons a l ih =>
    cases l' with
    | nil => exact List.nil_sublist _
    | cons b l' => exact (ih l').cons_cons a

/-- After a call has bound the formals, each of them stands for its actual. -/
theorem lookup_bindArguments {actuals : List Value} {i : Nat}
    (hi : i < (m.function f).params.length) (hp : actuals[i]? = some p) :
    (bindArguments m f actuals w).parentValue.lookup (.argument f i) = some p := by
  refine lookup_foldl_of_mem ?_ (mem_zip_arguments.mpr ⟨i, hi, rfl, hp⟩)
  exact nodup_arguments.sublist (sublist_zip_fst _ _)

theorem lookup_bindArguments_of_notMem {actuals : List Value} (hv : v ∉ m.arguments f) :
    (bindArguments m f actuals w).parentValue.lookup v = w.parentValue.lookup v := by
  refine lookup_foldl_of_notMem fun q hq => hv ?_
  obtain ⟨i, hi, rfl, -⟩ := mem_zip_arguments.mp hq
  exact mem_arguments.mpr ⟨i, hi, rfl⟩

theorem lookup_bindArguments_eq_some {actuals : List Value}
    (h : (bindArguments m f actuals w).parentValue.lookup v = some p) :
    (∃ i, v = .argument f i ∧ actuals[i]? = some p) ∨ w.parentValue.lookup v = some p := by
  by_cases hmem : ∃ q, (v, q) ∈ (m.arguments f).zip actuals
  · obtain ⟨q, hq⟩ := hmem
    obtain ⟨i, hi, rfl, hqi⟩ := mem_zip_arguments.mp hq
    rw [lookup_bindArguments hi hqi] at h
    cases h
    exact .inl ⟨i, rfl, hqi⟩
  · refine .inr ?_
    rw [← h]
    exact (lookup_foldl_of_notMem fun q hq => hmem ⟨q, hq⟩).symm

theorem lookup_eraseArguments : (eraseArguments m f w).parentValue.lookup v =
    if v ∈ m.arguments f then none else w.parentValue.lookup v := by
  unfold eraseArguments
  dsimp only
  generalize m.arguments f = formals
  generalize w.parentValue = bindings
  induction formals generalizing bindings with
  | nil => rfl
  | cons a formals ih =>
    rw [List.foldl_cons, ih]
    by_cases hv : v = a
    · subst hv
      simp
    · simp [hv, AList.lookup_erase_ne hv]

end Bindings

/-! ## Whole calls -/

section Calls
variable {m : IRModule} {opts : Options} {t : Search} {w w' : Worker} {r : List LockSet}

/-- No change of the state makes `I` false. -/
structure Kept (m : IRModule) (opts : Options) (I : Worker → Prop) : Prop where
  cache : ∀ {w s E L}, I w → I (w.addToCache s E L)
  step : ∀ {s L w next w'}, I w → Step m opts s L w next w' → I w'
  stack : ∀ {w f}, I w → I (w.setOnStack f true)
  finish : ∀ {w f L r}, I w → I (finishFunction f L r w)
  erase : ∀ {w f}, I w → I (eraseArguments m f w)

theorem Kept.imp {I : Worker → Prop} {p : Prop} (hI : Kept m opts I) :
    Kept m opts fun w => p → I w where
  cache h hp := hI.cache (h hp)
  step h hstep hp := hI.step (h hp) hstep
  stack h hp := hI.stack (h hp)
  finish h hp := hI.finish (h hp)
  erase h hp := hI.erase (h hp)

/-- What every change of the state keeps, every call keeps. -/
theorem runs_keeps {I : Worker → Prop} (hI : Kept m opts I) (h : Runs m opts t w r w') (hw : I w) :
    I w' := by
  induction h with
  | declaration | summary | recursion | cached | nil => exact hw
  | function _ _ _ _ ih => exact hI.finish (ih (hI.stack hw))
  | returned _ hs => exact hI.step (hI.cache hw) (step_of_processStatement hs)
  | goOn _ hs _ ih => exact ih (hI.step (hI.cache hw) (step_of_processStatement hs))
  | call _ hs _ _ ihf ih =>
    exact ih (hI.erase (ihf (hI.step (hI.cache hw) (step_of_processStatement hs))))
  | cons _ _ ih ih' => exact ih' (ih hw)

theorem onStack_finishFunction {f g : String} {L : LockSet} :
    (finishFunction f L r w).onStack g = if g = f then false else w.onStack g :=
  Function.update_apply ..

theorem functionCache_finishFunction {f g : String} {L : LockSet} :
    (finishFunction f L r w).functionCache g =
      if g = f then w.functionCache f ++ [⟨L, r⟩] else w.functionCache g :=
  Function.update_apply ..

/-- A call leaves the stack as it was. -/
theorem onStack_of_runs (h : Runs m opts t w r w') : w'.onStack = w.onStack := by
  induction h with
  | declaration | summary | recursion | cached | nil => rfl
  | @function f L w first r w' _ _ hstack _ ih =>
    funext g
    rw [onStack_finishFunction, ih]
    split
    · rename_i hg
      rw [hg, hstack]
    · rename_i hg
      exact Function.update_of_ne hg _ _
  | returned _ hs => exact (step_of_processStatement hs).sameCaches.onStack
  | goOn _ hs _ ih => exact ih.trans (step_of_processStatement hs).sameCaches.onStack
  | call _ hs _ _ ihf ih =>
    exact (ih.trans ihf).trans (step_of_processStatement hs).sameCaches.onStack
  | cons _ _ ih ih' => exact ih'.trans ih

theorem isInCache_addToCache {s s' : InstId} {E L E' L' : LockSet} :
    (w.addToCache s E L).isInCache s' E' L' = true ↔
      (s' = s ∧ E' = E ∧ L' = L) ∨ w.isInCache s' E' L' = true := by
  unfold Worker.isInCache Worker.addToCache
  dsimp only
  rw [decide_eq_true_iff, decide_eq_true_iff, Function.update_apply]
  by_cases hs : s' = s
  · subst hs
    simp [or_comm]
  · simp [hs]

theorem isInCache_of_statementCache {s : InstId} {E L : LockSet}
    (h : w'.statementCache = w.statementCache) : w'.isInCache s E L = w.isInCache s E L := by
  unfold Worker.isInCache
  rw [h]

theorem kept_isInCache {s : InstId} {E L : LockSet} :
    Kept m opts fun w => w.isInCache s E L = true where
  cache h := isInCache_addToCache.mpr (.inr h)
  step h hstep := by
    rw [isInCache_of_statementCache hstep.sameCaches.statementCache]
    exact h
  stack := id
  finish := id
  erase := id

/-- The statement cache only grows. -/
theorem isInCache_of_runs (h : Runs m opts t w r w') {s : InstId} {E L : LockSet}
    (hs : w.isInCache s E L = true) : w'.isInCache s E L = true :=
  runs_keeps kept_isInCache h hs

/-- A function on the stack gets no new summary. -/
theorem functionCache_of_runs (h : Runs m opts t w r w') {g : String}
    (hg : w.onStack g = true) : w'.functionCache g = w.functionCache g := by
  induction h with
  | declaration | summary | recursion | cached | nil => rfl
  | @function f L w first r w' _ _ hstack _ ih =>
    have hne : g ≠ f := by
      rintro rfl
      rw [hg] at hstack
      cases hstack
    rw [functionCache_finishFunction, if_neg hne]
    refine ih ?_
    show Function.update w.onStack f true g = true
    rw [Function.update_of_ne hne]
    exact hg
  | returned _ hs => rw [(step_of_processStatement hs).sameCaches.functionCache]; rfl
  | goOn _ hs _ ih =>
    have hsame := (step_of_processStatement hs).sameCaches
    rw [ih (by rw [hsame.onStack]; exact hg), hsame.functionCache]
    rfl
  | call _ hs hcallee _ ihf ih =>
    have hsame := (step_of_processStatement hs).sameCaches
    have hstack := onStack_of_runs hcallee
    rw [ih (by rw [(bookkeeping_eraseArguments).onStack, hstack, hsame.onStack]; exact hg)]
    rw [(bookkeeping_eraseArguments).functionCache, ihf (by rw [hsame.onStack]; exact hg),
      hsame.functionCache]
    rfl
  | cons hfirst _ ih ih' =>
    rw [ih' (by rw [onStack_of_runs hfirst]; exact hg), ih hg]

end Calls

end Lockout.Strator.Effects
