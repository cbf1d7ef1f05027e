import Mathlib.Data.Finset.Powerset
import Mathlib.Data.Finset.Prod
import Lockout.Strator.Effects
import Lockout.Strator.Resolution

/-! # The traversal ends

Every call of `traverseStatement` that is not answered from the statement cache adds
an entry to it, and there are finitely many: the statements of the module, with
locksets over the values its instructions mention. So a number of nested calls that
depends on the module only is never exceeded, with recursion and loops and whatever
the caches hold at the start. -/

namespace Lockout.Strator.Termination
open Lockout.Strator.Program Lockout.Strator.State Lockout.Strator.Traverse
open Lockout.Strator.Effects Lockout.Strator.Resolution

/-! ## The values a run can meet -/

/-- `V` has every operand of the module and what it is a cast of. -/
structure Covers (m : IRModule) (V : Finset Value) : Prop where
  operand : ∀ {s op v}, m.op? s = some op → v ∈ op.operands → v ∈ V
  cast : ∀ {v}, v ∈ V → castOperand v ∈ V

/-- All bindings and all locksets of the summaries are over `V`. -/
structure Bounded (V : Finset Value) (w : Worker) : Prop where
  bindings : ∀ v p, w.parentValue.lookup v = some p → p ∈ V
  summaries : ∀ f e X, e ∈ w.functionCache f → X ∈ e.exitLockSets → X ⊆ V

theorem Covers.union {m : IRModule} {V V' : Finset Value} (h : Covers m V) (h' : Covers m V') :
    Covers m (V ∪ V') where
  operand hop hv := Finset.mem_union_left _ (h.operand hop hv)
  cast hv := Finset.mem_union.mpr ((Finset.mem_union.mp hv).imp h.cast h'.cast)

theorem Bounded.mono {V V' : Finset Value} {w : Worker} (h : Bounded V w) (hV : V ⊆ V') :
    Bounded V' w where
  bindings v p hv := hV (h.bindings v p hv)
  summaries f e X he hX := (h.summaries f e X he hX).trans hV

/-- The locksets a search starts with are over `V`. -/
def Starts (V : Finset Value) : Search → Prop
  | .visit (.function _ L) => L ⊆ V
  | .visit (.statement _ E L) => E ⊆ V ∧ L ⊆ V
  | .each E work => E ⊆ V ∧ ∀ c ∈ work, c.2 ⊆ V

section Bounds
variable {m : IRModule} {opts : Options} {V : Finset Value} {w w' : Worker} {s : InstId}
  {L : LockSet} {next : Next} {bindings : FlowSensitiveValue} {v : Value}

theorem defOperandLoop_mem (hV : Covers m V)
    (hb : ∀ v p, bindings.lookup v = some p → p ∈ V) {n : Nat} {visited : List Value} {retVal : Value}
    (hv : v ∈ V) (h : defOperandLoop bindings n visited v = some retVal) : retVal ∈ V := by
  induction n generalizing visited v with
  | zero => cases h
  | succ n ih =>
    unfold defOperandLoop at h
    split at h
    · cases h
      exact hv
    · refine ih ?_ h
      unfold followOperand
      split
      · rename_i p hp
        split
        · exact hV.cast hv
        · exact hb v p hp
      · exact hV.cast hv

theorem getDefOperand_mem (hV : Covers m V) (hb : ∀ v p, bindings.lookup v = some p → p ∈ V)
    (hv : v ∈ V) : getDefOperand opts bindings v ∈ V := by
  unfold getDefOperand
  split
  · cases hloop : defOperandLoop bindings ((defOperands bindings v).length + 1) [] v with
    | none => exact hv
    | some retVal => exact defOperandLoop_mem hV hb hv hloop
  · exact hv

theorem firstOperand_mem (hV : Covers m V) {id : InstId}
    (h : firstOperand m (.inst id) = some v) : v ∈ V := by
  obtain ⟨op, hop, hhead⟩ := Option.bind_eq_some_iff.mp h
  exact hV.operand hop (List.mem_of_head? hhead)

theorem getLockValue_mem (hV : Covers m V) (hb : ∀ v p, bindings.lookup v = some p → p ∈ V)
    {args : List Value} (hargs : ∀ v ∈ args, v ∈ V) {l : Lock}
    (h : getLockValue m opts bindings args = .ok l) : l ∈ V := by
  unfold getLockValue at h
  split at h
  · split at h
    · rename_i operand hfirst
      cases h
      exact getDefOperand_mem hV hb (firstOperand_mem hV hfirst)
    · cases h
  · cases h
    exact hargs _ List.mem_cons_self
  · cases h
    exact getDefOperand_mem hV hb (hargs _ List.mem_cons_self)
  · cases h
    exact hargs _ List.mem_cons_self
  · cases h

theorem call_operand {callee : Value} {args : List Value} (hV : Covers m V)
    (hop : m.op? s = some (.call callee args)) : ∀ v ∈ args, v ∈ V := fun _ hv =>
  hV.operand hop (List.mem_append_left _ hv)

/-- The lockset a statement entered with `L` goes on with. -/
def lockSetOf (L : LockSet) : Next → LockSet
  | .returned => L
  | .goOn L' | .call _ L' => L'

/-- The locksets and bindings one statement makes are over `V`. -/
theorem bounded_step (hV : Covers m V) (hw : Bounded V w) (hL : L ⊆ V)
    (h : Step m opts s L w next w') : Bounded V w' ∧ lockSetOf L next ⊆ V := by
  have hsummaries : ∀ f e X, e ∈ w'.functionCache f → X ∈ e.exitLockSets → X ⊆ V := by
    rw [h.sameCaches.functionCache]
    exact hw.summaries
  have hmark : ∀ callee v p, (markMultithreaded m opts s callee w).parentValue.lookup v = some p →
      p ∈ V := by
    intro callee
    rw [parentValue_markMultithreaded]
    exact hw.bindings
  cases h with
  | returned | plain => exact ⟨hw, hL⟩
  | bitCast hop =>
    refine ⟨⟨?_, hsummaries⟩, hL⟩
    intro v p hv
    rcases lookup_insert_iff.mp hv with ⟨-, rfl⟩ | ⟨-, hv⟩
    · exact hV.operand hop List.mem_cons_self
    · exact hw.bindings v p hv
  | unresolved => exact ⟨⟨hmark _, hsummaries⟩, hL⟩
  | lock hop _ _ hl =>
    have hmem := getLockValue_mem hV (hmark _) (call_operand hV hop) hl
    exact ⟨⟨hmark _, hsummaries⟩, Finset.insert_subset hmem hL⟩
  | unlock => exact ⟨⟨hmark _, hsummaries⟩, (Finset.erase_subset _ _).trans hL⟩
  | call hop _ _ _ hresolves =>
    refine ⟨⟨?_, hsummaries⟩, hL⟩
    intro v p hv
    rcases lookup_bindArguments_eq_some hv with ⟨i, -, hi⟩ | hv
    · exact call_operand hV hop p (hresolves.subset (List.mem_of_getElem? hi))
    · rw [parentValue_inheritFlag] at hv
      exact hmark _ v p hv
  | load | store =>
    refine ⟨⟨?_, hsummaries⟩, hL⟩
    rw [parentValue_detectRaces]
    exact hw.bindings

theorem bounded_processStatement {E : LockSet} (hV : Covers m V) (hw : Bounded V w) (hL : L ⊆ V)
    (h : processStatement m opts s L (w.addToCache s E L) = .ok (next, w')) :
    Bounded V w' ∧ lockSetOf L next ⊆ V := by
  have hw₀ : Bounded V (w.addToCache s E L) := ⟨hw.bindings, hw.summaries⟩
  exact bounded_step hV hw₀ hL (step_of_processStatement h)

theorem starts_successors {E : LockSet} {working : List LockSet} (hE : E ⊆ V)
    (h : ∀ L ∈ working, L ⊆ V) : Starts V (.each E (successors m s working)) := by
  exact ⟨hE, fun c hc => h c.2 (mem_successors.mp hc).2⟩

theorem workingList_subset {exits : List LockSet} (hL : L ⊆ V) (h : ∀ X ∈ exits, X ⊆ V) :
    ∀ X ∈ workingList opts L exits, X ⊆ V := by
  intro X hX
  unfold workingList at hX
  split at hX
  · rw [List.mem_singleton.mp hX]
    exact hL
  · exact h X ((opts.order.perm exits).mem_iff.mp hX)

theorem bounded_eraseArguments {f : String} (hw : Bounded V w) :
    Bounded V (eraseArguments m f w) where
  bindings v p hv := by
    rw [lookup_eraseArguments] at hv
    split at hv
    · cases hv
    · exact hw.bindings v p hv
  summaries := hw.summaries

/-- A call that starts with locksets over `V` returns locksets over `V`. -/
theorem bounded_of_runs (hV : Covers m V) {t : Search} {r : List LockSet}
    (h : Runs m opts t w r w') (hw : Bounded V w) (ht : Starts V t) :
    Bounded V w' ∧ ∀ X ∈ r, X ⊆ V := by
  induction h with
  | declaration | recursion | cached | nil => exact ⟨hw, nofun⟩
  | summary _ he => exact ⟨hw, fun X hX => hw.summaries _ _ X (List.mem_of_find?_eq_some he) hX⟩
  | @function f L w first r w' _ _ _ _ ih =>
    obtain ⟨hw', hr⟩ := ih ⟨hw.bindings, hw.summaries⟩ ⟨ht, ht⟩
    refine ⟨⟨hw'.bindings, ?_⟩, hr⟩
    intro g e X he hX
    rw [functionCache_finishFunction] at he
    split at he
    · rcases List.mem_append.mp he with he | he
      · exact hw'.summaries f e X he hX
      · rw [List.mem_singleton.mp he] at hX
        exact hr X hX
    · exact hw'.summaries g e X he hX
  | @returned s E L w w₁ _ hs =>
    obtain ⟨hw₁, -⟩ := bounded_processStatement hV hw ht.2 hs
    refine ⟨hw₁, fun X hX => ?_⟩
    rw [List.mem_singleton.mp hX]
    exact ht.2
  | goOn _ hs _ ih =>
    obtain ⟨hw₁, hL'⟩ := bounded_processStatement hV hw ht.2 hs
    refine ih hw₁ (starts_successors ht.1 fun X hX => ?_)
    rw [List.mem_singleton.mp hX]
    exact hL'
  | call _ hs _ _ ihf ih =>
    obtain ⟨hw₁, hL'⟩ := bounded_processStatement hV hw ht.2 hs
    obtain ⟨hw₂, hexits⟩ := ihf hw₁ hL'
    exact ih (bounded_eraseArguments hw₂)
      (starts_successors ht.1 (workingList_subset hL' hexits))
  | cons _ _ ih ih' =>
    obtain ⟨hw₁, hr⟩ := ih hw ⟨ht.1, ht.2 _ List.mem_cons_self⟩
    obtain ⟨hw', hr'⟩ := ih' hw₁ ⟨ht.1, fun c hc => ht.2 c (List.mem_cons_of_mem _ hc)⟩
    refine ⟨hw', fun X hX => ?_⟩
    rcases List.mem_union_iff.mp hX with hX | hX
    · exact hr X hX
    · exact hr' X hX

end Bounds

/-! ## The bound -/

/-- The statements of a module. -/
def statements (m : IRModule) : Finset InstId :=
  ((m.functions.map Prod.fst).flatMap fun f =>
    (m.function f).blocks.zipIdx.flatMap fun b =>
      (List.range b.1.insts.length).map fun i => ⟨f, b.2, i⟩).toFinset

/-- The values the instructions of a module mention. -/
def values (m : IRModule) : Finset Value :=
  ((statements m).biUnion fun s =>
    (((m.op? s).map Opcode.operands).getD []).toFinset).biUnion fun v => (castChain v).toFinset

section Finite
variable {m : IRModule} {s : InstId}

theorem mem_functions {f : String} (h : (m.function f).blocks ≠ []) :
    f ∈ m.functions.map Prod.fst := by
  unfold IRModule.function at h
  cases hf : m.functions.lookup f with
  | none =>
    rw [hf] at h
    exact absurd rfl h
  | some fn =>
    obtain ⟨l₁, l₂, heq, -⟩ := List.lookup_eq_some_iff.mp hf
    rw [heq]
    simp

theorem mem_statements {inst : Instruction} (h : m.inst? s = some inst) : s ∈ statements m := by
  obtain ⟨f, b, i⟩ := s
  obtain ⟨block, hblock, hindex⟩ := Option.bind_eq_some_iff.mp h
  have hne : (m.function f).blocks ≠ [] := by
    intro hnil
    have hnone : (m.function f).blocks[b]? = some block := hblock
    rw [hnil] at hnone
    cases hnone
  unfold statements
  rw [List.mem_toFinset, List.mem_flatMap]
  refine ⟨f, mem_functions hne, List.mem_flatMap.mpr ⟨(block, b), ?_, ?_⟩⟩
  · exact List.mem_zipIdx_iff_getElem?.mpr hblock
  · have hi := (List.getElem?_eq_some_iff.mp hindex).1
    exact List.mem_map.mpr ⟨i, List.mem_range.mpr hi, rfl⟩

theorem mem_statements_of_step {opts : Options} {L : LockSet} {w w' : Worker} {next : Next}
    (h : Step m opts s L w next w') : s ∈ statements m := by
  have hop : ∃ op, m.op? s = some op := by
    cases h <;> exact ⟨_, ‹_›⟩
  obtain ⟨op, hop⟩ := hop
  obtain ⟨inst, hinst, -⟩ := Option.map_eq_some_iff.mp hop
  exact mem_statements hinst

theorem covers_values (m : IRModule) : Covers m (values m) where
  operand := by
    intro s op v hop hv
    obtain ⟨inst, hinst, rfl⟩ := Option.map_eq_some_iff.mp hop
    refine Finset.mem_biUnion.mpr ⟨v, Finset.mem_biUnion.mpr ⟨s, mem_statements hinst, ?_⟩,
      List.mem_toFinset.mpr (self_mem_castChain v)⟩
    rw [hop]
    exact List.mem_toFinset.mpr hv
  cast := by
    intro v hv
    obtain ⟨u, hu, hv⟩ := Finset.mem_biUnion.mp hv
    exact Finset.mem_biUnion.mpr
      ⟨u, hu, List.mem_toFinset.mpr (castOperand_mem_castChain (List.mem_toFinset.mp hv))⟩

end Finite

/-- The visits that a statement cache can answer. -/
def visits (m : IRModule) (V : Finset Value) : Finset (InstId × LockSet × LockSet) :=
  statements m ×ˢ V.powerset ×ˢ V.powerset

/-- The visits that are not in the cache yet. -/
def remaining (m : IRModule) (V : Finset Value) (w : Worker) : Nat :=
  ((visits m V).filter fun c => w.isInCache c.1 c.2.1 c.2.2 = false).card

section Bound
variable {m : IRModule} {opts : Options} {V : Finset Value} {w w' : Worker}

theorem remaining_mono (h : ∀ {s E L}, w.isInCache s E L = true → w'.isInCache s E L = true) :
    remaining m V w' ≤ remaining m V w := by
  refine Finset.card_le_card fun c hc => ?_
  obtain ⟨hmem, hnew⟩ := Finset.mem_filter.mp hc
  refine Finset.mem_filter.mpr ⟨hmem, ?_⟩
  cases hold : w.isInCache c.1 c.2.1 c.2.2 with
  | false => rfl
  | true =>
    rw [h hold] at hnew
    cases hnew

theorem remaining_addToCache {s : InstId} {E L : LockSet} (hs : s ∈ statements m) (hE : E ⊆ V)
    (hL : L ⊆ V) (hnew : w.isInCache s E L = false) :
    remaining m V (w.addToCache s E L) < remaining m V w := by
  refine Finset.card_lt_card ⟨fun c hc => ?_, fun hsub => ?_⟩
  · obtain ⟨hmem, hc⟩ := Finset.mem_filter.mp hc
    refine Finset.mem_filter.mpr ⟨hmem, ?_⟩
    cases hold : w.isInCache c.1 c.2.1 c.2.2 with
    | false => rfl
    | true =>
      rw [isInCache_addToCache.mpr (.inr hold)] at hc
      cases hc
  · have hmem : (s, E, L) ∈ visits m V := by
      simp [visits, hs, hE, hL]
    have hin := (Finset.mem_filter.mp (hsub (Finset.mem_filter.mpr ⟨hmem, hnew⟩))).2
    rw [isInCache_addToCache.mpr (.inl ⟨rfl, rfl, rfl⟩)] at hin
    cases hin

/-- The calls nested in each other that a call can need. -/
def nesting (m : IRModule) (V : Finset Value) (w : Worker) : Visit → Nat
  | .function .. => 2 * remaining m V w + 2
  | .statement .. => 2 * remaining m V w + 1

theorem traverseEach_ends {rec : Visit → Worker → Outcome} (hV : Covers m V) {E : LockSet}
    (hrec : ∀ {v w r w'}, rec v w = .ok (r, w') → Runs m opts (.visit v) w r w') {k : Nat}
    (hends : ∀ s L w, L ⊆ V → Bounded V w → remaining m V w < k →
      rec (.statement s E L) w ≠ .error .outOfFuel) {work : List (InstId × LockSet)} {w : Worker}
    (hstarts : Starts V (.each E work)) (hw : Bounded V w) (hk : remaining m V w < k) :
    traverseEach rec E work w ≠ .error .outOfFuel := by
  induction work generalizing w with
  | nil => nofun
  | cons c work ih =>
    obtain ⟨s, L⟩ := c
    have hL : L ⊆ V := hstarts.2 (s, L) List.mem_cons_self
    refine bind_ne_error (hends s L w hL hw hk) ?_
    rintro ⟨r, w₁⟩ hfirst
    have hrun := hrec hfirst
    obtain ⟨hw₁, -⟩ := bounded_of_runs hV hrun hw ⟨hstarts.1, hL⟩
    have hk₁ := (remaining_mono (isInCache_of_runs hrun)).trans_lt hk
    exact map_ne_error
      (ih ⟨hstarts.1, fun c hc => hstarts.2 c (List.mem_cons_of_mem _ hc)⟩ hw₁ hk₁)

theorem getLockValue_ne_outOfFuel {bindings : FlowSensitiveValue} {args : List Value} :
    getLockValue m opts bindings args ≠ .error .outOfFuel := by
  unfold getLockValue
  split
  · split
    · nofun
    · nofun
  all_goals nofun

theorem getThreadWorkerFunction_ne_outOfFuel {args : List Value} :
    getThreadWorkerFunction m args ≠ .error .outOfFuel := by
  unfold getThreadWorkerFunction
  split
  · split
    · nofun
    · split
      · nofun
      · nofun
  · nofun

/-- One statement can fail an assertion but calls nothing. -/
theorem processStatement_ne_outOfFuel {s : InstId} {L : LockSet} :
    processStatement m opts s L w ≠ .error .outOfFuel := by
  unfold processStatement
  split
  case h_5 callee args _ =>
    unfold processCall
    dsimp only
    split
    · nofun
    · split
      · exact map_ne_error getLockValue_ne_outOfFuel
      · split
        · exact map_ne_error getLockValue_ne_outOfFuel
        · refine bind_ne_error ?_ fun f _ => ?_
          · split
            · exact getThreadWorkerFunction_ne_outOfFuel
            · nofun
          · dsimp only
            split
            · split
              · nofun
              · nofun
            · nofun
  all_goals nofun

theorem traverseStatement_ends {rec : Visit → Worker → Outcome} (hV : Covers m V)
    (hrec : ∀ {v w r w'}, rec v w = .ok (r, w') → Runs m opts (.visit v) w r w') {k : Nat}
    (hends : ∀ s E L w, E ⊆ V → L ⊆ V → Bounded V w → remaining m V w < k →
      rec (.statement s E L) w ≠ .error .outOfFuel)
    (hfunction : ∀ f L w, L ⊆ V → Bounded V w → remaining m V w < k →
      rec (.function f L) w ≠ .error .outOfFuel)
    {s : InstId} {E L : LockSet} {w : Worker} (hE : E ⊆ V) (hL : L ⊆ V) (hw : Bounded V w)
    (hk : remaining m V w ≤ k) : traverseStatement m opts rec s E L w ≠ .error .outOfFuel := by
  unfold traverseStatement
  split
  · nofun
  · rename_i hcached
    refine bind_ne_error processStatement_ne_outOfFuel ?_
    rintro ⟨next, w₁⟩ hs
    obtain ⟨hw₁, hL'⟩ := bounded_processStatement hV hw hL hs
    have hk₁ : remaining m V w₁ < k := by
      have hstep := step_of_processStatement hs
      have hle : remaining m V w₁ ≤ remaining m V (w.addToCache s E L) :=
        remaining_mono fun h => by
          rw [isInCache_of_statementCache hstep.sameCaches.statementCache]
          exact h
      have hlt := remaining_addToCache (mem_statements_of_step hstep) hE hL
        (Bool.eq_false_iff.mpr hcached)
      omega
    cases next with
    | returned => nofun
    | goOn L' =>
      refine traverseEach_ends hV hrec (fun s L w => hends s E L w hE)
        (starts_successors hE fun X hX => ?_) hw₁ hk₁
      rw [List.mem_singleton.mp hX]
      exact hL'
    | call f L' =>
      refine bind_ne_error (hfunction f L' w₁ hL' hw₁ hk₁) ?_
      rintro ⟨exits, w₂⟩ hcallee
      have hrun := hrec hcallee
      obtain ⟨hw₂, hexits⟩ := bounded_of_runs hV hrun hw₁ hL'
      exact traverseEach_ends hV hrec (fun s L w => hends s E L w hE)
        (starts_successors hE (workingList_subset hL' hexits)) (bounded_eraseArguments hw₂)
        ((remaining_mono (isInCache_of_runs hrun)).trans_lt hk₁)

/-- With `nesting` calls allowed the traversal does not run out of them. -/
theorem traverse_ends (hV : Covers m V) {n : Nat} {v : Visit} (hstarts : Starts V (.visit v))
    (hw : Bounded V w) (hn : nesting m V w v ≤ n) : traverse m opts n v w ≠ .error .outOfFuel := by
  induction n generalizing v w with
  | zero => cases v <;> simp [nesting] at hn
  | succ n ih =>
    cases v with
    | function f L =>
      show traverseFunction m (traverse m opts n) f L w ≠ _
      unfold traverseFunction
      split
      · nofun
      · rename_i first _
        split
        · nofun
        · split
          · nofun
          · have hbody : Bounded V (w.setOnStack f true) := ⟨hw.bindings, hw.summaries⟩
            have hsame : remaining m V (w.setOnStack f true) = remaining m V w := rfl
            refine map_ne_error (ih ⟨hstarts, hstarts⟩ hbody ?_)
            simp only [nesting] at hn ⊢
            omega
    | statement s E L =>
      simp only [nesting] at hn
      refine traverseStatement_ends hV traverse_runs (fun s E L w hE hL hw hk => ih ⟨hE, hL⟩ hw ?_)
        (fun f L w hL hw hk => ih hL hw ?_) hstarts.1 hstarts.2 hw (Nat.le_refl _)
      · simp only [nesting]
        omega
      · simp only [nesting]
        omega

/-- From a root the analysis ends: it returns or fails an assertion. -/
theorem traverseFrom_ends (m : IRModule) (opts : Options) (f : String) (w : Worker)
    (hw : Bounded (values m) w) :
    ∃ N, ∀ n, N ≤ n → traverseFrom m opts n f w ≠ .error .outOfFuel :=
  ⟨nesting m (values m) w (.function f ∅), fun _ hn =>
    traverse_ends (covers_values m) (Finset.empty_subset _) hw hn⟩

theorem bounded_empty : Bounded V {} where
  bindings _ _ h := by simp at h
  summaries _ _ _ h := by cases h

/-- The values of a module and of a lockset, with all they are casts of. -/
def valuesWith (m : IRModule) (L : LockSet) : Finset Value :=
  values m ∪ L.biUnion fun v => (castChain v).toFinset

theorem covers_valuesWith (L : LockSet) : Covers m (valuesWith m L) where
  operand hop hv := Finset.mem_union_left _ ((covers_values m).operand hop hv)
  cast := by
    intro v hv
    rcases Finset.mem_union.mp hv with hv | hv
    · exact Finset.mem_union_left _ ((covers_values m).cast hv)
    · obtain ⟨u, hu, hv⟩ := Finset.mem_biUnion.mp hv
      exact Finset.mem_union_right _ (Finset.mem_biUnion.mpr
        ⟨u, hu, List.mem_toFinset.mpr (castOperand_mem_castChain (List.mem_toFinset.mp hv))⟩)

theorem subset_valuesWith (L : LockSet) : L ⊆ valuesWith m L := fun v hv =>
  Finset.mem_union_right _
    (Finset.mem_biUnion.mpr ⟨v, hv, List.mem_toFinset.mpr (self_mem_castChain v)⟩)

/-- A traversal in which no assertion fails returns, from every root and with every
entry lockset, and what it returns does not depend on the nesting allowed. -/
theorem traversal_returns {root : String} {L : LockSet}
    (hassert : ∀ n message,
      traverse m opts n (.function root L) {} ≠ .error (.assertFailed message)) :
    ∃ r w N, ∀ n, N ≤ n → traverse m opts n (.function root L) {} = .ok (r, w) := by
  let N := nesting m (valuesWith m L) {} (.function root L)
  have hends : traverse m opts N (.function root L) {} ≠ .error .outOfFuel :=
    traverse_ends (covers_valuesWith L) (subset_valuesWith L) bounded_empty (Nat.le_refl _)
  cases hN : traverse m opts N (.function root L) {} with
  | ok result => exact ⟨result.1, result.2, N, fun n hn => (traverse_mono hn hends).trans hN⟩
  | error e =>
    cases e with
    | outOfFuel => exact absurd hN hends
    | assertFailed message => exact absurd hN (hassert N message)

/-- `main` takes a mutex in a loop and calls itself. -/
def looping : IRModule where
  functions := [
    ("main", { blocks := [
      { insts := [⟨"", .call (.function "pthread_mutex_lock") [.global "m"]⟩], succs := [0, 1] },
      { insts := [
        ⟨"", .call (.function "main") []⟩,
        ⟨"", .call (.function "pthread_mutex_unlock") [.global "m"]⟩,
        ⟨"", .ret⟩] }] })]
  globals := [("m", false), ("n", false)]

theorem looping_ends : (traverse looping {} 16 (.function "main" {.global "n"}) {}).isOk = true := by
  decide

theorem traversal_returns_looping : ∃ r w N, ∀ n, N ≤ n →
    traverse looping {} n (.function "main" {.global "n"}) {} = .ok (r, w) := by
  refine traversal_returns fun n message hn => ?_
  -- a failed assertion would still fail with 16 more calls allowed
  have hok := looping_ends
  have hmore := traverse_mono (m := looping) (Nat.le_add_right n 16) (by rw [hn]; nofun)
  rw [traverse_mono (m := looping) (Nat.le_add_left 16 n) (by intro he; rw [he] at hok; cases hok)]
    at hmore
  rw [hmore, hn] at hok
  cases hok

end Bound

end Lockout.Strator.Termination
