import Mathlib.Data.Set.Insert
import Mathlib.Tactic.Tauto
import Lockout.Lib.Interprocedural

/-! # Memoised traversal of a supergraph

A depth-first search with one table of summaries per procedure and entry fact and
one table of the facts a node was visited with. A node that was visited with the same
facts before returns nothing, and so does a procedure that is still being searched.
Over an acyclic call graph the search is exact all the same (`Runs.correct`): its
summaries are the facts at the returns over all paths, and what it has visited are
the facts of `Reach`. -/

namespace Lockout.Lib.Tabulation
open Lockout.Lib.Interprocedural

variable {P N F : Type}

inductive Visit (P N F : Type)
  | proc (p : P) (f : F)
  | node (e : F) (n : N) (f : F)
  | each (e : F) (work : List (N × F))

structure Memo (P N F : Type) where
  /-- The exit facts of a procedure for an entry fact. -/
  summary : P → F → Option (Set F)
  /-- The nodes visited, with the entry fact of the procedure and the fact there. -/
  seen : Set (N × F × F)
  active : Set P

namespace Memo

def see (M : Memo P N F) (n : N) (e f : F) : Memo P N F :=
  { M with seen := insert (n, e, f) M.seen }

def start (M : Memo P N F) (p : P) : Memo P N F := { M with active := insert p M.active }

open Classical in
noncomputable def finish (M : Memo P N F) (p : P) (f : F) (X : Set F) : Memo P N F :=
  { M with
    active := M.active \ {p}
    summary := fun q g => if q = p ∧ g = f then some X else M.summary q g }

/-- Nothing that `M` has recorded is lost in `M'`. -/
structure Grows (M M' : Memo P N F) : Prop where
  seen : M.seen ⊆ M'.seen
  summary : ∀ {p f X}, M.summary p f = some X → M'.summary p f = some X

variable {M M' M'' : Memo P N F} {n : N} {e f : F}

theorem Grows.refl : Grows M M := ⟨subset_rfl, id⟩

theorem Grows.trans (h : Grows M M') (h' : Grows M' M'') : Grows M M'' :=
  ⟨h.seen.trans h'.seen, fun hX => h'.summary (h.summary hX)⟩

theorem grows_see : Grows M (M.see n e f) := ⟨Set.subset_insert _ _, id⟩

theorem mem_see {n' : N} {e' f' : F} :
    (n', e', f') ∈ (M.see n e f).seen ↔ (n' = n ∧ e' = e ∧ f' = f) ∨ (n', e', f') ∈ M.seen := by
  simp [see]

end Memo

/-- `work` lists the successors of `n` with every fact of `facts`, in any order. -/
def Lists (G : Supergraph P N F) (n : N) (facts : Set F) (work : List (N × F)) : Prop :=
  ∀ c, c ∈ work ↔ c.1 ∈ G.succ n ∧ c.2 ∈ facts

/-- The facts a search goes on with after a call that found the exits `Y`. -/
def afterCall (Y : Set F) (resume : F → F) (skip : F) : Set F :=
  {g | (∃ y ∈ Y, g = resume y) ∨ (Y = ∅ ∧ g = skip)}

/-- A search from one memo to another, with the exit facts it returns. -/
inductive Runs (G : Supergraph P N F) : Visit P N F → Memo P N F → Set F → Memo P N F → Prop
  | noBody {p f M} : G.entry p = none → Runs G (.proc p f) M ∅ M
  | summary {p f M X} : G.entry p ≠ none → M.summary p f = some X → Runs G (.proc p f) M X M
  | recursive {p f M} : p ∈ M.active → Runs G (.proc p f) M ∅ M
  | proc {p n f M X M'} : G.entry p = some n → M.summary p f = none → p ∉ M.active →
      Runs G (.node f n f) (M.start p) X M' → Runs G (.proc p f) M X (M'.finish p f X)
  | seen {e n f M} : (n, e, f) ∈ M.seen → Runs G (.node e n f) M ∅ M
  | exit {e n f M} : (n, e, f) ∉ M.seen → G.kind n = .exit →
      Runs G (.node e n f) M {f} (M.see n e f)
  | step {e n f M effect work X M'} : (n, e, f) ∉ M.seen → G.kind n = .step effect →
      Lists G n {effect f} work → Runs G (.each e work) (M.see n e f) X M' →
      Runs G (.node e n f) M X M'
  | call {e n f M q enter resume skip Y M₁ work X M₂} : (n, e, f) ∉ M.seen →
      G.kind n = .call q enter resume skip →
      Runs G (.proc q (enter f)) (M.see n e f) Y M₁ →
      Lists G n (afterCall Y (resume f) (skip f)) work →
      Runs G (.each e work) M₁ X M₂ → Runs G (.node e n f) M X M₂
  | nil {e M} : Runs G (.each e []) M ∅ M
  | cons {e n f work M X M₁ X' M₂} : Runs G (.node e n f) M X M₁ →
      Runs G (.each e work) M₁ X' M₂ → Runs G (.each e ((n, f) :: work)) M (X ∪ X') M₂

/-! ## What the tables mean -/

section Meaning
variable (G : Supergraph P N F) (A : P → F → Prop)

/-- The callee of a call has a summary for the fact it is entered with. -/
def Entered (M : Memo P N F) (n : N) (f : F) : Prop :=
  ∀ q enter resume skip, G.kind n = .call q enter resume skip → G.entry q ≠ none →
    ∃ X, M.summary q (enter f) = some X

/-- `A` says which activations there are; `active` holds the procedures whose
search has not ended. -/
structure Consistent (M : Memo P N F) : Prop where
  sound : ∀ {n e f}, (n, e, f) ∈ M.seen → A (G.owner n) e ∧ G.Reach (G.owner n) e n f
  fresh : ∀ {n e f}, (n, e, f) ∈ M.seen → M.summary (G.owner n) e ≠ none ∨ G.owner n ∈ M.active
  exact : ∀ {p e X}, M.summary p e = some X → X = G.exits p e ∧ (X = ∅ → ¬ G.Returns p)
  covered : ∀ {p e X n f}, M.summary p e = some X → G.Reach p e n f →
    (n, e, f) ∈ M.seen ∧ Entered G M n f

/-- Everything that follows `n` with fact `f` in an activation entered with `e` is in
the memo or in the exits `X`. -/
structure Expanded (M : Memo P N F) (X : Set F) (e : F) (n : N) (f : F) : Prop where
  exit : G.kind n = .exit → f ∈ X
  entered : Entered G M n f
  step : ∀ {effect n'}, G.kind n = .step effect → n' ∈ G.succ n → (n', e, effect f) ∈ M.seen
  resume : ∀ {q enter resume skip n' y}, G.kind n = .call q enter resume skip → n' ∈ G.succ n →
    y ∈ G.exits q (enter f) → (n', e, resume f y) ∈ M.seen
  skip : ∀ {q enter resume skip n'}, G.kind n = .call q enter resume skip → n' ∈ G.succ n →
    ¬ G.Returns q → (n', e, skip f) ∈ M.seen
  flow : ∀ {n'}, G.Flow n n' → ∃ g, (n', e, g) ∈ M.seen

/-- The search is in an activation of `p` entered with `e`. -/
structure Running (p : P) (e : F) (M : Memo P N F) : Prop where
  consistent : Consistent G A M
  active : p ∈ M.active
  activation : A p e
  callers : ∀ {h}, h ∈ M.active → Relation.ReflTransGen G.Calls h p

/-- A search inside an activation: what it has visited there it has expanded. -/
structure Searched (p : P) (e : F) (M : Memo P N F) (X : Set F) (M' : Memo P N F) : Prop where
  consistent : Consistent G A M'
  active : M'.active = M.active
  grows : M.Grows M'
  frame : ∀ {n e' f}, (n, e', f) ∈ M'.seen → (n, e', f) ∈ M.seen ∨
    (G.owner n = p ∧ e' = e) ∨ Relation.TransGen G.Calls p (G.owner n)
  expanded : ∀ {n f}, G.owner n = p → (n, e, f) ∈ M'.seen → (n, e, f) ∉ M.seen →
    Expanded G M' X e n f
  exits : X ⊆ G.exits p e

/-- A search of a whole procedure: the result is exact. -/
structure Summarised (p : P) (f : F) (M : Memo P N F) (X : Set F) (M' : Memo P N F) : Prop where
  consistent : Consistent G A M'
  active : M'.active = M.active
  grows : M.Grows M'
  frame : ∀ {n e' f'}, (n, e', f') ∈ M'.seen → (n, e', f') ∈ M.seen ∨
    Relation.ReflTransGen G.Calls p (G.owner n)
  exact : X = G.exits p f ∧ (X = ∅ → ¬ G.Returns p)
  stored : G.entry p ≠ none → ∃ X', M'.summary p f = some X'

end Meaning

section Rules
variable {G : Supergraph P N F} {A : P → F → Prop} {M M₁ M₂ : Memo P N F} {X X' : Set F}
  {p q : P} {e f : F} {n : N} {work : List (N × F)}

theorem Entered.mono (h : Entered G M n f) (hM : M.Grows M₁) : Entered G M₁ n f := by
  intro q enter resume skip hk hq
  obtain ⟨X, hX⟩ := h q enter resume skip hk hq
  exact ⟨X, hM.summary hX⟩

theorem Expanded.mono (h : Expanded G M X e n f) (hM : M.Grows M₁) (hX : X ⊆ X') :
    Expanded G M₁ X' e n f where
  exit hk := hX (h.exit hk)
  entered := h.entered.mono hM
  step hk hs := hM.seen (h.step hk hs)
  resume hk hs hy := hM.seen (h.resume hk hs hy)
  skip hk hs hq := hM.seen (h.skip hk hs hq)
  flow hf := (h.flow hf).imp fun _ hg => hM.seen hg

theorem Running.see (h : Running G A p e M) (hreach : G.Reach p e n f) :
    Running G A p e (M.see n e f) where
  consistent := by
    have hc := h.consistent
    refine ⟨?_, ?_, hc.exact, ?_⟩
    · intro n' e' f' hm
      rcases Memo.mem_see.mp hm with ⟨rfl, rfl, rfl⟩ | hm
      · rw [hreach.owner]
        exact ⟨h.activation, hreach⟩
      · exact hc.sound hm
    · intro n' e' f' hm
      rcases Memo.mem_see.mp hm with ⟨rfl, rfl, rfl⟩ | hm
      · rw [hreach.owner]
        exact .inr h.active
      · exact hc.fresh hm
    · intro p' e' X n' f' hX hr
      obtain ⟨hs, he⟩ := hc.covered hX hr
      exact ⟨Memo.grows_see.seen hs, he.mono Memo.grows_see⟩
  active := h.active
  activation := h.activation
  callers := h.callers

theorem Searched.refl (h : Running G A p e M) : Searched G A p e M ∅ M where
  consistent := h.consistent
  active := rfl
  grows := .refl
  frame hm := .inl hm
  expanded _ hm hn := absurd hm hn
  exits := Set.empty_subset _

theorem Searched.running (h : Searched G A p e M X M₁) (hM : Running G A p e M) :
    Running G A p e M₁ where
  consistent := h.consistent
  active := by
    rw [h.active]
    exact hM.active
  activation := hM.activation
  callers := by
    rw [h.active]
    exact hM.callers

theorem Searched.trans (h : Searched G A p e M X M₁) (h' : Searched G A p e M₁ X' M₂) :
    Searched G A p e M (X ∪ X') M₂ where
  consistent := h'.consistent
  active := h'.active.trans h.active
  grows := h.grows.trans h'.grows
  frame hm := by
    rcases h'.frame hm with hm | hnew
    · exact h.frame hm
    · exact .inr hnew
  expanded := by
    intro n f hp hm hn
    by_cases hmid : (n, e, f) ∈ M₁.seen
    · exact (h.expanded hp hmid hn).mono h'.grows Set.subset_union_left
    · exact (h'.expanded hp hm hmid).mono .refl Set.subset_union_right
  exits := Set.union_subset h.exits h'.exits

/-- The exits of a callee in whose terms the search goes on. -/
theorem reach_afterCall {Y : Set F} {n' : N} {g : F} {enter : F → F} {resume : F → F → F}
    {skip : F → F} (hreach : G.Reach p e n f) (hk : G.kind n = .call q enter resume skip)
    (hY : Y = G.exits q (enter f) ∧ (Y = ∅ → ¬ G.Returns q)) (hs : n' ∈ G.succ n)
    (hg : g ∈ afterCall Y (resume f) (skip f)) : G.Reach p e n' g := by
  rcases hg with ⟨y, hy, rfl⟩ | ⟨hempty, rfl⟩
  · rw [hY.1] at hy
    obtain ⟨r, hr, hexit⟩ := hy
    exact hreach.resume hk hr hexit hs
  · exact hreach.skip hk (hY.2 hempty) hs

theorem Expanded.of_exit (hk : G.kind n = .exit) : Expanded G M {f} e n f where
  exit _ := rfl
  entered _ _ _ _ hcall := by rw [hk] at hcall; cases hcall
  step hstep := by rw [hk] at hstep; cases hstep
  resume hcall := by rw [hk] at hcall; cases hcall
  skip hcall := by rw [hk] at hcall; cases hcall
  flow hflow := absurd hk hflow.1

theorem Expanded.of_step {effect : F → F} (hk : G.kind n = .step effect)
    (hwork : ∀ n' ∈ G.succ n, (n', e, effect f) ∈ M.seen) : Expanded G M X e n f where
  exit hexit := by rw [hk] at hexit; cases hexit
  entered _ _ _ _ hcall := by rw [hk] at hcall; cases hcall
  step hstep hs := by
    rw [hk] at hstep
    cases hstep
    exact hwork _ hs
  resume hcall := by rw [hk] at hcall; cases hcall
  skip hcall := by rw [hk] at hcall; cases hcall
  flow hflow := ⟨_, hwork _ hflow.2⟩

theorem Expanded.of_call {Y : Set F} {enter : F → F} {resume : F → F → F} {skip : F → F}
    (hk : G.kind n = .call q enter resume skip) (hY : Y = G.exits q (enter f))
    (hstored : G.entry q ≠ none → ∃ X, M.summary q (enter f) = some X)
    (hwork : ∀ n' ∈ G.succ n, ∀ g ∈ afterCall Y (resume f) (skip f), (n', e, g) ∈ M.seen) :
    Expanded G M X e n f where
  exit hexit := by rw [hk] at hexit; cases hexit
  entered q' enter' resume' skip' hcall hq := by
    rw [hk] at hcall
    cases hcall
    exact hstored hq
  step hstep := by rw [hk] at hstep; cases hstep
  resume hcall hs hy := by
    rw [hk] at hcall
    cases hcall
    exact hwork _ hs _ (.inl ⟨_, hY ▸ hy, rfl⟩)
  skip hcall hs hq := by
    rw [hk] at hcall
    cases hcall
    refine hwork _ hs _ (.inr ⟨?_, rfl⟩)
    ext y
    exact ⟨fun hy => hq (Supergraph.returns_of_exits (hY ▸ hy)), nofun⟩
  flow hflow := by
    rcases Set.eq_empty_or_nonempty Y with hempty | ⟨y, hy⟩
    · exact ⟨_, hwork _ hflow.2 _ (.inr ⟨hempty, rfl⟩)⟩
    · exact ⟨_, hwork _ hflow.2 _ (.inl ⟨y, hy, rfl⟩)⟩

/-- A node whose successors are searched after it: only it and they are new. -/
theorem Searched.node (h : Running G A p e M) (hreach : G.Reach p e n f)
    (hrest : Searched G A p e (M.see n e f) X M₂) (hnode : Expanded G M₂ X e n f) :
    Searched G A p e M X M₂ where
  consistent := hrest.consistent
  active := hrest.active
  grows := Memo.grows_see.trans hrest.grows
  frame hm := by
    rcases hrest.frame hm with hm | hnew
    · rcases Memo.mem_see.mp hm with ⟨rfl, rfl, -⟩ | hm
      · exact .inr (.inl ⟨hreach.owner, rfl⟩)
      · exact .inl hm
    · exact .inr hnew
  expanded := by
    intro n' f' hp hm hn
    by_cases hmid : (n', e, f') ∈ (M.see n e f).seen
    · rcases Memo.mem_see.mp hmid with ⟨rfl, -, rfl⟩ | hm
      · exact hnode
      · exact absurd hm hn
    · exact hrest.expanded hp hm hmid
  exits := hrest.exits

theorem Searched.exit (h : Running G A p e M) (hreach : G.Reach p e n f)
    (hk : G.kind n = .exit) : Searched G A p e M {f} (M.see n e f) := by
  have hrest := Searched.refl (h.see hreach)
  refine .node h hreach ⟨hrest.consistent, rfl, .refl, fun hm => .inl hm, ?_, ?_⟩ (.of_exit hk)
  · intro n' f' _ hm hn
    exact absurd hm hn
  · rintro x rfl
    exact ⟨n, hreach, hk⟩

theorem Running.callee (h : Running G A p e M) {enter : F → F} {resume : F → F → F} {skip : F → F}
    (hk : G.kind n = .call q enter resume skip) (hn : G.owner n = p) {k : P}
    (hactive : k ∈ M.active) : Relation.TransGen G.Calls k q :=
  .tail' (h.callers hactive) ⟨n, enter, resume, skip, hn, hk⟩

/-- A callee's search seen from the activation that calls it: all it visits is in
procedures the caller is not among. -/
theorem Summarised.searched (hacyclic : ∀ p, ¬ Relation.TransGen G.Calls p p)
    (h : Summarised G A q f M X M₁) (hcalls : G.Calls p q) : Searched G A p e M ∅ M₁ where
  consistent := h.consistent
  active := h.active
  grows := h.grows
  frame hm := by
    rcases h.frame hm with hm | hpath
    · exact .inl hm
    · exact .inr (.inr (.head' hcalls hpath))
  expanded := by
    intro n' f' hp hm hn
    rcases h.frame hm with hm | hpath
    · exact absurd hm hn
    · rw [hp] at hpath
      exact absurd (.head' hcalls hpath) (hacyclic p)
  exits := Set.empty_subset _

end Rules

/-! ## Exactness -/

section Correct
variable {G : Supergraph P N F} {A : P → F → Prop} {M M' : Memo P N F} {X : Set F}
  {p : P} {e f : F} {n : N}

theorem Running.start (h : Consistent G A M) (ha : A p f)
    (hcallers : ∀ {k}, k ∈ M.active → Relation.TransGen G.Calls k p) :
    Running G A p f (M.start p) where
  consistent := by
    refine ⟨h.sound, ?_, h.exact, h.covered⟩
    intro n e f' hm
    rcases h.fresh hm with hs | ha
    · exact .inl hs
    · exact .inr (.inr ha)
  active := .inl rfl
  activation := ha
  callers := by
    rintro k (rfl | hk)
    · exact .refl
    · exact (hcallers hk).to_reflTransGen

/-- What a finished search of a procedure has visited is all there is. -/
theorem Searched.covers (h : Searched G A p f M X M') (hn : G.entry p = some n)
    (hentry : (n, f, f) ∈ M'.seen) (hnew : ∀ {n' f'}, G.owner n' = p → (n', f, f') ∉ M.seen)
    {n' : N} {f' : F} (hreach : G.Reach p f n' f') :
    (n', f, f') ∈ M'.seen ∧ Expanded G M' X f n' f' := by
  have hmem : (n', f, f') ∈ M'.seen := by
    induction hreach with
    | entry hn' =>
      rw [hn] at hn'
      cases hn'
      exact hentry
    | step hr hk hs ih =>
      exact (h.expanded hr.owner (ih h hn hentry hnew) (hnew hr.owner)).step hk hs
    | resume hr hk hx hexit hs ih =>
      exact (h.expanded hr.owner (ih h hn hentry hnew) (hnew hr.owner)).resume hk hs ⟨_, hx, hexit⟩
    | skip hr hk hq hs ih =>
      exact (h.expanded hr.owner (ih h hn hentry hnew) (hnew hr.owner)).skip hk hs hq
  exact ⟨hmem, h.expanded hreach.owner hmem (hnew hreach.owner)⟩

/-- The result of a finished search is the set of facts at the returns. -/
theorem Searched.exact (h : Searched G A p f M X M') (hn : G.entry p = some n)
    (hentry : (n, f, f) ∈ M'.seen) (hnew : ∀ {n' f'}, G.owner n' = p → (n', f, f') ∉ M.seen) :
    X = G.exits p f ∧ (X = ∅ → ¬ G.Returns p) := by
  refine ⟨Set.Subset.antisymm h.exits ?_, ?_⟩
  · rintro x ⟨r, hr, hexit⟩
    exact (h.covers hn hentry hnew hr).2.exit hexit
  · rintro hempty ⟨n', r, hn', hpath, hexit⟩
    rw [hn] at hn'
    cases hn'
    -- every node on a path through the procedure is visited with some fact
    have hvisited : ∃ g, G.owner r = p ∧ (r, f, g) ∈ M'.seen := by
      clear hexit
      induction hpath with
      | refl => exact ⟨f, G.owner_entry hn, hentry⟩
      | tail _ hflow ih =>
        obtain ⟨g, hp, hg⟩ := ih
        obtain ⟨g', hg'⟩ := (h.expanded hp hg (hnew hp)).flow hflow
        exact ⟨g', (G.owner_succ hflow.2).trans hp, hg'⟩
    obtain ⟨g, hp, hg⟩ := hvisited
    have hX := (h.expanded hp hg (hnew hp)).exit hexit
    rw [hempty] at hX
    exact hX

open Classical in
theorem summary_finish {q : P} {g : F} :
    (M.finish p f X).summary q g = if q = p ∧ g = f then some X else M.summary q g := by
  unfold Memo.finish
  split <;> simp [*]

/-- A procedure without a summary that is not being searched has not been visited. -/
theorem Consistent.unvisited (hM : Consistent G A M) (hfresh : M.summary p f = none)
    (hactive : p ∉ M.active) {f' : F} (hp : G.owner n = p) : (n, f, f') ∉ M.seen := by
  intro hm
  subst hp
  rcases hM.fresh hm with hs | ha
  · exact hs hfresh
  · exact hactive ha

/-- The new summary replaces none that is different. -/
theorem Consistent.grows_finish (h : Consistent G A M') (hX : X = G.exits p f) :
    M'.Grows (M'.finish p f X) where
  seen := subset_rfl
  summary := by
    intro q g Y hY
    rw [summary_finish]
    split
    · rename_i hqg
      obtain ⟨rfl, rfl⟩ := hqg
      rw [(h.exact hY).1, hX]
    · exact hY

/-- What a search of `p` entered with `f` has visited in `p` belongs to it, or to an
activation that has a summary. -/
theorem Searched.owned (hacyclic : ∀ p, ¬ Relation.TransGen G.Calls p p)
    (hM : Consistent G A M) (hactive : p ∉ M.active) (h : Searched G A p f (M.start p) X M')
    {f' : F} (hm : (n, e, f') ∈ M'.seen) (hp : G.owner n = p) :
    e = f ∨ M'.summary p e ≠ none := by
  subst hp
  rcases h.frame hm with hold | ⟨-, rfl⟩ | hcalls
  · rcases hM.fresh hold with hs | ha
    · obtain ⟨Y, hY⟩ := Option.ne_none_iff_exists'.mp hs
      refine .inr ?_
      rw [h.grows.summary hY]
      nofun
    · exact absurd ha hactive
  · exact .inl rfl
  · exact absurd hcalls (hacyclic _)

theorem Searched.consistent_finish (hacyclic : ∀ p, ¬ Relation.TransGen G.Calls p p)
    (hM : Consistent G A M) (hn : G.entry p = some n) (hfresh : M.summary p f = none)
    (hactive : p ∉ M.active) (h : Searched G A p f (M.start p) X M')
    (hentry : (n, f, f) ∈ M'.seen) : Consistent G A (M'.finish p f X) where
  sound := h.consistent.sound
  fresh := by
    intro n' e' f' hm
    rw [summary_finish]
    by_cases hp : G.owner n' = p
    · refine .inl ?_
      split
      · nofun
      · rename_i hne
        rcases h.owned hacyclic hM hactive hm hp with he | hs
        · exact absurd ⟨hp, he⟩ hne
        · rw [hp]
          exact hs
    · rw [if_neg fun hpe => hp hpe.1]
      exact (h.consistent.fresh hm).imp_right fun ha => ⟨ha, hp⟩
  exact := by
    intro q g Y hY
    rw [summary_finish] at hY
    split at hY
    · rename_i hqg
      obtain ⟨rfl, rfl⟩ := hqg
      cases hY
      exact h.exact hn hentry (hM.unvisited hfresh hactive)
    · exact h.consistent.exact hY
  covered := by
    have hnew : ∀ {n' f'}, G.owner n' = p → (n', f, f') ∉ M.seen := hM.unvisited hfresh hactive
    have hgrows := h.consistent.grows_finish (h.exact hn hentry hnew).1
    intro q g Y n' f' hY hreach
    rw [summary_finish] at hY
    split at hY
    · rename_i hqg
      obtain ⟨rfl, rfl⟩ := hqg
      obtain ⟨hm, hexp⟩ := h.covers hn hentry hnew hreach
      exact ⟨hm, hexp.entered.mono hgrows⟩
    · obtain ⟨hm, hent⟩ := h.consistent.covered hY hreach
      exact ⟨hm, hent.mono hgrows⟩

theorem Searched.summarised (hacyclic : ∀ p, ¬ Relation.TransGen G.Calls p p)
    (hM : Consistent G A M) (hn : G.entry p = some n) (hfresh : M.summary p f = none)
    (hactive : p ∉ M.active) (h : Searched G A p f (M.start p) X M')
    (hentry : (n, f, f) ∈ M'.seen) : Summarised G A p f M X (M'.finish p f X) where
  consistent := h.consistent_finish hacyclic hM hn hfresh hactive hentry
  active := by
    show M'.active \ {p} = M.active
    rw [h.active]
    ext k
    refine ⟨?_, fun hk => ⟨.inr hk, fun hkp => hactive (hkp ▸ hk)⟩⟩
    intro ⟨hk, hkp⟩
    exact hk.resolve_left hkp
  grows := by
    have hexact := h.exact hn hentry (hM.unvisited hfresh hactive)
    exact Memo.Grows.trans ⟨h.grows.seen, h.grows.summary⟩ (h.consistent.grows_finish hexact.1)
  frame := by
    intro n' e' f' hm
    rcases h.frame hm with hold | ⟨hp, -⟩ | hcalls
    · exact .inl hold
    · exact .inr (hp ▸ .refl)
    · exact .inr hcalls.to_reflTransGen
  exact := h.exact hn hentry (hM.unvisited hfresh hactive)
  stored _ := ⟨X, by rw [summary_finish, if_pos ⟨rfl, rfl⟩]⟩

/-- The callees of every activation are activations. -/
def CallsActivate (G : Supergraph P N F) (A : P → F → Prop) : Prop :=
  ∀ ⦃p e n f q enter resume skip⦄, A p e → G.Reach p e n f →
    G.kind n = .call q enter resume skip → A q (enter f)

/-- What a search is to show, for each kind of visit. -/
def Correct (G : Supergraph P N F) (A : P → F → Prop) :
    Visit P N F → Memo P N F → Set F → Memo P N F → Prop
  | .proc p f, M, X, M' => Consistent G A M → A p f →
      (∀ {k}, k ∈ M.active → Relation.TransGen G.Calls k p) → Summarised G A p f M X M'
  | .node e n f, M, X, M' => ∀ p, Running G A p e M → G.Reach p e n f →
      Searched G A p e M X M' ∧ (n, e, f) ∈ M'.seen
  | .each e work, M, X, M' => ∀ p, Running G A p e M → (∀ c ∈ work, G.Reach p e c.1 c.2) →
      Searched G A p e M X M' ∧ ∀ c ∈ work, (c.1, e, c.2) ∈ M'.seen

/-- Over an acyclic call graph the memoised search is exact. -/
theorem Runs.correct (hacyclic : ∀ p, ¬ Relation.TransGen G.Calls p p)
    (hA : CallsActivate G A) {v : Visit P N F} (h : Runs G v M X M') : Correct G A v M X M' := by
  induction h with
  | @noBody p f M hn =>
    intro hM hf _
    refine ⟨hM, rfl, .refl, fun hm => .inl hm, ?_, fun he => absurd hn he⟩
    exact ⟨(Supergraph.exits_of_no_entry hn).symm, fun _ => Supergraph.not_returns_of_no_entry hn⟩
  | summary _ hX =>
    intro hM hf _
    exact ⟨hM, rfl, .refl, fun hm => .inl hm, hM.exact hX, fun _ => ⟨_, hX⟩⟩
  | recursive ha =>
    intro hM hf hcallers
    exact absurd (hcallers ha) (hacyclic _)
  | proc hn hfresh hactive _ ih =>
    intro hM hf hcallers
    obtain ⟨hsearched, hentry⟩ := ih _ (Running.start hM hf hcallers) (.entry hn)
    exact hsearched.summarised hacyclic hM hn hfresh hactive hentry
  | seen hm =>
    intro p hM hreach
    exact ⟨.refl hM, hm⟩
  | exit _ hk =>
    intro p hM hreach
    exact ⟨.exit hM hreach hk, .inl rfl⟩
  | @step e n f M effect work X M' _ hk hwork _ ih =>
    intro p hM hreach
    obtain ⟨hsearched, hall⟩ := ih p (hM.see hreach) (by
      intro c hc
      obtain ⟨hs, hf⟩ := (hwork c).mp hc
      rw [show c.2 = effect f from hf]
      exact hreach.step hk hs)
    refine ⟨.node hM hreach hsearched (.of_step hk ?_), hsearched.grows.seen (.inl rfl)⟩
    intro n' hs
    exact hall (n', effect f) ((hwork _).mpr ⟨hs, rfl⟩)
  | @call e n f M q enter resume skip Y M₁ work X M₂ _ hk _ hwork _ ihq ih =>
    intro p hM hreach
    have hrun := hM.see hreach
    have hcalls : G.Calls p q := ⟨n, enter, resume, skip, hreach.owner, hk⟩
    have hcallee := ihq hrun.consistent (hA hM.activation hreach hk)
      (hrun.callee hk hreach.owner)
    have hfirst : Searched G A p e (M.see n e f) ∅ M₁ := hcallee.searched hacyclic hcalls
    obtain ⟨hsearched, hall⟩ := ih p (hfirst.running hrun) (by
      intro c hc
      obtain ⟨hs, hf⟩ := (hwork c).mp hc
      exact reach_afterCall hreach hk hcallee.exact hs hf)
    have hboth := hfirst.trans hsearched
    rw [Set.empty_union] at hboth
    refine ⟨.node hM hreach hboth (.of_call hk hcallee.exact.1 ?_ ?_),
      hboth.grows.seen (.inl rfl)⟩
    · intro hq
      obtain ⟨Z, hZ⟩ := hcallee.stored hq
      exact ⟨Z, hsearched.grows.summary hZ⟩
    · intro n' hs g hg
      exact hall (n', g) ((hwork _).mpr ⟨hs, hg⟩)
  | nil =>
    intro p hM _
    exact ⟨.refl hM, nofun⟩
  | cons _ _ ih ih' =>
    intro p hM hwork
    obtain ⟨hfirst, hseen⟩ := ih p hM (hwork _ List.mem_cons_self)
    obtain ⟨hrest, hall⟩ := ih' p (hfirst.running hM) fun c hc =>
      hwork c (List.mem_cons_of_mem _ hc)
    refine ⟨hfirst.trans hrest, ?_⟩
    intro c hc
    rcases List.mem_cons.mp hc with rfl | hc
    · exact hrest.grows.seen hseen
    · exact hall c hc

/-- Where a search may start. -/
def Ready (G : Supergraph P N F) (A : P → F → Prop) : Visit P N F → Memo P N F → Prop
  | .proc p f, M => Consistent G A M ∧ A p f ∧ ∀ k ∈ M.active, Relation.TransGen G.Calls k p
  | .node e n f, M => Running G A (G.owner n) e M ∧ G.Reach (G.owner n) e n f
  | .each e work, M => ∃ p, Running G A p e M ∧ ∀ c ∈ work, G.Reach p e c.1 c.2

section Descent
variable {enter : F → F} {resume : F → F → F} {skip : F → F} {q : P} {work : List (N × F)}
  {M₁ : Memo P N F} {Y : Set F}

theorem Ready.body (h : Ready G A (.proc p f) M) (hn : G.entry p = some n) :
    Ready G A (.node f n f) (M.start p) := by
  obtain ⟨hM, hf, hcallers⟩ := h
  rw [Ready, G.owner_entry hn]
  exact ⟨.start hM hf fun {k} hk => hcallers k hk, .entry hn⟩

theorem Ready.step {effect : F → F} (h : Ready G A (.node e n f) M)
    (hk : G.kind n = .step effect) (hwork : Lists G n {effect f} work) :
    Ready G A (.each e work) (M.see n e f) := by
  obtain ⟨hM, hreach⟩ := h
  refine ⟨_, hM.see hreach, fun c hc => ?_⟩
  obtain ⟨hs, hf⟩ := (hwork c).mp hc
  rw [show c.2 = effect f from hf]
  exact hreach.step hk hs

theorem Ready.call (hA : CallsActivate G A)
    (h : Ready G A (.node e n f) M) (hk : G.kind n = .call q enter resume skip) :
    Ready G A (.proc q (enter f)) (M.see n e f) := by
  obtain ⟨hM, hreach⟩ := h
  have hrun := hM.see hreach
  exact ⟨hrun.consistent, hA hM.activation hreach hk, fun k hactive => hrun.callee hk rfl hactive⟩

theorem Ready.afterCall (hacyclic : ∀ p, ¬ Relation.TransGen G.Calls p p)
    (hA : CallsActivate G A) (h : Ready G A (.node e n f) M) (hk : G.kind n = .call q enter resume skip)
    (hrun : Runs G (.proc q (enter f)) (M.see n e f) Y M₁)
    (hwork : Lists G n (afterCall Y (resume f) (skip f)) work) : Ready G A (.each e work) M₁ := by
  obtain ⟨hM, hactive, hcallers⟩ := h.call hA hk
  have hcallee := hrun.correct hacyclic hA hM hactive fun {k} hk => hcallers k hk
  have hsearched : Searched G A (G.owner n) e (M.see n e f) ∅ M₁ :=
    hcallee.searched hacyclic ⟨n, enter, resume, skip, rfl, hk⟩
  refine ⟨_, hsearched.running (h.1.see h.2), fun c hc => ?_⟩
  obtain ⟨hs, hf⟩ := (hwork c).mp hc
  exact reach_afterCall h.2 hk hcallee.exact hs hf

theorem Ready.head (h : Ready G A (.each e ((n, f) :: work)) M) : Ready G A (.node e n f) M := by
  obtain ⟨p, hM, hwork⟩ := h
  have hreach := hwork (n, f) List.mem_cons_self
  rw [Ready, hreach.owner]
  exact ⟨hM, hreach⟩

theorem Ready.rest (hacyclic : ∀ p, ¬ Relation.TransGen G.Calls p p)
    (hA : CallsActivate G A) (h : Ready G A (.each e ((n, f) :: work)) M) (hrun : Runs G (.node e n f) M X M₁) :
    Ready G A (.each e work) M₁ := by
  obtain ⟨p, hM, hwork⟩ := h
  obtain ⟨hsearched, -⟩ := hrun.correct hacyclic hA p hM (hwork (n, f) List.mem_cons_self)
  exact ⟨p, hsearched.running hM, fun c hc => hwork c (List.mem_cons_of_mem _ hc)⟩

end Descent

theorem callsActivate_activated {root : P} {e₀ : F} : CallsActivate G (G.Activated root e₀) :=
  fun _ _ _ _ _ _ _ _ ha hreach hk => ha.call hreach hk

/-- Every activation below a summarised root has its own summary. -/
theorem Consistent.summary_of_activated {root : P} {e₀ : F} (h : Consistent G A M)
    (hroot : G.entry root ≠ none → ∃ X, M.summary root e₀ = some X)
    (hp : G.Activated root e₀ p e) (hentry : G.entry p ≠ none) : ∃ X, M.summary p e = some X := by
  induction hp with
  | root => exact hroot hentry
  | call _ hreach hk ih =>
    obtain ⟨n₀, hn₀, -⟩ := hreach.flow
    obtain ⟨X, hX⟩ := ih (by rw [hn₀]; nofun)
    exact (h.covered hX hreach).2 _ _ _ _ hk hentry

/-- From a root, a search visits what the paths reach and nothing else. -/
theorem Runs.seen_iff (hacyclic : ∀ p, ¬ Relation.TransGen G.Calls p p) {root : P} {e₀ : F}
    (hM : Consistent G (G.Activated root e₀) M) (hactive : M.active = ∅)
    (h : Runs G (.proc root e₀) M X M') :
    (n, e, f) ∈ M'.seen ↔ G.Activated root e₀ (G.owner n) e ∧ G.Reach (G.owner n) e n f := by
  have hsummarised := h.correct hacyclic (A := G.Activated root e₀) callsActivate_activated hM .root (by
    intro k hk
    rw [hactive] at hk
    cases hk)
  refine ⟨fun hm => hsummarised.consistent.sound hm, ?_⟩
  rintro ⟨hact, hreach⟩
  obtain ⟨n₀, hn₀, -⟩ := hreach.flow
  obtain ⟨Y, hY⟩ := hsummarised.consistent.summary_of_activated hsummarised.stored hact
    (by rw [hn₀]; nofun)
  exact (hsummarised.consistent.covered hY hreach).1

theorem consistent_empty (h : M.seen = ∅) (hsummary : ∀ p f, M.summary p f = none) :
    Consistent G A M where
  sound hm := by rw [h] at hm; cases hm
  fresh hm := by rw [h] at hm; cases hm
  exact hX := by rw [hsummary] at hX; cases hX
  covered hX := by rw [hsummary] at hX; cases hX

end Correct

end Lockout.Lib.Tabulation
