import Lockout.Lib.Tabulation

/-! # Part of a supergraph

A set of procedures that call no others can be taken out of a supergraph. Inside it the
paths are the same (`exits_restrict`), and so is a memoised search (`runs_restrict`);
elsewhere a search changes what it has found there only through calls. So where the part
has no cycle of calls the memo stays right about it, whatever the rest of the call graph
is (`runs_outside`). -/

namespace Lockout.Lib.Restriction
open Lockout.Lib.Interprocedural Lockout.Lib.Tabulation

variable {P N F : Type}

/-- The procedures of `C` call no others. -/
def Closed (G : Supergraph P N F) (C : Set P) : Prop :=
  ∀ ⦃p q⦄, p ∈ C → G.Calls p q → q ∈ C

open Classical in
noncomputable def restrict (G : Supergraph P N F) (C : Set P) : Supergraph P N F where
  owner := G.owner
  entry p := if p ∈ C then G.entry p else none
  succ := G.succ
  kind n := if G.owner n ∈ C then G.kind n else .exit
  owner_entry h := by
    split at h
    · exact G.owner_entry h
    · cases h
  owner_succ := G.owner_succ

/-! ## Paths -/

section Paths
variable {G : Supergraph P N F} {C : Set P} {p q : P} {e f : F} {n n' : N}

theorem entry_restrict (hp : p ∈ C) : (restrict G C).entry p = G.entry p := if_pos hp

theorem kind_restrict (hn : G.owner n ∈ C) : (restrict G C).kind n = G.kind n := if_pos hn

theorem calls_restrict (h : (restrict G C).Calls p q) : p ∈ C ∧ G.Calls p q := by
  obtain ⟨n, enter, resume, skip, hn, hk⟩ := h
  have howner : G.owner n = p := hn
  by_cases hp : G.owner n ∈ C
  · rw [kind_restrict hp] at hk
    exact ⟨howner ▸ hp, n, enter, resume, skip, howner, hk⟩
  · have hexit : (restrict G C).kind n = .exit := if_neg hp
    cases hexit.symm.trans hk

theorem acyclic_restrict (h : ∀ p ∈ C, ¬ Relation.TransGen G.Calls p p) (p : P) :
    ¬ Relation.TransGen (restrict G C).Calls p p := by
  intro hpath
  obtain ⟨q, hfirst, -⟩ := Relation.TransGen.head'_iff.mp hpath
  have hle : (restrict G C).Calls ≤ G.Calls := fun _ _ hcalls => (calls_restrict hcalls).2
  exact h p (calls_restrict hfirst).1 (Relation.TransGen.mono hle p p hpath)

theorem flow_restrict (hn : G.owner n ∈ C) : (restrict G C).Flow n n' ↔ G.Flow n n' := by
  unfold Supergraph.Flow
  rw [kind_restrict hn]
  rfl

theorem path_restrict (hn : G.owner n ∈ C) :
    Relation.ReflTransGen (restrict G C).Flow n n' ↔ Relation.ReflTransGen G.Flow n n' := by
  constructor
  · intro h
    have hle : (restrict G C).Flow ≤ G.Flow := by
      intro a b hab
      by_cases ha : G.owner a ∈ C
      · exact (flow_restrict ha).mp hab
      · exact absurd (if_neg ha) hab.1
    exact Relation.ReflTransGen.mono hle n n' h
  · intro h
    have hinside : G.owner n' ∈ C ∧ Relation.ReflTransGen (restrict G C).Flow n n' := by
      induction h with
      | refl => exact ⟨hn, .refl⟩
      | tail _ hflow ih =>
        refine ⟨?_, ih.2.tail ((flow_restrict ih.1).mpr hflow)⟩
        rw [G.owner_succ hflow.2]
        exact ih.1
    exact hinside.2

theorem returns_restrict (hp : p ∈ C) : (restrict G C).Returns p ↔ G.Returns p := by
  unfold Supergraph.Returns
  rw [entry_restrict hp]
  refine exists_congr fun n => exists_congr fun r => and_congr_right fun hn => ?_
  have howner : G.owner n ∈ C := by
    rw [G.owner_entry hn]
    exact hp
  rw [path_restrict howner]
  refine and_congr_right fun hpath => ?_
  have hr : G.owner r ∈ C := by
    induction hpath with
    | refl => exact howner
    | tail _ hflow ih =>
      rw [G.owner_succ hflow.2]
      exact ih
  rw [kind_restrict hr]

theorem callee_mem (hC : Closed G C) (hn : G.owner n ∈ C) {enter : F → F} {resume : F → F → F}
    {skip : F → F} (hk : G.kind n = .call q enter resume skip) : q ∈ C :=
  hC hn ⟨n, enter, resume, skip, rfl, hk⟩

theorem reach_restrict (hC : Closed G C) (hp : p ∈ C) (h : G.Reach p e n f) :
    (restrict G C).Reach p e n f := by
  have hinside : ∀ {p e n f}, p ∈ C → G.Reach p e n f → G.owner n ∈ C := fun hp h => h.owner ▸ hp
  induction h with
  | entry hn => exact .entry ((entry_restrict hp).trans hn)
  | step h hk hs ih => exact (ih hp).step ((kind_restrict (hinside hp h)).trans hk) hs
  | resume h hk hx hexit hs ih ih' =>
    have hq := callee_mem hC (hinside hp h) hk
    exact (ih hp).resume ((kind_restrict (hinside hp h)).trans hk) (ih' hq)
      ((kind_restrict (hinside hq hx)).trans hexit) hs
  | skip h hk hreturns hs ih =>
    have hq := callee_mem hC (hinside hp h) hk
    exact (ih hp).skip ((kind_restrict (hinside hp h)).trans hk)
      (fun hr => hreturns ((returns_restrict hq).mp hr)) hs

theorem reach_of_restrict (hC : Closed G C) (hp : p ∈ C) (h : (restrict G C).Reach p e n f) :
    G.Reach p e n f := by
  have hinside : ∀ {p e n f}, p ∈ C → (restrict G C).Reach p e n f → G.owner n ∈ C := by
    intro p e n f hp h
    have howner : G.owner n = p := h.owner
    rw [howner]
    exact hp
  induction h with
  | entry hn => exact .entry ((entry_restrict hp).symm.trans hn)
  | step h hk hs ih => exact (ih hp).step ((kind_restrict (hinside hp h)).symm.trans hk) hs
  | resume h hk hx hexit hs ih ih' =>
    have hk' := (kind_restrict (hinside hp h)).symm.trans hk
    have hq := callee_mem hC (hinside hp h) hk'
    exact (ih hp).resume hk' (ih' hq) ((kind_restrict (hinside hq hx)).symm.trans hexit) hs
  | skip h hk hreturns hs ih =>
    have hk' := (kind_restrict (hinside hp h)).symm.trans hk
    have hq := callee_mem hC (hinside hp h) hk'
    exact (ih hp).skip hk' (fun hr => hreturns ((returns_restrict hq).mpr hr)) hs

/-- The facts at the returns are the same. -/
theorem exits_restrict (hC : Closed G C) (hp : p ∈ C) :
    (restrict G C).exits p e = G.exits p e := by
  ext x
  constructor
  · intro h
    obtain ⟨r, hr, hexit⟩ := h
    have hreach := reach_of_restrict hC hp hr
    have howner : G.owner r ∈ C := hreach.owner ▸ hp
    exact ⟨r, hreach, (kind_restrict howner).symm.trans hexit⟩
  · intro h
    obtain ⟨r, hr, hexit⟩ := h
    have howner : G.owner r ∈ C := hr.owner ▸ hp
    exact ⟨r, reach_restrict hC hp hr, (kind_restrict howner).trans hexit⟩

end Paths

/-! ## Searches -/

open Classical in
/-- What a memo has about the procedures of `C`. -/
noncomputable def restrictMemo (G : Supergraph P N F) (C : Set P) (M : Memo P N F) :
    Memo P N F where
  summary p f := if p ∈ C then M.summary p f else none
  seen := {c | c ∈ M.seen ∧ G.owner c.1 ∈ C}
  active := M.active ∩ C

def Inside (G : Supergraph P N F) (C : Set P) : Visit P N F → Prop
  | .proc p _ => p ∈ C
  | .node _ n _ => G.owner n ∈ C
  | .each _ work => ∀ c ∈ work, G.owner c.1 ∈ C

/-- A search that is not inside an activation of a procedure of `C`. -/
def Outside (G : Supergraph P N F) (C : Set P) : Visit P N F → Prop
  | .proc _ _ => True
  | .node _ n _ => G.owner n ∉ C
  | .each _ work => ∀ c ∈ work, G.owner c.1 ∉ C

section Memos
variable {G : Supergraph P N F} {C : Set P} {M M' : Memo P N F} {p : P} {e f : F} {n : N} {X : Set F}

theorem memo_ext (hsummary : M.summary = M'.summary) (hseen : M.seen = M'.seen)
    (hactive : M.active = M'.active) : M = M' := by
  cases M
  cases M'
  cases hsummary
  cases hseen
  cases hactive
  rfl

theorem restrictMemo_see (hn : G.owner n ∈ C) :
    restrictMemo G C (M.see n e f) = (restrictMemo G C M).see n e f := by
  have hseen : {c | c ∈ insert (n, e, f) M.seen ∧ G.owner c.1 ∈ C} =
      insert (n, e, f) {c | c ∈ M.seen ∧ G.owner c.1 ∈ C} := by
    ext c
    constructor
    · intro h
      exact h.1.imp id fun hc => ⟨hc, h.2⟩
    · intro h
      rcases h with rfl | h
      · exact ⟨.inl rfl, hn⟩
      · exact ⟨.inr h.1, h.2⟩
  exact memo_ext rfl hseen rfl

theorem restrictMemo_see_outside (hn : G.owner n ∉ C) :
    restrictMemo G C (M.see n e f) = restrictMemo G C M := by
  have hseen : {c | c ∈ insert (n, e, f) M.seen ∧ G.owner c.1 ∈ C} =
      {c | c ∈ M.seen ∧ G.owner c.1 ∈ C} := by
    ext c
    refine and_congr_left fun hc => ⟨fun h => ?_, .inr⟩
    rcases h with rfl | h
    · exact absurd hc hn
    · exact h
  exact memo_ext rfl hseen rfl

theorem restrictMemo_start (hp : p ∈ C) :
    restrictMemo G C (M.start p) = (restrictMemo G C M).start p := by
  have hactive : insert p M.active ∩ C = insert p (M.active ∩ C) := Set.insert_inter_of_mem hp
  exact memo_ext rfl rfl hactive

theorem restrictMemo_start_outside (hp : p ∉ C) :
    restrictMemo G C (M.start p) = restrictMemo G C M := by
  have hactive : insert p M.active ∩ C = M.active ∩ C := Set.insert_inter_of_notMem hp
  exact memo_ext rfl rfl hactive

open Classical in
theorem restrictMemo_finish (hp : p ∈ C) :
    restrictMemo G C (M.finish p f X) = (restrictMemo G C M).finish p f X := by
  have hactive : (M.active \ {p}) ∩ C = (M.active ∩ C) \ {p} := by
    ext q
    simp only [Set.mem_inter_iff, Set.mem_sdiff]
    tauto
  have hsummary : (fun q g => if q ∈ C then (if q = p ∧ g = f then some X else M.summary q g) else none) =
      fun q g => if q = p ∧ g = f then some X else if q ∈ C then M.summary q g else none := by
    funext q g
    by_cases hq : q = p ∧ g = f
    · simp [hq, hp]
    · simp [hq]
  exact memo_ext hsummary rfl hactive

open Classical in
theorem restrictMemo_finish_outside (hp : p ∉ C) :
    restrictMemo G C (M.finish p f X) = restrictMemo G C M := by
  have hactive : (M.active \ {p}) ∩ C = M.active ∩ C := by
    ext q
    simp only [Set.mem_inter_iff, Set.mem_sdiff, Set.mem_singleton_iff]
    refine and_congr_left fun hq => and_iff_left fun hqp => hp (hqp ▸ hq)
  have hsummary : (fun q g => if q ∈ C then (if q = p ∧ g = f then some X else M.summary q g) else none) =
      fun q g => if q ∈ C then M.summary q g else none := by
    funext q g
    by_cases hq : q ∈ C
    · have hne : q ≠ p := fun hqp => hp (hqp ▸ hq)
      simp [hne]
    · simp [hq]
  exact memo_ext hsummary rfl hactive

end Memos

section Searches
variable {G : Supergraph P N F} {C : Set P} {M M' : Memo P N F} {v : Visit P N F} {p : P} {f : F}
  {n : N} {X : Set F} {facts : Set F} {work : List (N × F)}

theorem inside_work (hn : G.owner n ∈ C) (hwork : Lists G n facts work) {c : N × F}
    (hc : c ∈ work) : G.owner c.1 ∈ C := by
  rw [G.owner_succ ((hwork c).mp hc).1]
  exact hn

theorem outside_work (hn : G.owner n ∉ C) (hwork : Lists G n facts work) {c : N × F}
    (hc : c ∈ work) : G.owner c.1 ∉ C := by
  rw [G.owner_succ ((hwork c).mp hc).1]
  exact hn

/-- A search inside is a search of the restriction. -/
theorem runs_restrict (hC : Closed G C) (h : Runs G v M X M') (hv : Inside G C v) :
    Runs (restrict G C) v (restrictMemo G C M) X (restrictMemo G C M') := by
  have hsummary : ∀ {M : Memo P N F} {p f}, p ∈ C →
      (restrictMemo G C M).summary p f = M.summary p f := fun hp => if_pos hp
  induction h with
  | noBody hn => exact .noBody ((entry_restrict hv).trans hn)
  | summary hn hX =>
    exact .summary (by rw [entry_restrict hv]; exact hn) ((hsummary hv).trans hX)
  | recursive ha => exact .recursive ⟨ha, hv⟩
  | proc hn hfresh hactive _ ih =>
    rw [restrictMemo_finish hv]
    have hbody := ih (by rw [Inside, G.owner_entry hn]; exact hv)
    rw [restrictMemo_start hv] at hbody
    exact .proc ((entry_restrict hv).trans hn) ((hsummary hv).trans hfresh)
      (fun ha => hactive ha.1) hbody
  | seen hm => exact .seen ⟨hm, hv⟩
  | exit hnew hk =>
    rw [restrictMemo_see hv]
    exact .exit (fun hm => hnew hm.1) ((kind_restrict hv).trans hk)
  | step hnew hk hwork _ ih =>
    have hrest := ih fun c hc => inside_work hv hwork hc
    rw [restrictMemo_see hv] at hrest
    exact .step (fun hm => hnew hm.1) ((kind_restrict hv).trans hk) hwork hrest
  | call hnew hk _ hwork _ ihq ih =>
    have hcallee := ihq (callee_mem hC hv hk)
    rw [restrictMemo_see hv] at hcallee
    exact .call (fun hm => hnew hm.1) ((kind_restrict hv).trans hk) hcallee hwork
      (ih fun c hc => inside_work hv hwork hc)
  | nil => exact .nil
  | cons _ _ ih ih' =>
    exact .cons (ih (hv _ List.mem_cons_self)) (ih' fun c hc => hv c (List.mem_cons_of_mem _ hc))

/-- Any fact can hold where a procedure is entered. -/
def anywhere : P → F → Prop := fun _ _ => True

theorem callsActivate_anywhere : CallsActivate (restrict G C) anywhere :=
  fun _ _ _ _ _ _ _ _ _ _ _ => trivial

/-- The memo is right about the part, of which nothing is being searched. -/
structure Settled (G : Supergraph P N F) (C : Set P) (M : Memo P N F) : Prop where
  consistent : Consistent (restrict G C) anywhere (restrictMemo G C M)
  inactive : (restrictMemo G C M).active = ∅

theorem Settled.ready (h : Settled G C M) :
    Ready (restrict G C) anywhere (.proc p f) (restrictMemo G C M) := by
  refine ⟨h.consistent, trivial, fun k hk => ?_⟩
  rw [h.inactive] at hk
  cases hk

theorem Settled.summarised (hC : Closed G C) (hacyclic : ∀ p ∈ C, ¬ Relation.TransGen G.Calls p p)
    (h : Settled G C M) (hp : p ∈ C) (hrun : Runs G (.proc p f) M X M') :
    Settled G C M' := by
  obtain ⟨hconsistent, hf, hcallers⟩ := @Settled.ready _ _ _ _ _ _ p f h
  have hsummarised := (runs_restrict hC hrun hp).correct (acyclic_restrict hacyclic)
    callsActivate_anywhere hconsistent hf fun {k} hk => hcallers k hk
  exact ⟨hsummarised.consistent, hsummarised.active.trans h.inactive⟩

/-- A search from outside leaves the memo right about the part. -/
theorem runs_outside (hC : Closed G C) (hacyclic : ∀ p ∈ C, ¬ Relation.TransGen G.Calls p p)
    (hrun : Runs G v M X M') (hv : Outside G C v) (h : Settled G C M) : Settled G C M' := by
  have hsame : ∀ {M₁ M₂ : Memo P N F}, restrictMemo G C M₁ = restrictMemo G C M₂ →
      Settled G C M₂ → Settled G C M₁ := by
    intro M₁ M₂ heq h
    exact ⟨heq ▸ h.consistent, heq ▸ h.inactive⟩
  induction hrun with
  | noBody | summary | recursive | seen | nil => exact h
  | @proc p n f M X M' hn hfresh hactive hbody ih =>
    by_cases hp : p ∈ C
    · exact h.summarised hC hacyclic hp (.proc hn hfresh hactive hbody)
    · refine hsame (restrictMemo_finish_outside hp) (ih ?_ ?_)
      · rw [Outside, G.owner_entry hn]
        exact hp
      · exact hsame (restrictMemo_start_outside hp) h
  | exit _ _ => exact hsame (restrictMemo_see_outside hv) h
  | step _ _ hwork _ ih =>
    exact ih (fun c hc => outside_work hv hwork hc) (hsame (restrictMemo_see_outside hv) h)
  | call _ _ _ hwork _ ihq ih =>
    exact ih (fun c hc => outside_work hv hwork hc)
      (ihq trivial (hsame (restrictMemo_see_outside hv) h))
  | cons _ _ ih ih' =>
    exact ih' (fun c hc => hv c (List.mem_cons_of_mem _ hc)) (ih (hv _ List.mem_cons_self) h)

theorem settled_empty (hseen : M.seen = ∅) (hsummary : ∀ p f, M.summary p f = none)
    (hactive : M.active = ∅) : Settled G C M where
  consistent := by
    refine consistent_empty ?_ fun p f => ?_
    · ext c
      simp [restrictMemo, hseen]
    · simp [restrictMemo, hsummary]
  inactive := by simp [restrictMemo, hactive]

end Searches

/-! ## In the middle of a search -/

/-- A search has come to visit `v`: inside the part, where a search of it may start, or
outside, with the memo right about the part. -/
def At (G : Supergraph P N F) (C : Set P) (v : Visit P N F) (M : Memo P N F) : Prop :=
  (Inside G C v ∧ Ready (restrict G C) anywhere v (restrictMemo G C M)) ∨
    (Outside G C v ∧ Settled G C M)

section Middle
variable {G : Supergraph P N F} {C : Set P} {M M₁ : Memo P N F} {v : Visit P N F} {p q : P}
  {e f : F} {n : N} {X Y : Set F} {facts : Set F} {work : List (N × F)} {enter : F → F}
  {resume : F → F → F} {skip : F → F}

theorem At.consistent (h : At G C v M) :
    Consistent (restrict G C) anywhere (restrictMemo G C M) := by
  rcases h with ⟨-, h⟩ | ⟨-, h⟩
  · cases v with
    | proc => exact h.1
    | node => exact h.1.consistent
    | each =>
      obtain ⟨p, hM, -⟩ := h
      exact hM.consistent
  · exact h.consistent

theorem At.body (hn : G.entry p = some n) (h : At G C (.proc p f) M) :
    At G C (.node f n f) (M.start p) := by
  have hinside : p ∈ C → Ready (restrict G C) anywhere (.proc p f) (restrictMemo G C M) →
      At G C (.node f n f) (M.start p) := by
    intro hp hready
    refine .inl ⟨by rw [Inside, G.owner_entry hn]; exact hp, ?_⟩
    rw [restrictMemo_start hp]
    exact hready.body ((entry_restrict hp).trans hn)
  rcases h with ⟨hp, hready⟩ | ⟨-, hsettled⟩
  · exact hinside hp hready
  · by_cases hp : p ∈ C
    · exact hinside hp hsettled.ready
    · refine .inr ⟨by rw [Outside, G.owner_entry hn]; exact hp, ?_⟩
      have heq : restrictMemo G C (M.start p) = restrictMemo G C M := restrictMemo_start_outside hp
      exact ⟨heq ▸ hsettled.consistent, heq ▸ hsettled.inactive⟩

theorem Settled.see (hn : G.owner n ∉ C) (h : Settled G C M) : Settled G C (M.see n e f) := by
  have heq : restrictMemo G C (M.see n e f) = restrictMemo G C M := restrictMemo_see_outside hn
  exact ⟨heq ▸ h.consistent, heq ▸ h.inactive⟩

theorem At.step {effect : F → F} (hk : G.kind n = .step effect) (hwork : Lists G n {effect f} work)
    (h : At G C (.node e n f) M) : At G C (.each e work) (M.see n e f) := by
  rcases h with ⟨hn, hready⟩ | ⟨hn, hsettled⟩
  · refine .inl ⟨fun c hc => inside_work hn hwork hc, ?_⟩
    rw [restrictMemo_see hn]
    exact hready.step ((kind_restrict hn).trans hk) hwork
  · exact .inr ⟨fun c hc => outside_work hn hwork hc, hsettled.see hn⟩

theorem At.call (hC : Closed G C) (hk : G.kind n = .call q enter resume skip)
    (h : At G C (.node e n f) M) : At G C (.proc q (enter f)) (M.see n e f) := by
  rcases h with ⟨hn, hready⟩ | ⟨hn, hsettled⟩
  · refine .inl ⟨callee_mem hC hn hk, ?_⟩
    rw [restrictMemo_see hn]
    exact hready.call callsActivate_anywhere ((kind_restrict hn).trans hk)
  · exact .inr ⟨trivial, hsettled.see hn⟩

theorem At.afterCall (hC : Closed G C) (hacyclic : ∀ p ∈ C, ¬ Relation.TransGen G.Calls p p)
    (hk : G.kind n = .call q enter resume skip)
    (hrun : Runs G (.proc q (enter f)) (M.see n e f) Y M₁)
    (hwork : Lists G n (Tabulation.afterCall Y (resume f) (skip f)) work)
    (h : At G C (.node e n f) M) : At G C (.each e work) M₁ := by
  rcases h with ⟨hn, hready⟩ | ⟨hn, hsettled⟩
  · have hcallee := runs_restrict hC hrun (callee_mem hC hn hk)
    rw [restrictMemo_see hn] at hcallee
    exact .inl ⟨fun c hc => inside_work hn hwork hc,
      hready.afterCall (acyclic_restrict hacyclic) callsActivate_anywhere
        ((kind_restrict hn).trans hk) hcallee hwork⟩
  · exact .inr ⟨fun c hc => outside_work hn hwork hc,
      runs_outside hC hacyclic hrun trivial (hsettled.see hn)⟩

theorem At.head (h : At G C (.each e ((n, f) :: work)) M) : At G C (.node e n f) M := by
  rcases h with ⟨hwork, hready⟩ | ⟨hwork, hsettled⟩
  · exact .inl ⟨hwork _ List.mem_cons_self, hready.head⟩
  · exact .inr ⟨hwork _ List.mem_cons_self, hsettled⟩

theorem At.rest (hC : Closed G C) (hacyclic : ∀ p ∈ C, ¬ Relation.TransGen G.Calls p p)
    (hrun : Runs G (.node e n f) M X M₁) (h : At G C (.each e ((n, f) :: work)) M) :
    At G C (.each e work) M₁ := by
  rcases h with ⟨hwork, hready⟩ | ⟨hwork, hsettled⟩
  · have hfirst := runs_restrict hC hrun (hwork _ List.mem_cons_self)
    exact .inl ⟨fun c hc => hwork c (List.mem_cons_of_mem _ hc),
      hready.rest (acyclic_restrict hacyclic) callsActivate_anywhere hfirst⟩
  · exact .inr ⟨fun c hc => hwork c (List.mem_cons_of_mem _ hc),
      runs_outside hC hacyclic hrun (hwork _ List.mem_cons_self) hsettled⟩

/-- A summary of a procedure of the part has exactly the facts at its returns. -/
theorem At.exact (hC : Closed G C) (hp : p ∈ C) (h : At G C v M) (hX : M.summary p e = some X) :
    X = G.exits p e := by
  have hsummary : (restrictMemo G C M).summary p e = some X := (if_pos hp).trans hX
  rw [← exits_restrict hC hp]
  exact (h.consistent.exact hsummary).1

end Middle

end Lockout.Lib.Restriction
