import Mathlib.Data.Finset.Card
import Mathlib.Logic.Relation

/-! # Depth-first search with a shared visited set

`visit` marks a node, runs `enter` on a payload, visits the neighbours that are
still unmarked and runs `leave`. The payload is what a particular search
accumulates (an emission order, a numbering). Fuel only bounds the recursion:
`visit_isSome` shows that a closed finite set of nodes never exhausts it, so the
`none` of an exhausted search is unreachable there. -/

namespace Lockout.Lib.DepthFirst

variable {α σ : Type} [DecidableEq α]

/-- Visit `v`, which the caller has found unmarked. -/
def visit (nbrs : α → List α) (enter leave : α → σ → σ) :
    Nat → α → Finset α × σ → Option (Finset α × σ)
  | 0, _, _ => none
  | fuel + 1, v, st => do
    let st ← (nbrs v).foldlM
      (fun st w => if w ∈ st.1 then some st else visit nbrs enter leave fuel w st)
      (insert v st.1, enter v st.2)
    some (st.1, leave v st.2)

/-- Visit the nodes of a list in turn, skipping those already marked. -/
def visitAll (nbrs : α → List α) (enter leave : α → σ → σ) (fuel : Nat)
    (ws : List α) (st : Finset α × σ) : Option (Finset α × σ) :=
  ws.foldlM (fun st w => if w ∈ st.1 then some st else visit nbrs enter leave fuel w st) st

variable {nbrs : α → List α} {enter leave : α → σ → σ}

theorem visit_succ (fuel : Nat) (v : α) (st : Finset α × σ) :
    visit nbrs enter leave (fuel + 1) v st =
      (visitAll nbrs enter leave fuel (nbrs v) (insert v st.1, enter v st.2)).bind
        fun st => some (st.1, leave v st.2) := rfl

@[simp] theorem visitAll_nil (fuel : Nat) (st : Finset α × σ) :
    visitAll nbrs enter leave fuel [] st = some st := rfl

theorem visitAll_cons (fuel : Nat) (w : α) (ws : List α) (st : Finset α × σ) :
    visitAll nbrs enter leave fuel (w :: ws) st =
      (if w ∈ st.1 then some st else visit nbrs enter leave fuel w st).bind
        (visitAll nbrs enter leave fuel ws) := rfl

/-- Marked nodes are passed over. -/
theorem visitAll_skip {fuel : Nat} {ws vs : List α} {st : Finset α × σ} (h : ∀ w ∈ ws, w ∈ st.1) :
    visitAll nbrs enter leave fuel (ws ++ vs) st = visitAll nbrs enter leave fuel vs st := by
  induction ws with
  | nil => rfl
  | cons w ws ih =>
    rw [List.cons_append, visitAll_cons, if_pos (h w List.mem_cons_self), Option.bind_some]
    exact ih fun u hu => h u (List.mem_cons_of_mem _ hu)

/-! ## The rule for a completed search -/

/-- What a completed visit of nodes with the property `P` may be proved to
satisfy: a relation between the state before and after that is reflexive,
transitive and closed under one node whose neighbours have all been marked. -/
structure NodeRule (nbrs : α → List α) (enter leave : α → σ → σ) (P : α → Prop)
    (R : Finset α × σ → Finset α × σ → Prop) : Prop where
  next : ∀ {v}, P v → ∀ w ∈ nbrs v, P w
  refl : ∀ st, R st st
  trans : ∀ {a b c}, a.1 ⊆ b.1 → b.1 ⊆ c.1 → R a b → R b c → R a c
  node : ∀ {v seen x st}, P v → v ∉ seen → insert v seen ⊆ st.1 → (∀ w ∈ nbrs v, w ∈ st.1) →
    R (insert v seen, enter v x) st → R (seen, x) (st.1, leave v st.2)

section Rule
variable {P : α → Prop} {R : Finset α × σ → Finset α × σ → Prop}
  (rule : NodeRule nbrs enter leave P R)
include rule

theorem visitAll_rule_of {fuel : Nat}
    (ih : ∀ {v st st'}, P v → v ∉ st.1 → visit nbrs enter leave fuel v st = some st' →
      R st st' ∧ st.1 ⊆ st'.1 ∧ v ∈ st'.1)
    {ws : List α} (hP : ∀ w ∈ ws, P w) {st st' : Finset α × σ}
    (h : visitAll nbrs enter leave fuel ws st = some st') :
    R st st' ∧ st.1 ⊆ st'.1 ∧ ∀ w ∈ ws, w ∈ st'.1 := by
  induction ws generalizing st with
  | nil =>
    obtain rfl : st = st' := by simpa using h
    exact ⟨rule.refl _, Finset.Subset.refl _, by simp⟩
  | cons w ws ihw =>
    rw [visitAll_cons] at h
    obtain ⟨mid, hmid, hrest⟩ := Option.bind_eq_some_iff.mp h
    have hfirst : R st mid ∧ st.1 ⊆ mid.1 ∧ w ∈ mid.1 := by
      split at hmid
      · rename_i hw
        obtain rfl := Option.some.inj hmid
        exact ⟨rule.refl _, Finset.Subset.refl _, hw⟩
      · rename_i hw
        exact ih (hP w List.mem_cons_self) hw hmid
    obtain ⟨hR, hsub, hw⟩ := hfirst
    obtain ⟨hR', hsub', hws⟩ := ihw (fun u hu => hP u (List.mem_cons_of_mem w hu)) hrest
    refine ⟨rule.trans hsub hsub' hR hR', hsub.trans hsub', ?_⟩
    intro u hu
    rcases List.mem_cons.mp hu with rfl | hu
    · exact hsub' hw
    · exact hws u hu

/-- A completed visit satisfies every relation with a `NodeRule`, keeps the marks
and marks its node. -/
theorem visit_rule {fuel : Nat} {v : α} {st st' : Finset α × σ} (hPv : P v) (hv : v ∉ st.1)
    (h : visit nbrs enter leave fuel v st = some st') :
    R st st' ∧ st.1 ⊆ st'.1 ∧ v ∈ st'.1 := by
  induction fuel generalizing v st st' with
  | zero => cases h
  | succ fuel ih =>
    rw [visit_succ] at h
    obtain ⟨mid, hmid, hleave⟩ := Option.bind_eq_some_iff.mp h
    obtain rfl := Option.some.inj hleave
    obtain ⟨hR, hsub, hws⟩ := visitAll_rule_of rule ih (rule.next hPv) hmid
    exact ⟨rule.node hPv hv hsub hws hR, (Finset.subset_insert v st.1).trans hsub,
      hsub (Finset.mem_insert_self v st.1)⟩

theorem visitAll_rule {fuel : Nat} {ws : List α} (hP : ∀ w ∈ ws, P w) {st st' : Finset α × σ}
    (h : visitAll nbrs enter leave fuel ws st = some st') :
    R st st' ∧ st.1 ⊆ st'.1 ∧ ∀ w ∈ ws, w ∈ st'.1 :=
  visitAll_rule_of rule (visit_rule rule) hP h

end Rule

/-! ## Marks: closure and totality -/

/-- Every node marked between the two states has all its neighbours marked after. -/
def ClosedNew (nbrs : α → List α) (a b : Finset α × σ) : Prop :=
  ∀ u ∈ b.1, u ∉ a.1 → ∀ w ∈ nbrs u, w ∈ b.1

theorem closedNew_rule :
    NodeRule nbrs enter leave (fun _ => True) (fun a b : Finset α × σ => ClosedNew nbrs a b) where
  next _ _ _ := trivial
  refl _ u hu hn := absurd hu hn
  trans := by
    intro a b c hab hbc h1 h2 u hu hn w hw
    by_cases hub : u ∈ b.1
    · exact hbc (h1 u hub hn w hw)
    · exact h2 u hu hub w hw
  node := by
    intro v seen x st _ hv hsub hws h u hu hn w hw
    by_cases huv : u = v
    · exact hws w (huv ▸ hw)
    · exact h u hu (by simp [huv, hn]) w hw

/-- Only nodes with the property are marked. -/
theorem subset_rule {U : Finset α} (hU : ∀ u ∈ U, ∀ w ∈ nbrs u, w ∈ U) :
    NodeRule nbrs enter leave (· ∈ U) (fun a b : Finset α × σ => a.1 ⊆ U → b.1 ⊆ U) where
  next := hU _
  refl _ := id
  trans _ _ h1 h2 := h2 ∘ h1
  node := by
    intro v seen x st hv _ _ _ h hseen
    exact h (Finset.insert_subset hv hseen)

/-- With fuel for every unmarked node of a set closed under neighbours, a visit completes. -/
theorem visit_isSome (enter leave : α → σ → σ) {U : Finset α} (hU : ∀ u ∈ U, ∀ w ∈ nbrs u, w ∈ U) {fuel : Nat} {v : α}
    {st : Finset α × σ} (hvU : v ∈ U) (hv : v ∉ st.1) (hfuel : (U \ st.1).card ≤ fuel) :
    ∃ st', visit nbrs enter leave fuel v st = some st' := by
  induction fuel generalizing v st with
  | zero =>
    have hempty : U \ st.1 = ∅ := Finset.card_eq_zero.mp (Nat.le_zero.mp hfuel)
    have : v ∈ U \ st.1 := Finset.mem_sdiff.mpr ⟨hvU, hv⟩
    simp [hempty] at this
  | succ fuel ih =>
    have hdrop : (U \ insert v st.1).card ≤ fuel := by
      have hlt : (U \ insert v st.1).card < (U \ st.1).card := by
        apply Finset.card_lt_card
        refine ⟨Finset.sdiff_subset_sdiff (Finset.Subset.refl U) (Finset.subset_insert v st.1), ?_⟩
        intro hsub
        have := hsub (Finset.mem_sdiff.mpr ⟨hvU, hv⟩)
        simp at this
      omega
    have hall : ∀ (ws : List α) (st : Finset α × σ), (∀ w ∈ ws, w ∈ U) →
        (U \ st.1).card ≤ fuel → ∃ st', visitAll nbrs enter leave fuel ws st = some st' := by
      intro ws
      induction ws with
      | nil => intro st _ _; exact ⟨st, rfl⟩
      | cons w ws ihw =>
        intro st hws hcard
        rw [visitAll_cons]
        by_cases hw : w ∈ st.1
        · rw [if_pos hw]
          exact ihw st (fun u hu => hws u (List.mem_cons_of_mem w hu)) hcard
        · obtain ⟨mid, hmid⟩ := ih (hws w List.mem_cons_self) hw hcard
          rw [if_neg hw, hmid]
          have hsub := (visit_rule closedNew_rule trivial hw hmid).2.1
          refine ihw mid (fun u hu => hws u (List.mem_cons_of_mem w hu)) ?_
          exact (Finset.card_le_card
            (Finset.sdiff_subset_sdiff (Finset.Subset.refl U) hsub)).trans hcard
    obtain ⟨mid, hmid⟩ := hall (nbrs v) (insert v st.1, enter v st.2) (hU v hvU) hdrop
    exact ⟨(mid.1, leave v mid.2), by rw [visit_succ, hmid]; rfl⟩

theorem visitAll_isSome (enter leave : α → σ → σ) {U : Finset α} (hU : ∀ u ∈ U, ∀ w ∈ nbrs u, w ∈ U) {fuel : Nat}
    {ws : List α} (hws : ∀ w ∈ ws, w ∈ U) {st : Finset α × σ} (hfuel : (U \ st.1).card ≤ fuel) :
    ∃ st', visitAll nbrs enter leave fuel ws st = some st' := by
  induction ws generalizing st with
  | nil => exact ⟨st, rfl⟩
  | cons w ws ih =>
    have hws' : ∀ u ∈ ws, u ∈ U := fun u hu => hws u (List.mem_cons_of_mem w hu)
    rw [visitAll_cons]
    by_cases hw : w ∈ st.1
    · rw [if_pos hw]
      exact ih hws' hfuel
    · obtain ⟨mid, hmid⟩ := visit_isSome enter leave hU
        (hws w List.mem_cons_self) hw hfuel
      rw [if_neg hw, hmid]
      have hsub := (visit_rule closedNew_rule trivial hw hmid).2.1
      exact ih hws' ((Finset.card_le_card
        (Finset.sdiff_subset_sdiff (Finset.Subset.refl U) hsub)).trans hfuel)

/-! ## More fuel -/

theorem visitAll_mono_of {fuel more : Nat}
    (ih : ∀ {v st st'}, visit nbrs enter leave fuel v st = some st' →
      visit nbrs enter leave more v st = some st') {ws : List α} {st st' : Finset α × σ}
    (h : visitAll nbrs enter leave fuel ws st = some st') :
    visitAll nbrs enter leave more ws st = some st' := by
  induction ws generalizing st with
  | nil => exact h
  | cons w ws ihw =>
    rw [visitAll_cons] at h ⊢
    obtain ⟨mid, hmid, hrest⟩ := Option.bind_eq_some_iff.mp h
    refine Option.bind_eq_some_iff.mpr ⟨mid, ?_, ihw hrest⟩
    split at hmid
    · rename_i hw
      rw [if_pos hw]
      exact hmid
    · rename_i hw
      rw [if_neg hw]
      exact ih hmid

/-- A visit that completes does not depend on its fuel. -/
theorem visit_mono {fuel more : Nat} (hmore : fuel ≤ more) {v : α} {st st' : Finset α × σ}
    (h : visit nbrs enter leave fuel v st = some st') :
    visit nbrs enter leave more v st = some st' := by
  induction fuel generalizing more v st st' with
  | zero => cases h
  | succ fuel ih =>
    obtain ⟨more, rfl⟩ := Nat.exists_eq_add_of_le' (Nat.le_of_add_left_le hmore)
    rw [visit_succ] at h ⊢
    obtain ⟨mid, hmid, hleave⟩ := Option.bind_eq_some_iff.mp h
    have hless : fuel ≤ more := Nat.le_of_succ_le_succ hmore
    exact Option.bind_eq_some_iff.mpr ⟨mid, visitAll_mono_of (ih hless) hmid, hleave⟩

theorem visitAll_mono {fuel more : Nat} (hmore : fuel ≤ more) {ws : List α}
    {st st' : Finset α × σ} (h : visitAll nbrs enter leave fuel ws st = some st') :
    visitAll nbrs enter leave more ws st = some st' :=
  visitAll_mono_of (visit_mono hmore) h

end Lockout.Lib.DepthFirst
