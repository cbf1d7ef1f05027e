import Mathlib.Data.List.Nodup
import Lockout.Strator.State

/-! # Resolving an operand

The loop of `getDefOperand` ends within its bound, and where the bindings and casts
lead to a value with nothing more to follow (`Chain`), that is the value it returns; so
they do where they form no cycle (`getDefOperand_ends`). -/

namespace Lockout.Strator.Resolution
open Lockout.Strator.Program Lockout.Strator.State

/-- What comes after `v` when nothing has been visited. -/
def nextOperand (bindings : FlowSensitiveValue) (v : Value) : Value :=
  (bindings.lookup v).getD (castOperand v)

/-- From `v` the bindings and casts lead in `n` steps to `a`, where they end. -/
inductive Chain (bindings : FlowSensitiveValue) : Nat → Value → Value → Prop
  | stop {a} : bindings.lookup a = none → castOperand a = a → Chain bindings 0 a a
  | follow {n v a} : nextOperand bindings v ≠ v → Chain bindings n (nextOperand bindings v) a →
      Chain bindings (n + 1) v a

/-- Casts and bindings lead from the values of `S` to values of `S` only. -/
structure Encloses (bindings : FlowSensitiveValue) (S : Value → Prop) : Prop where
  cast : ∀ {v}, S v → S (castOperand v)
  binding : ∀ {v p}, S v → bindings.lookup v = some p → S p

section Loop
variable {bindings bindings' : FlowSensitiveValue} {S : Value → Prop} {opts : Options} {operand u v a r : Value}
  {visited visited' : List Value} {n k : Nat}

theorem self_mem_castChain (v : Value) : v ∈ castChain v := by
  cases v <;> exact List.mem_cons_self

theorem castOperand_mem_castChain (h : u ∈ castChain v) : castOperand u ∈ castChain v := by
  induction v with
  | constCast ty operand ih =>
    rcases List.mem_cons.mp h with rfl | h
    · exact List.mem_cons_of_mem _ (self_mem_castChain operand)
    · exact List.mem_cons_of_mem _ (ih h)
  | _ =>
    rw [List.mem_singleton.mp h]
    exact List.mem_cons_self

theorem followOperand_mem (hv : v ∈ defOperands bindings operand) :
    followOperand bindings visited v ∈ defOperands bindings operand := by
  have hcast : castOperand v ∈ defOperands bindings operand := by
    rcases List.mem_append.mp hv with hv | hv
    · exact List.mem_append_left _ (castOperand_mem_castChain hv)
    · obtain ⟨e, he, hv⟩ := List.mem_flatMap.mp hv
      exact List.mem_append_right _ (List.mem_flatMap.mpr ⟨e, he, castOperand_mem_castChain hv⟩)
  unfold followOperand
  split
  · rename_i p hp
    split
    · exact hcast
    · refine List.mem_append_right _ (List.mem_flatMap.mpr ⟨⟨v, p⟩, ?_, self_mem_castChain p⟩)
      exact AList.mem_lookup_iff.mp hp
  · exact hcast

/-- The loop visits no value twice, and there are no more than `defOperands`. -/
theorem defOperandLoop_isSome (hnodup : visited.Nodup)
    (hvisited : visited ⊆ defOperands bindings operand) (hv : v ∈ defOperands bindings operand)
    (hn : (defOperands bindings operand).length + 1 ≤ n + visited.length) :
    (defOperandLoop bindings n visited v).isSome := by
  induction n generalizing visited v with
  | zero =>
    have hlength := (List.subperm_of_subset hnodup hvisited).length_le
    omega
  | succ n ih =>
    unfold defOperandLoop
    split
    · rfl
    · rename_i hnew
      refine ih (List.nodup_cons.mpr ⟨hnew, hnodup⟩) (List.cons_subset.mpr ⟨hv, hvisited⟩)
        (followOperand_mem hv) ?_
      rw [List.length_cons]
      omega

/-- The loop ends. -/
theorem defOperandLoop_ends (bindings : FlowSensitiveValue) (operand : Value) :
    ∃ r, defOperandLoop bindings ((defOperands bindings operand).length + 1) [] operand =
      some r := by
  have hself : operand ∈ defOperands bindings operand :=
    List.mem_append_left _ (self_mem_castChain operand)
  exact Option.isSome_iff_exists.mp
    (defOperandLoop_isSome List.nodup_nil (List.nil_subset _) hself (Nat.le_refl _))

theorem getDefOperand_loop (hopts : opts.useParentValue = true) :
    defOperandLoop bindings ((defOperands bindings operand).length + 1) [] operand =
      some (getDefOperand opts bindings operand) := by
  obtain ⟨r, hr⟩ := defOperandLoop_ends bindings operand
  rw [getDefOperand, if_pos hopts, hr]
  rfl

theorem nextOperand_of_stop (h : bindings.lookup a = none) (hcast : castOperand a = a) :
    nextOperand bindings a = a := by
  rw [nextOperand, h]
  exact hcast

/-- A round that would not come to a visited value goes on as the first one would. -/
theorem followOperand_eq_next (h : nextOperand bindings v ∉ visited) :
    followOperand bindings visited v = nextOperand bindings v := by
  unfold followOperand nextOperand at *
  cases hp : bindings.lookup v with
  | none => rfl
  | some p =>
    rw [hp] at h
    exact if_neg h

/-- A value has one chain. -/
theorem Chain.unique {a' : Value} (h : Chain bindings n v a) (h' : Chain bindings k v a') :
    n = k ∧ a = a' := by
  induction h generalizing k with
  | stop hlookup hcast =>
    cases h' with
    | stop => exact ⟨rfl, rfl⟩
    | follow hne => exact absurd (nextOperand_of_stop hlookup hcast) hne
  | follow hne _ ih =>
    cases h' with
    | stop hlookup hcast => exact absurd (nextOperand_of_stop hlookup hcast) hne
    | follow _ h' =>
      obtain ⟨rfl, rfl⟩ := ih h'
      exact ⟨rfl, rfl⟩

/-- A value no further than `n` steps from the end is not among values that are. -/
theorem Chain.notMem {i : Nat} (hu : Chain bindings i u a) (hi : i ≤ n)
    (hvisited : ∀ u ∈ visited, ∃ j, n < j ∧ Chain bindings j u a) : u ∉ visited := by
  intro hmem
  obtain ⟨j, hj, hchain⟩ := hvisited u hmem
  have heq := (hu.unique hchain).1
  omega

/-- The loop follows the chain: what it has visited lies further from the end. -/
theorem defOperandLoop_of_chain (h : Chain bindings n v a)
    (hvisited : ∀ u ∈ visited, ∃ j, n < j ∧ Chain bindings j u a)
    (hloop : defOperandLoop bindings k visited v = some r) : r = a := by
  induction h generalizing visited k with
  | @stop a hlookup hcast =>
    have hnew : a ∉ visited := Chain.notMem (.stop hlookup hcast) (Nat.le_refl _) hvisited
    have hfollow : followOperand bindings (a :: visited) a = a := by
      rw [followOperand, hlookup]
      exact hcast
    cases k with
    | zero => cases hloop
    | succ k =>
      rw [defOperandLoop, if_neg hnew, hfollow] at hloop
      cases k with
      | zero => cases hloop
      | succ k =>
        rw [defOperandLoop, if_pos List.mem_cons_self] at hloop
        exact (Option.some.inj hloop).symm
  | @follow n v a hne hchain ih =>
    have hnew : v ∉ visited := Chain.notMem (.follow hne hchain) (Nat.le_refl _) hvisited
    have hfurther : ∀ u ∈ v :: visited, ∃ j, n < j ∧ Chain bindings j u a := by
      intro u hu
      rcases List.mem_cons.mp hu with rfl | hu
      · exact ⟨n + 1, Nat.lt_succ_self n, .follow hne hchain⟩
      · obtain ⟨j, hj, hu⟩ := hvisited u hu
        exact ⟨j, by omega, hu⟩
    have hfollow : followOperand bindings (v :: visited) v = nextOperand bindings v :=
      followOperand_eq_next (hchain.notMem (Nat.le_refl _) hfurther)
    cases k with
    | zero => cases hloop
    | succ k =>
      rw [defOperandLoop, if_neg hnew, hfollow] at hloop
      exact ih hfurther hloop

/-- An operand resolves to the end of its chain. -/
theorem getDefOperand_of_chain (hopts : opts.useParentValue = true) (h : Chain bindings n v a) :
    getDefOperand opts bindings v = a :=
  defOperandLoop_of_chain h (fun u hu => by cases hu) (getDefOperand_loop hopts)

/-- One round of the loop, where it comes to a new value. -/
theorem defOperandLoop_follow (hv : v ∉ visited) (h : bindings.lookup v = some u)
    (hu : u ∉ v :: visited) (hloop : defOperandLoop bindings n visited v = some r) :
    ∃ k, defOperandLoop bindings k (v :: visited) u = some r := by
  cases n with
  | zero => cases hloop
  | succ n =>
    have hfollow : followOperand bindings (v :: visited) v = u := by
      rw [followOperand, h]
      exact if_neg hu
    rw [defOperandLoop, if_neg hv, hfollow] at hloop
    exact ⟨n, hloop⟩

/-- Within `S` the loop depends on nothing outside of it. -/
theorem defOperandLoop_agree {r' : Value} (hS : Encloses bindings S)
    (hsame : ∀ v, S v → bindings'.lookup v = bindings.lookup v) (hv : S v)
    (hvisited : ∀ u, S u → (u ∈ visited' ↔ u ∈ visited))
    (h : defOperandLoop bindings n visited v = some r)
    (h' : defOperandLoop bindings' k visited' v = some r') : r = r' := by
  induction n generalizing k visited visited' v with
  | zero => cases h
  | succ n ih =>
    cases k with
    | zero => cases h'
    | succ k =>
      unfold defOperandLoop at h h'
      by_cases hold : v ∈ visited
      · rw [if_pos hold] at h
        rw [if_pos ((hvisited v hv).mpr hold)] at h'
        exact Option.some.inj (h.symm.trans h')
      · rw [if_neg hold] at h
        rw [if_neg fun hmem => hold ((hvisited v hv).mp hmem)] at h'
        have hvisited' : ∀ u, S u → (u ∈ v :: visited' ↔ u ∈ v :: visited) := fun u hu => by
          rw [List.mem_cons, List.mem_cons, hvisited u hu]
        have hfollow : followOperand bindings' (v :: visited') v =
            followOperand bindings (v :: visited) v ∧
            S (followOperand bindings (v :: visited) v) := by
          unfold followOperand
          rw [hsame v hv]
          cases hp : bindings.lookup v with
          | none => exact ⟨rfl, hS.cast hv⟩
          | some p =>
            have hpS : S p := hS.binding hv hp
            dsimp only
            by_cases hmem : p ∈ v :: visited
            · rw [if_pos hmem, if_pos ((hvisited' p hpS).mpr hmem)]
              exact ⟨rfl, hS.cast hv⟩
            · rw [if_neg hmem, if_neg fun h => hmem ((hvisited' p hpS).mp h)]
              exact ⟨rfl, hpS⟩
        rw [hfollow.1] at h'
        exact ih hfollow.2 hvisited' h h'

/-- Bindings that agree on all that `v` leads to resolve it alike. -/
theorem getDefOperand_agree (hS : Encloses bindings S)
    (hsame : ∀ v, S v → bindings'.lookup v = bindings.lookup v) (hv : S v) :
    getDefOperand opts bindings v = getDefOperand opts bindings' v := by
  by_cases hopts : opts.useParentValue = true
  · exact defOperandLoop_agree hS hsame hv (fun _ _ => Iff.rfl) (getDefOperand_loop hopts)
      (getDefOperand_loop hopts)
  · unfold getDefOperand
    rw [if_neg hopts, if_neg hopts]

end Loop

/-! ## Links without cycles -/

/-- A link of the chain of a value: to its parent, or to the operand of a constant cast
without a parent. -/
inductive Link (bindings : FlowSensitiveValue) : Value → Value → Prop
  | parent {v p} : bindings.lookup v = some p → Link bindings v p
  | cast {ty operand} : bindings.lookup (.constCast ty operand) = none →
      Link bindings (.constCast ty operand) operand

/-- A value without a parent that is no constant cast. -/
structure IsEnd (bindings : FlowSensitiveValue) (a : Value) : Prop where
  noParent : bindings.lookup a = none
  noCast : ∀ ty operand, a ≠ .constCast ty operand

/-- The links lead to `v` from `operand`. -/
def Follows (bindings : FlowSensitiveValue) : Value → Value → Prop :=
  Relation.ReflTransGen (Link bindings)

/-- The links from `operand` on form no cycle. -/
def CycleFree (bindings : FlowSensitiveValue) (operand : Value) : Prop :=
  ∀ v, Follows bindings operand v → ¬ Relation.TransGen (Link bindings) v v

section Links
variable {bindings : FlowSensitiveValue} {opts : Options} {operand operand' u v a r : Value}
  {visited : List Value} {n k : Nat}

theorem Link.next (h : Link bindings v u) : nextOperand bindings v = u := by
  cases h with
  | parent hp => rw [nextOperand, hp, Option.getD_some]
  | cast hnone => rw [nextOperand, hnone, Option.getD_none, castOperand]

theorem isEnd_or_link (bindings : FlowSensitiveValue) (v : Value) :
    IsEnd bindings v ∨ Link bindings v (nextOperand bindings v) := by
  cases hp : bindings.lookup v with
  | some p =>
    have hlink : Link bindings v p := .parent hp
    rw [hlink.next]
    exact .inr hlink
  | none =>
    cases v with
    | constCast ty operand =>
      have hlink : Link bindings (.constCast ty operand) operand := .cast hp
      rw [hlink.next]
      exact .inr hlink
    | _ => exact .inl ⟨hp, nofun⟩

theorem IsEnd.castOperand (h : IsEnd bindings a) : castOperand a = a := by
  cases a with
  | constCast ty operand => exact absurd rfl (h.noCast ty operand)
  | _ => rfl

theorem IsEnd.not_link (h : IsEnd bindings a) : ¬ Link bindings a u := by
  rintro (hp | hnone)
  · cases h.noParent.symm.trans hp
  · exact h.noCast _ _ rfl

theorem IsEnd.chain (h : IsEnd bindings a) : Chain bindings 0 a a := .stop h.noParent h.castOperand

theorem Chain.isEnd (h : Chain bindings n v a) : IsEnd bindings a := by
  induction h with
  | @stop a hlookup hcast =>
    refine ⟨hlookup, ?_⟩
    rintro ty operand rfl
    exact absurd (congrArg SizeOf.sizeOf hcast) (by simp [State.castOperand])
  | follow _ _ ih => exact ih

theorem Chain.follows (h : Chain bindings n v a) : Follows bindings v a := by
  induction h with
  | stop => exact .refl
  | @follow n v a hne _ ih =>
    rcases isEnd_or_link bindings v with hend | hlink
    · exact absurd (nextOperand_of_stop hend.noParent hend.castOperand) hne
    · exact .head hlink ih

/-- Links that lead to an end are a chain. -/
theorem Follows.chain (h : Follows bindings v a) (hend : IsEnd bindings a) :
    ∃ k, Chain bindings k v a := by
  induction h using Relation.ReflTransGen.head_induction_on with
  | refl => exact ⟨0, hend.chain⟩
  | @head v u hlink _ ih =>
    obtain ⟨k, hchain⟩ := ih
    have hnext := hlink.next
    by_cases hself : nextOperand bindings v = v
    · rw [hself] at hnext
      exact ⟨k, hnext ▸ hchain⟩
    · exact ⟨k + 1, .follow hself (hnext ▸ hchain)⟩

/-- What lies on a chain has the same end. -/
theorem Chain.of_follows (h : Chain bindings n v a) (hu : Follows bindings v u) :
    Follows bindings u a := by
  induction hu with
  | refl => exact h.follows
  | @tail u w _ hlink ih =>
    rcases ih.cases_head with rfl | ⟨w', hlink', hrest⟩
    · exact absurd hlink h.isEnd.not_link
    · obtain rfl : w = w' := hlink.next.symm.trans hlink'.next
      exact hrest

/-- Without cycles the loop comes to the end of the chain: all that it has visited leads
to the value it is at. -/
theorem chain_of_loop (hcycle : CycleFree bindings v)
    (hvisited : ∀ u ∈ visited, Relation.TransGen (Link bindings) u v)
    (hloop : defOperandLoop bindings n visited v = some r) : ∃ k, Chain bindings k v r := by
  induction n generalizing visited v with
  | zero => cases hloop
  | succ n ih =>
    have hnew : v ∉ visited := fun hmem => hcycle v .refl (hvisited v hmem)
    rw [defOperandLoop, if_neg hnew] at hloop
    rcases isEnd_or_link bindings v with hend | hlink
    · have hfollow : followOperand bindings (v :: visited) v = v := by
        rw [followOperand, hend.noParent]
        exact hend.castOperand
      rw [hfollow] at hloop
      cases n with
      | zero => cases hloop
      | succ n =>
        rw [defOperandLoop, if_pos List.mem_cons_self] at hloop
        obtain rfl := Option.some.inj hloop
        exact ⟨0, hend.chain⟩
    · have hne : nextOperand bindings v ≠ v := by
        intro heq
        rw [heq] at hlink
        exact hcycle v .refl (.single hlink)
      have hnext : nextOperand bindings v ∉ v :: visited := by
        intro hmem
        rcases List.mem_cons.mp hmem with heq | hmem
        · exact hne heq
        · exact hcycle v .refl (.head hlink (hvisited _ hmem))
      rw [followOperand_eq_next hnext] at hloop
      obtain ⟨k, hchain⟩ := ih (fun u hu => hcycle u (.head hlink hu)) (fun u hu => by
        rcases List.mem_cons.mp hu with rfl | hu
        · exact .single hlink
        · exact (hvisited u hu).tail hlink) hloop
      exact ⟨k + 1, .follow hne hchain⟩

theorem defOperandLoop_mono (hk : n ≤ k) (h : defOperandLoop bindings n visited v = some r) :
    defOperandLoop bindings k visited v = some r := by
  induction n generalizing k visited v with
  | zero => cases h
  | succ n ih =>
    obtain ⟨k, rfl⟩ := Nat.exists_eq_add_of_le' (Nat.le_of_add_left_le hk)
    unfold defOperandLoop at h ⊢
    by_cases hold : v ∈ visited
    · rw [if_pos hold] at h ⊢
      exact h
    · rw [if_neg hold] at h ⊢
      exact ih (Nat.le_of_succ_le_succ hk) h

end Links

/-- The loop of `getDefOperand` ends on all bindings. Where the links from the operand form
no cycle it ends with the one end of its chain: resolving that again changes nothing, and
every operand whose chain meets this one resolves to it. -/
theorem getDefOperand_ends (bindings : FlowSensitiveValue) (operand : Value) : ∃ r,
    (∀ n, (defOperands bindings operand).length + 1 ≤ n →
      defOperandLoop bindings n [] operand = some r) ∧
    (∀ opts : Options, getDefOperand opts bindings operand =
      if opts.useParentValue then r else operand) ∧
    (CycleFree bindings operand →
      (Follows bindings operand r ∧ IsEnd bindings r ∧
        ∀ a, Follows bindings operand a → IsEnd bindings a → a = r) ∧
      (∀ opts, getDefOperand opts bindings (getDefOperand opts bindings operand) =
        getDefOperand opts bindings operand) ∧
      ∀ opts operand' v, opts.useParentValue = true → Follows bindings operand v →
        Follows bindings operand' v →
        getDefOperand opts bindings operand' = getDefOperand opts bindings operand) := by
  obtain ⟨r, hr⟩ := defOperandLoop_ends bindings operand
  refine ⟨r, fun n hn => defOperandLoop_mono hn hr, fun opts => ?_, fun hcycle => ?_⟩
  · rw [getDefOperand, hr]
    rfl
  · obtain ⟨k, hchain⟩ := chain_of_loop hcycle (by simp) hr
    have hresolves : ∀ {opts : Options} {operand'}, opts.useParentValue = true →
        Follows bindings operand' r → getDefOperand opts bindings operand' = r := by
      intro opts operand' hopts hfollows
      obtain ⟨j, hchain'⟩ := hfollows.chain hchain.isEnd
      exact getDefOperand_of_chain hopts hchain'
    refine ⟨⟨hchain.follows, hchain.isEnd, fun a ha hend => ?_⟩, fun opts => ?_, ?_⟩
    · obtain ⟨j, hchain'⟩ := ha.chain hend
      exact (hchain'.unique hchain).2
    · by_cases hopts : opts.useParentValue = true
      · rw [hresolves hopts hchain.follows, hresolves hopts .refl]
      · have hoff : ∀ v, getDefOperand opts bindings v = v := fun v => if_neg hopts
        rw [hoff, hoff]
    · intro opts operand' v hopts hv hv'
      rw [hresolves hopts hchain.follows, hresolves hopts (hv'.trans (hchain.of_follows hv))]

/-- An argument bound to a cast of a cast instruction, which is bound in turn. -/
example : getDefOperand {} (((∅ : FlowSensitiveValue).insert
    (.inst ⟨"main", 0, 0⟩) (.global "g")).insert
    (.argument "f" 0) (.constCast "i8*" (.inst ⟨"main", 0, 0⟩))) (.argument "f" 0) =
      .global "g" := by decide

end Lockout.Strator.Resolution
