import Mathlib.Data.Finset.Card
import Mathlib.Data.List.Chain
import Mathlib.Data.List.Nodup

/-! # The walks of a breadth-first search

A breadth-first search that has met no node twice has found one walk to each of its
nodes, in a fixed order: shorter walks first, walks of one length by the neighbours at
which they part (`Before`). `Found` is the invariant of such a search; the node it
meets again ends the first walk to a node that an earlier walk has come to
(`FirstMeeting`), and a search that ends has met none. Walks have their last node
first, so the tail of a walk is what the parents of its last node spell. -/

namespace Lockout.Lib.BreadthFirst

variable {α : Type}

/-- A walk from `s`, its last node first. -/
inductive Walk (nbrs : α → List α) (s : α) : List α → Prop
  | start : Walk nbrs s [s]
  | step {v u p} : Walk nbrs s (u :: p) → v ∈ nbrs u → Walk nbrs s (v :: u :: p)

/-- The order in which a breadth-first search comes to walks. -/
inductive Before (nbrs : α → List α) : List α → List α → Prop
  | shorter {p q} : p.length < q.length → Before nbrs p q
  | earlier {u v p q} : p.length = q.length → Before nbrs p q → Before nbrs (u :: p) (v :: q)
  | sibling {u v w p skipped between others} :
      nbrs w = skipped ++ u :: (between ++ v :: others) → Before nbrs (u :: w :: p) (v :: w :: p)

/-- The walk ends where an earlier walk has ended. -/
def Meets (nbrs : α → List α) (s : α) (p : List α) : Prop :=
  ∃ q, Walk nbrs s q ∧ Before nbrs q p ∧ q.head? = p.head?

/-- The first walk that ends where an earlier walk has ended. -/
structure FirstMeeting (nbrs : α → List α) (s : α) (p : List α) : Prop where
  walk : Walk nbrs s p
  meets : Meets nbrs s p
  first : ∀ q, Walk nbrs s q → Before nbrs q p → ¬ Meets nbrs s q

section Order
variable {nbrs : α → List α} {s u v : α} {p q : List α}

theorem Walk.ne_nil (h : Walk nbrs s p) : p ≠ [] := by
  cases h <;> nofun

theorem Walk.length_pos (h : Walk nbrs s p) : 0 < p.length :=
  List.length_pos_iff.mpr h.ne_nil

theorem Before.length_le (h : Before nbrs p q) : p.length ≤ q.length := by
  cases h with
  | shorter h => exact h.le
  | earlier h => exact Nat.succ_le_succ h.le
  | sibling => exact le_rfl

/-- One more node keeps the order. -/
theorem Before.cons (h : Before nbrs p q) : Before nbrs (u :: p) (v :: q) := by
  rcases h.length_le.lt_or_eq with hlt | heq
  · exact .shorter (Nat.succ_lt_succ hlt)
  · exact .earlier heq h

/-- Of two neighbours one is listed before the other. -/
theorem before_or_before_of_mem {w : α} (hu : u ∈ nbrs w) (hv : v ∈ nbrs w) (hne : u ≠ v) :
    Before nbrs (u :: w :: p) (v :: w :: p) ∨ Before nbrs (v :: w :: p) (u :: w :: p) := by
  obtain ⟨skipped, others, hsplit⟩ := List.append_of_mem hu
  rw [hsplit] at hv
  rcases List.mem_append.mp hv with hv | hv
  · obtain ⟨front, between, rfl⟩ := List.append_of_mem hv
    exact .inr (.sibling (hsplit.trans (List.append_assoc front (v :: between) _)))
  · obtain ⟨between, back, rfl⟩ := List.append_of_mem ((List.mem_cons.mp hv).resolve_left hne.symm)
    exact .inl (.sibling hsplit)

theorem before_total (hp : Walk nbrs s p) (hq : Walk nbrs s q) :
    Before nbrs p q ∨ p = q ∨ Before nbrs q p := by
  induction hp generalizing q with
  | start =>
    cases hq with
    | start => exact .inr (.inl rfl)
    | step => exact .inl (.shorter (by simp))
  | @step v u p _ hv ih =>
    cases hq with
    | start => exact .inr (.inr (.shorter (by simp)))
    | @step v' u' q hq hv' =>
      rcases ih hq with hbefore | heq | hbefore
      · exact .inl hbefore.cons
      · obtain ⟨rfl, rfl⟩ := List.cons.inj heq
        by_cases hne : v = v'
        · exact .inr (.inl (by rw [hne]))
        · exact (before_or_before_of_mem hv hv' hne).imp_right .inr
      · exact .inr (.inr hbefore.cons)

/-- There is one first meeting. -/
theorem FirstMeeting.unique (hp : FirstMeeting nbrs s p) (hq : FirstMeeting nbrs s q) : p = q := by
  rcases before_total hp.walk hq.walk with hbefore | heq | hbefore
  · exact absurd hp.meets (hq.first p hp.walk hbefore)
  · exact heq
  · exact absurd hq.meets (hp.first q hq.walk hbefore)

/-- A path is a walk from its first node. -/
theorem walk_of_isChain {path : List α}
    (h : List.IsChain (fun a b => b ∈ nbrs a) (s :: path)) : Walk nbrs s (s :: path).reverse := by
  induction path using List.reverseRecOn with
  | nil => exact .start
  | append_singleton path v ih =>
    rw [← List.cons_append] at h ⊢
    obtain ⟨hpath, -, hlast⟩ := List.isChain_append.mp h
    have hwalk := ih hpath
    rw [List.reverse_append]
    cases hrev : (s :: path).reverse with
    | nil => exact absurd hrev hwalk.ne_nil
    | cons u p =>
      rw [hrev] at hwalk
      have hu : (s :: path).getLast? = some u := by
        rw [← List.head?_reverse, hrev]
        rfl
      exact hwalk.step (hlast u hu v rfl)

/-- A walk backwards is a path. -/
theorem Walk.isChain (h : Walk nbrs s p) : List.IsChain (fun a b => a ∈ nbrs b) p := by
  induction h with
  | start => exact List.isChain_singleton _
  | step _ hv ih => exact ih.cons_cons hv

end Order

/-! ## A search that has met no node twice -/

/-- The walks `found` by a search that has followed all neighbours from the walks of
`done` and has come to the walks of `scanned` from the next one. -/
structure Found (nbrs : α → List α) (s : α) (done scanned found : List (List α)) : Prop where
  mem : ∀ q, q ∈ found ↔ q = [s] ∨ (∃ v u p, q = v :: u :: p ∧ u :: p ∈ done ∧ v ∈ nbrs u) ∨
    q ∈ scanned
  walk : ∀ q ∈ found, Walk nbrs s q
  sorted : found.Pairwise (Before nbrs)
  complete : ∀ earlier q later, found = earlier ++ q :: later →
    ∀ p, Walk nbrs s p → Before nbrs p q → p ∈ earlier
  apart : found.Pairwise fun p q => p.head? ≠ q.head?

section Searches
variable {nbrs : α → List α} {s u v : α} {p q : List α}
  {done queue found : List (List α)} {scanned rest : List α}

theorem found_new : Found nbrs s [] [] [[s]] where
  mem := by simp
  walk := by
    intro q hq
    rw [List.mem_singleton.mp hq]
    exact .start
  sorted := List.pairwise_singleton _ _
  complete := by
    intro earlier q later hsplit p hp hbefore
    obtain ⟨rfl, rfl, rfl⟩ : earlier = [] ∧ q = [s] ∧ later = [] := by
      cases earlier with
      | nil => simpa [eq_comm] using hsplit
      | cons => simp at hsplit
    cases hbefore with
    | shorter hlt => exact absurd hp.length_pos (by simpa using hlt)
    | earlier heq hbefore =>
      obtain rfl := List.length_eq_zero_iff.mp heq
      cases hbefore with
      | shorter hlt => cases hlt
  apart := List.pairwise_singleton _ _

/-- The walks found come before the one that is looked at. -/
theorem Found.before (h : Found nbrs s done (scanned.map (· :: u :: p)) (done ++ (u :: p) :: queue))
    (hnbrs : nbrs u = scanned ++ v :: rest) (hq : q ∈ done ++ (u :: p) :: queue) :
    Before nbrs q (v :: u :: p) := by
  rcases (h.mem q).mp hq with rfl | ⟨v', u', p', rfl, hdone, -⟩ | hscanned
  · exact .shorter (by simp)
  · have hsorted := (List.pairwise_append.mp h.sorted).2.2
    exact (hsorted _ hdone _ List.mem_cons_self).cons
  · obtain ⟨v', hv', rfl⟩ := List.mem_map.mp hscanned
    obtain ⟨skipped, between, rfl⟩ := List.append_of_mem hv'
    exact .sibling (hnbrs.trans (List.append_assoc skipped (v' :: between) _))

/-- Every walk before the one that is looked at has been found. -/
theorem Found.of_before
    (h : Found nbrs s done (scanned.map (· :: u :: p)) (done ++ (u :: p) :: queue))
    (hnodup : (nbrs u).Nodup) (hnbrs : nbrs u = scanned ++ v :: rest) (hq : Walk nbrs s q)
    (hbefore : Before nbrs q (v :: u :: p)) : q ∈ done ++ (u :: p) :: queue := by
  rw [h.mem]
  cases hq with
  | start => exact .inl rfl
  | @step v' u' p' hq hv' =>
    -- the walk without its last node comes before `u :: p`, or it is `u :: p`
    have hchild : Before nbrs (u' :: p') (u :: p) →
        ∃ a b r, v' :: u' :: p' = a :: b :: r ∧ b :: r ∈ done ∧ a ∈ nbrs b := fun hb =>
      ⟨v', u', p', rfl, h.complete done _ queue rfl _ hq hb, hv'⟩
    cases hbefore with
    | shorter hlt => exact .inr (.inl (hchild (.shorter (Nat.lt_of_succ_lt_succ hlt))))
    | earlier _ hb => exact .inr (.inl (hchild hb))
    | @sibling _ _ _ _ skipped between others hsplit =>
      refine .inr (.inr (List.mem_map.mpr ⟨v', ?_, rfl⟩))
      have hassoc : scanned ++ v :: rest = (skipped ++ v' :: between) ++ v :: others := by
        rw [← hnbrs, hsplit]
        simp
      rw [hnbrs] at hnodup
      have hv := (List.nodup_cons.mp (List.nodup_middle.mp hnodup)).1
      rw [List.mem_append, not_or] at hv
      have hscanned : scanned = skipped ++ v' :: between :=
        ((List.append_cons_inj_of_notMem hv.1 hv.2).mp hassoc).1
      rw [hscanned]
      simp

/-- The search goes on to a node it has not met. -/
theorem Found.add (h : Found nbrs s done (scanned.map (· :: u :: p)) (done ++ (u :: p) :: queue))
    (hnodup : (nbrs u).Nodup) (hnbrs : nbrs u = scanned ++ v :: rest)
    (hnew : ∀ q ∈ done ++ (u :: p) :: queue, q.head? ≠ some v) :
    Found nbrs s done ((scanned ++ [v]).map (· :: u :: p))
      (done ++ (u :: p) :: (queue ++ [v :: u :: p])) := by
  have hfound : done ++ (u :: p) :: (queue ++ [v :: u :: p]) =
      (done ++ (u :: p) :: queue) ++ [v :: u :: p] := by simp
  rw [hfound]
  refine ⟨fun q => ?_, ?_, ?_, ?_, ?_⟩
  · rw [List.mem_append, h.mem, List.map_append, List.mem_append]
    simp only [List.map_cons, List.map_nil, or_assoc]
  · intro q hq
    rcases List.mem_append.mp hq with hq | hq
    · exact h.walk q hq
    · rw [List.mem_singleton.mp hq]
      exact (h.walk (u :: p) (by simp)).step (by simp [hnbrs])
  · refine List.pairwise_append.mpr ⟨h.sorted, List.pairwise_singleton _ _, fun q hq r hr => ?_⟩
    rw [List.mem_singleton.mp hr]
    exact h.before hnbrs hq
  · intro earlier q later hsplit r hr hbefore
    rcases List.eq_nil_or_concat later with rfl | ⟨later, x, rfl⟩
    · obtain ⟨rfl, hq⟩ := List.append_inj' hsplit rfl
      obtain rfl := List.singleton_inj.mp hq
      exact h.of_before hnodup hnbrs hr hbefore
    · have hinit : (done ++ (u :: p) :: queue) ++ [v :: u :: p] = (earlier ++ q :: later) ++ [x] := by
        simpa using hsplit
      exact h.complete earlier q later (List.append_inj' hinit rfl).1 r hr hbefore
  · refine List.pairwise_append.mpr ⟨h.apart, List.pairwise_singleton _ _, fun q hq r hr => ?_⟩
    rw [List.mem_singleton.mp hr]
    exact hnew q hq

/-- All neighbours of a node have been followed. -/
theorem Found.finish
    (h : Found nbrs s done ((nbrs u).map (· :: u :: p)) (done ++ (u :: p) :: queue)) :
    Found nbrs s (done ++ [u :: p]) [] ((done ++ [u :: p]) ++ queue) where
  mem q := by
    rw [List.append_assoc, List.singleton_append, h.mem]
    constructor
    · intro hq
      rcases hq with hstart | ⟨v', u', p', rfl, hdone, hv⟩ | hscanned
      · exact .inl hstart
      · exact .inr (.inl ⟨v', u', p', rfl, List.mem_append_left _ hdone, hv⟩)
      · obtain ⟨v', hv, rfl⟩ := List.mem_map.mp hscanned
        exact .inr (.inl ⟨v', u, p, rfl, by simp, hv⟩)
    · intro hq
      rcases hq with hstart | ⟨v', u', p', rfl, hdone, hv⟩ | hscanned
      · exact .inl hstart
      · rcases List.mem_append.mp hdone with hdone | hlast
        · exact .inr (.inl ⟨v', u', p', rfl, hdone, hv⟩)
        · obtain ⟨rfl, rfl⟩ := List.cons.inj (List.mem_singleton.mp hlast)
          exact .inr (.inr (List.mem_map.mpr ⟨v', hv, rfl⟩))
      · cases hscanned
  walk := by simpa using h.walk
  sorted := by simpa using h.sorted
  complete := by simpa using h.complete
  apart := by simpa using h.apart

/-- Two walks that have been found end at different nodes. -/
theorem Found.not_meets {scanned : List (List α)} (h : Found nbrs s done scanned found)
    (hp : p ∈ found) : ¬ Meets nbrs s p := by
  intro hmeets
  obtain ⟨q, hq, hbefore, hend⟩ := hmeets
  obtain ⟨earlier, later, rfl⟩ := List.append_of_mem hp
  have hqmem := h.complete earlier p later rfl q hq hbefore
  exact (List.pairwise_append.mp h.apart).2.2 q hqmem p List.mem_cons_self hend

/-- The node that is met again ends the first walk to meet another. -/
theorem Found.firstMeeting
    (h : Found nbrs s done (scanned.map (· :: u :: p)) (done ++ (u :: p) :: queue))
    (hnodup : (nbrs u).Nodup) (hnbrs : nbrs u = scanned ++ v :: rest)
    (hq : q ∈ done ++ (u :: p) :: queue) (hv : q.head? = some v) :
    FirstMeeting nbrs s (v :: u :: p) where
  walk := (h.walk (u :: p) (by simp)).step (by simp [hnbrs])
  meets := ⟨q, h.walk q hq, h.before hnbrs hq, hv⟩
  first _ hr hbefore := h.not_meets (h.of_before hnodup hnbrs hr hbefore)

/-- A search without walks to follow has found all, and none meets another. -/
theorem Found.exhausted (h : Found nbrs s found [] found) (hp : Walk nbrs s p) :
    ¬ Meets nbrs s p := by
  refine h.not_meets ?_
  induction hp with
  | start => exact (h.mem _).mpr (.inl rfl)
  | step _ hv ih => exact (h.mem _).mpr (.inr (.inl ⟨_, _, _, rfl, ih, hv⟩))

/-- What a walk that has been found has come along has been found. -/
theorem Found.of_append {scanned : List (List α)} (h : Found nbrs s done scanned found)
    {front back : List α} (hback : back ≠ []) (hmem : front ++ back ∈ found) : back ∈ found := by
  induction front with
  | nil => exact hmem
  | cons v front ih =>
    refine ih ?_
    rw [List.cons_append] at hmem
    have hwalk := h.walk _ hmem
    obtain ⟨earlier, later, hsplit⟩ := List.append_of_mem hmem
    cases hne : front ++ back with
    | nil => exact absurd (List.append_eq_nil_iff.mp hne).2 hback
    | cons u p =>
      rw [hne] at hwalk hsplit
      have hparent : Walk nbrs s (u :: p) := by
        cases hwalk with
        | step hp _ => exact hp
      rw [hsplit]
      exact List.mem_append_left _
        (h.complete earlier _ later hsplit _ hparent (.shorter (Nat.lt_succ_self _)))

/-- A walk that has been found comes to no node twice. -/
theorem Found.nodup {scanned : List (List α)} (h : Found nbrs s done scanned found)
    (hp : p ∈ found) : p.Nodup := by
  induction p with
  | nil => exact List.nodup_nil
  | cons v p ih =>
    cases p with
    | nil => exact List.nodup_singleton v
    | cons u p =>
      have htail : u :: p ∈ found := @Found.of_append _ _ _ _ _ _ h [v] (u :: p) nofun hp
      refine List.nodup_cons.mpr ⟨fun hv => ?_, ih htail⟩
      obtain ⟨front, back, hsplit⟩ := List.append_of_mem hv
      rw [hsplit] at hp
      have hback : v :: back ∈ found :=
        @Found.of_append _ _ _ _ _ _ h (v :: front) (v :: back) nofun hp
      have hlt : (v :: back).length < (v :: (front ++ v :: back)).length := by
        simp only [List.length_cons, List.length_append]
        omega
      exact h.not_meets hp ⟨v :: back, h.walk _ hback, .shorter hlt, rfl⟩

section Bounds
variable {V : Finset α} {scanned : List (List α)}

theorem Walk.subset (hs : s ∈ V) (hV : ∀ u ∈ V, ∀ v ∈ nbrs u, v ∈ V) (h : Walk nbrs s p) :
    ∀ v ∈ p, v ∈ V := by
  induction h with
  | start => simpa using hs
  | step _ hv ih =>
    intro x hx
    rcases List.mem_cons.mp hx with rfl | hx
    · exact hV _ (ih _ List.mem_cons_self) _ hv
    · exact ih x hx

theorem Found.length_walk_le (h : Found nbrs s done scanned found) (hs : s ∈ V)
    (hV : ∀ u ∈ V, ∀ v ∈ nbrs u, v ∈ V) (hp : p ∈ found) : p.length ≤ V.card := by
  classical
  rw [← List.toFinset_card_of_nodup (h.nodup hp)]
  exact Finset.card_le_card fun v hv => (h.walk p hp).subset hs hV v (List.mem_toFinset.mp hv)

/-- A search has found at most one walk to each node. -/
theorem Found.length_le (h : Found nbrs s done scanned found) (hs : s ∈ V)
    (hV : ∀ u ∈ V, ∀ v ∈ nbrs u, v ∈ V) : found.length ≤ V.card := by
  classical
  have hnodup : (found.map List.head?).Nodup := List.pairwise_map.mpr h.apart
  rw [← List.length_map (f := List.head?), ← List.toFinset_card_of_nodup hnodup]
  refine (Finset.card_le_card fun o ho => ?_).trans (Finset.card_image_le (s := V) (f := some))
  obtain ⟨p, hp, rfl⟩ := List.mem_map.mp (List.mem_toFinset.mp ho)
  have hsubset := (h.walk p hp).subset hs hV
  cases p with
  | nil => exact absurd rfl (h.walk [] hp).ne_nil
  | cons v p => exact Finset.mem_image_of_mem _ (hsubset v List.mem_cons_self)

end Bounds

end Searches

end Lockout.Lib.BreadthFirst
