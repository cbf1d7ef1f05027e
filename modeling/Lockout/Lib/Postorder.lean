import Mathlib.Data.List.Chain
import Lockout.Lib.DepthFirst

/-! # The order in which a depth-first search finishes its nodes

The search of `Lib.DepthFirst` that appends every node to a queue when it leaves it. A
node is emitted after its neighbours, except for those on the path from the root of the
search to the node itself (`Emits`); which path that is depends on the order of the
neighbours, and every simple path can be the first one that is followed (`follows`). -/

namespace Lockout.Lib.Postorder
open Lockout.Lib.DepthFirst

variable {α : Type}

def Next (nbrs : α → List α) (v w : α) : Prop := w ∈ nbrs v

/-- Where `x` stands in the queue, its neighbours come before it or lie on a simple path
to `x` none of whose nodes comes before it. -/
def Emits (nbrs : α → List α) (queue : List α) : Prop :=
  ∀ earlier x later, queue = earlier ++ x :: later → ∃ path, List.IsChain (Next nbrs) path ∧
    path.Nodup ∧ path.getLast? = some x ∧ (∀ z ∈ path, z ∉ earlier) ∧
    ∀ w ∈ nbrs x, w ∈ earlier ∨ w ∈ path

/-- A state of the search with the nodes of `stack` entered and not yet left. -/
structure Suspended (nbrs : α → List α) (stack : List α) (st : Finset α × List α) : Prop where
  marked : ∀ z, z ∈ st.1 ↔ z ∈ stack ∨ z ∈ st.2
  open_ : ∀ z ∈ stack, z ∉ st.2
  emits : Emits nbrs st.2

section Queues
variable {nbrs : α → List α} {v x : α} {stack path queue : List α} {st : Finset α × List α}

theorem emits_append (h : Emits nbrs queue) (hpath : List.IsChain (Next nbrs) path)
    (hnodup : path.Nodup) (hlast : path.getLast? = some v) (hopen : ∀ z ∈ path, z ∉ queue)
    (hnbrs : ∀ w ∈ nbrs v, w ∈ queue ∨ w ∈ path) : Emits nbrs (queue ++ [v]) := by
  intro earlier x later hsplit
  rcases List.eq_nil_or_concat later with rfl | ⟨later, y, rfl⟩
  · obtain ⟨rfl, hx⟩ := List.append_inj' hsplit rfl
    obtain rfl : v = x := List.singleton_inj.mp hx
    exact ⟨path, hpath, hnodup, hlast, hopen, hnbrs⟩
  · have hinit : queue ++ [v] = (earlier ++ x :: later) ++ [y] := by simpa using hsplit
    exact h earlier x later (List.append_inj' hinit rfl).1

theorem Suspended.leave (h : Suspended nbrs (stack ++ [v]) st)
    (hpath : List.IsChain (Next nbrs) (stack ++ [v])) (hnodup : (stack ++ [v]).Nodup)
    (hnbrs : ∀ w ∈ nbrs v, w ∈ st.1) : Suspended nbrs stack (st.1, st.2 ++ [v]) where
  marked z := by
    simp only [h.marked, List.mem_append, List.mem_singleton]
    tauto
  open_ z hz := by
    have hzv : z ≠ v := by
      rintro rfl
      exact (List.nodup_append.mp hnodup).2.2 z hz z (by simp) rfl
    have hopen := h.open_ z (List.mem_append_left _ hz)
    simp [hopen, hzv]
  emits := emits_append h.emits hpath hnodup (by simp) h.open_ fun w hw =>
    ((h.marked w).mp (hnbrs w hw)).symm

theorem suspended_new : Suspended nbrs [] (∅, []) where
  marked := by simp
  open_ := by simp
  emits := by
    intro earlier x later h
    simp at h

/-- Every node of a path reaches its end. -/
theorem reaches_of_chain {r : α → α → Prop} (hchain : List.IsChain r path)
    (hlast : path.getLast? = some x) : ∀ z ∈ path, Relation.ReflTransGen r z x := by
  induction path with
  | nil => nofun
  | cons y path ih =>
    intro z hz
    cases path with
    | nil =>
      obtain rfl : y = x := by simpa using hlast
      rw [List.mem_singleton.mp hz]
    | cons y' path =>
      obtain ⟨hedge, hchain⟩ := List.isChain_cons_cons.mp hchain
      have hrest := ih hchain (by simpa using hlast)
      rcases List.mem_cons.mp hz with rfl | hz
      · exact .head hedge (hrest y' List.mem_cons_self)
      · exact hrest z hz

theorem Emits.init (h : Emits nbrs (queue ++ [v])) : Emits nbrs queue := by
  rintro earlier x later rfl
  exact h earlier x (later ++ [v]) (by simp)

/-- No node is emitted twice. -/
theorem Emits.nodup (h : Emits nbrs queue) : queue.Nodup := by
  induction queue using List.reverseRecOn with
  | nil => exact List.nodup_nil
  | append_singleton queue x ih =>
    obtain ⟨path, -, -, hlast, hopen, -⟩ := h queue x [] rfl
    have hx : x ∉ queue := hopen x (List.mem_of_getLast? hlast)
    exact List.nodup_append.mpr ⟨ih h.init, List.nodup_singleton x, fun z hz y hy =>
      fun heq => hx (List.mem_singleton.mp hy ▸ heq ▸ hz)⟩

/-- A neighbour that does not lead back is emitted before its node. -/
theorem Emits.before (h : Emits nbrs queue) (hx : x ∈ queue) (hv : v ∈ nbrs x)
    (hback : ¬ Relation.ReflTransGen (Next nbrs) v x) :
    ∃ earlier later, queue = earlier ++ x :: later ∧ v ∈ earlier := by
  obtain ⟨earlier, later, rfl⟩ := List.append_of_mem hx
  obtain ⟨path, hchain, -, hlast, -, hnbrs⟩ := h earlier x later rfl
  refine ⟨earlier, later, rfl, (hnbrs v hv).resolve_right fun hmem => ?_⟩
  exact hback (reaches_of_chain hchain hlast v hmem)

/-- From each node of the path the next one is the first neighbour that is not yet on it. -/
def Leads (nbrs : α → List α) (path : List α) : Prop :=
  ∀ walked v w rest, path = walked ++ v :: w :: rest →
    ∃ skipped others, nbrs v = skipped ++ w :: others ∧ ∀ z ∈ skipped, z ∈ walked ++ [v]

/-- The search has come to `x` without leaving the path; what it emits before `x` has
been reached from there. -/
def EmitsAtEnd (nbrs : α → List α) (path : List α) (x : α) (queue : List α) : Prop :=
  ∃ earlier later, queue = earlier ++ x :: later ∧ ∀ y ∈ earlier, ∃ w ∈ nbrs x, w ∉ path ∧
    Relation.ReflTransGen (Next nbrs) w y

theorem EmitsAtEnd.of_longer {queue' : List α} (h : EmitsAtEnd nbrs path x queue)
    (hstarts : queue <+: queue') : EmitsAtEnd nbrs path x queue' := by
  obtain ⟨earlier, later, rfl, hearlier⟩ := h
  obtain ⟨more, rfl⟩ := hstarts
  exact ⟨earlier, later ++ more, by simp, hearlier⟩

end Queues

variable [DecidableEq α]

/-- Emits a node when its neighbours are done. -/
def emit (nbrs : α → List α) : Nat → α → Finset α × List α → Option (Finset α × List α) :=
  visit nbrs (fun _ queue => queue) (fun v queue => queue ++ [v])

def emitAll (nbrs : α → List α) (fuel : Nat) (ws : List α) (st : Finset α × List α) :
    Option (Finset α × List α) :=
  visitAll nbrs (fun _ queue => queue) (fun v queue => queue ++ [v]) fuel ws st

section Runs
variable {nbrs : α → List α} {fuel : Nat} {v w x : α} {ws stack path queue : List α}
  {st st' : Finset α × List α}

theorem Suspended.enter (h : Suspended nbrs stack st) (hv : v ∉ st.1) :
    Suspended nbrs (stack ++ [v]) (insert v st.1, st.2) where
  marked z := by
    simp only [Finset.mem_insert, h.marked, List.mem_append, List.mem_singleton]
    tauto
  open_ z hz := by
    rcases List.mem_append.mp hz with hz | hz
    · exact h.open_ z hz
    · rw [List.mem_singleton.mp hz]
      exact fun hmem => hv ((h.marked v).mpr (.inr hmem))
  emits := h.emits

/-- What a suspended search has after a further visit. -/
theorem emit_suspended (hpath : List.IsChain (Next nbrs) (stack ++ [v]))
    (hnodup : stack.Nodup) (h : Suspended nbrs stack st) (hv : v ∉ st.1)
    (hrun : emit nbrs fuel v st = some st') : Suspended nbrs stack st' := by
  induction fuel generalizing v stack st st' with
  | zero => cases hrun
  | succ fuel ih =>
    rw [emit, visit_succ] at hrun
    obtain ⟨mid, hmid, hleave⟩ := Option.bind_eq_some_iff.mp hrun
    obtain rfl := Option.some.inj hleave
    have hvstack : v ∉ stack := fun hmem => hv ((h.marked v).mpr (.inl hmem))
    have hnodup' : (stack ++ [v]).Nodup := by
      rw [List.nodup_append]
      refine ⟨hnodup, List.nodup_singleton v, fun z hz y hy => ?_⟩
      rw [List.mem_singleton.mp hy]
      exact fun heq => hvstack (heq ▸ hz)
    have hall : ∀ (ws : List α) (st : Finset α × List α), (∀ w ∈ ws, w ∈ nbrs v) →
        Suspended nbrs (stack ++ [v]) st → emitAll nbrs fuel ws st = some mid →
        Suspended nbrs (stack ++ [v]) mid := by
      intro ws
      induction ws with
      | nil => exact fun st _ hst hrun => Option.some.inj hrun ▸ hst
      | cons w ws ihw =>
        intro st hws hst hrun
        rw [emitAll, visitAll_cons] at hrun
        obtain ⟨next, hnext, hrest⟩ := Option.bind_eq_some_iff.mp hrun
        refine ihw next (fun u hu => hws u (List.mem_cons_of_mem _ hu)) ?_ hrest
        split at hnext
        · exact Option.some.inj hnext ▸ hst
        · rename_i hw
          refine ih ?_ hnodup' hst hw hnext
          rw [List.isChain_append]
          refine ⟨hpath, List.isChain_singleton w, ?_⟩
          simpa [Next] using hws w List.mem_cons_self
    have hmarked := (visitAll_rule closedNew_rule (fun _ _ => trivial) hmid).2.2
    exact (hall _ _ (fun _ => id) (h.enter hv) hmid).leave hpath hnodup' hmarked

/-- The queue of a search from several roots. -/
theorem emits_of_emitAll (h : emitAll nbrs fuel ws st = some st')
    (hst : Suspended nbrs [] st) : Suspended nbrs [] st' := by
  induction ws generalizing st with
  | nil => exact Option.some.inj h ▸ hst
  | cons w ws ih =>
    rw [emitAll, visitAll_cons] at h
    obtain ⟨mid, hmid, hrest⟩ := Option.bind_eq_some_iff.mp h
    refine ih hrest ?_
    split at hmid
    · exact Option.some.inj hmid ▸ hst
    · rename_i hw
      exact emit_suspended (List.isChain_singleton w) List.nodup_nil hst hw hmid

/-! ## Following a given path -/

/-- What has been emitted stays where it is. -/
theorem prefix_rule : NodeRule nbrs (fun _ queue => queue) (fun v queue => queue ++ [v])
    (fun _ => True) (fun a b : Finset α × List α => a.2 <+: b.2) where
  next _ _ _ := trivial
  refl _ := List.prefix_refl _
  trans _ _ h h' := h.trans h'
  node _ _ _ _ h := h.trans (List.prefix_append _ _)

/-- Everything a visit emits can be reached from its node. -/
theorem reaches_rule (v : α) : NodeRule nbrs (fun _ queue => queue) (fun v queue => queue ++ [v])
    (Relation.ReflTransGen (Next nbrs) v) (fun a b : Finset α × List α =>
      ∀ y ∈ b.2, y ∈ a.2 ∨ Relation.ReflTransGen (Next nbrs) v y) where
  next hv w hw := hv.tail hw
  refl _ _ hy := .inl hy
  trans _ _ h h' y hy := (h' y hy).elim (h y) .inr
  node hv _ _ _ h y hy := by
    rcases List.mem_append.mp hy with hy | hy
    · exact h y hy
    · exact .inr (List.mem_singleton.mp hy ▸ hv)

theorem emitAll_reaches (h : emitAll nbrs fuel ws st = some st') : ∀ y ∈ st'.2, y ∈ st.2 ∨
    ∃ w ∈ ws, w ∉ st.1 ∧ Relation.ReflTransGen (Next nbrs) w y := by
  induction ws generalizing st with
  | nil => exact fun y hy => .inl (Option.some.inj h ▸ hy)
  | cons w ws ih =>
    rw [emitAll, visitAll_cons] at h
    obtain ⟨mid, hmid, hrest⟩ := Option.bind_eq_some_iff.mp h
    intro y hy
    split at hmid
    · obtain rfl := Option.some.inj hmid
      rcases ih hrest y hy with hy | ⟨u, hu, hnew, hreach⟩
      · exact .inl hy
      · exact .inr ⟨u, List.mem_cons_of_mem _ hu, hnew, hreach⟩
    · rename_i hw
      obtain ⟨hvisit, hsub, -⟩ := visit_rule (reaches_rule w) .refl hw hmid
      rcases ih hrest y hy with hy | ⟨u, hu, hnew, hreach⟩
      · rcases hvisit y hy with hy | hreach
        · exact .inl hy
        · exact .inr ⟨w, List.mem_cons_self, hw, hreach⟩
      · exact .inr ⟨u, List.mem_cons_of_mem _ hu, fun hmem => hnew (hsub hmem), hreach⟩

theorem emit_follows {walked rest : List α} (hleads : Leads nbrs (walked ++ v :: rest))
    (hnodup : (walked ++ v :: rest).Nodup) (hlast : (v :: rest).getLast? = some x)
    (hrun : emit nbrs fuel v st = some st') (hmarked : ∀ z, z ∈ st.1 ↔ z ∈ walked)
    (hempty : st.2 = []) : EmitsAtEnd nbrs (walked ++ v :: rest) x st'.2 := by
  induction rest generalizing walked v st st' fuel with
  | nil =>
    obtain rfl : v = x := by simpa using hlast
    cases fuel with
    | zero => cases hrun
    | succ fuel =>
      rw [emit, visit_succ] at hrun
      obtain ⟨mid, hmid, hleave⟩ := Option.bind_eq_some_iff.mp hrun
      obtain rfl := Option.some.inj hleave
      refine ⟨mid.2, [], rfl, fun y hy => ?_⟩
      rcases emitAll_reaches hmid y hy with hy | ⟨w, hw, hnew, hreach⟩
      · rw [hempty] at hy
        cases hy
      · refine ⟨w, hw, fun hmem => hnew ?_, hreach⟩
        simpa [hmarked, or_comm] using hmem
  | cons w rest ih =>
    cases fuel with
    | zero => cases hrun
    | succ fuel =>
      rw [emit, visit_succ] at hrun
      obtain ⟨mid, hmid, hleave⟩ := Option.bind_eq_some_iff.mp hrun
      obtain rfl := Option.some.inj hleave
      obtain ⟨skipped, others, hnbrs, hskipped⟩ := hleads walked v w rest rfl
      have hpath : walked ++ v :: w :: rest = (walked ++ [v]) ++ w :: rest := by simp
      have hmarked' : ∀ z, z ∈ insert v st.1 ↔ z ∈ walked ++ [v] := by
        intro z
        simp [hmarked, or_comm]
      -- the neighbours before `w` have been marked
      rw [hnbrs, visitAll_skip fun z hz => (hmarked' z).mpr (hskipped z hz), visitAll_cons] at hmid
      have hw : w ∉ insert v st.1 := by
        rw [hmarked']
        rw [hpath, List.nodup_append] at hnodup
        exact fun hmem => hnodup.2.2 w hmem w List.mem_cons_self rfl
      rw [if_neg hw] at hmid
      obtain ⟨next, hnext, hothers⟩ := Option.bind_eq_some_iff.mp hmid
      rw [hpath] at hleads hnodup ⊢
      have hnext : emit nbrs fuel w (insert v st.1, st.2) = some next := hnext
      have hend := ih hleads hnodup (by simpa using hlast) hnext hmarked' hempty
      have hmore := (visitAll_rule prefix_rule (fun _ _ => trivial) hothers).1
      exact (hend.of_longer hmore).of_longer (List.prefix_append _ _)

/-- A search whose first root is the beginning of the path. -/
theorem emitAll_follows {rest : List α} (hleads : Leads nbrs (v :: rest))
    (hnodup : (v :: rest).Nodup) (hlast : (v :: rest).getLast? = some x)
    (hrun : emitAll nbrs fuel (v :: ws) (∅, []) = some st') :
    EmitsAtEnd nbrs (v :: rest) x st'.2 := by
  rw [emitAll, visitAll_cons, if_neg (by simp)] at hrun
  obtain ⟨mid, hmid, hothers⟩ := Option.bind_eq_some_iff.mp hrun
  have hend := @emit_follows _ _ nbrs fuel v x (∅, []) mid [] rest hleads hnodup hlast hmid
    (by simp) rfl
  exact hend.of_longer (visitAll_rule prefix_rule (fun _ _ => trivial) hothers).1

end Runs

end Lockout.Lib.Postorder
