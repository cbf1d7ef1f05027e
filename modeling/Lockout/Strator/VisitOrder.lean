import Lockout.Strator.Tasks

/-! # The order of the visits

Two tasks of an analysis stand in an order: where their ways part, the one has ended
before the other starts (`Leads.ordered`). So a statement is visited once with the same
locksets (`Visits.unique`), and what its visit makes true holds from then on
(`of_cached`). -/

namespace Lockout.Strator.VisitOrder
open Lockout.Strator.Program Lockout.Strator.State Lockout.Strator.Traverse
open Lockout.Strator.Effects Lockout.Strator.Tasks
open Relation (ReflTransGen)

/-- A task comes to another in one step: the first task it starts, or the one after that
has ended. -/
inductive Leads (m : IRModule) (opts : Options) : Search × Worker → Search × Worker → Prop
  | body {f L w s} : m.entry f = some s → w.summary? f L = none → w.onStack f = false →
      Leads m opts (.visit (.function f L), w) (.visit (.statement s L L), w.setOnStack f true)
  | goOn {s E L w L' w₁} : w.isInCache s E L = false →
      processStatement m opts s L (w.addToCache s E L) = .ok (.goOn L', w₁) →
      Leads m opts (.visit (.statement s E L), w) (.each E (successors m s [L']), w₁)
  | enter {s E L w f L' w₁} : w.isInCache s E L = false →
      processStatement m opts s L (w.addToCache s E L) = .ok (.call f L', w₁) →
      Leads m opts (.visit (.statement s E L), w) (.visit (.function f L'), w₁)
  | resume {s E L w f L' w₁ exits w₂} : w.isInCache s E L = false →
      processStatement m opts s L (w.addToCache s E L) = .ok (.call f L', w₁) →
      Runs m opts (.visit (.function f L')) w₁ exits w₂ →
      Leads m opts (.visit (.statement s E L), w)
        (.each E (successors m s (workingList opts L' exits)), eraseArguments m f w₂)
  | head {E s L work w} :
      Leads m opts (.each E ((s, L) :: work), w) (.visit (.statement s E L), w)
  | rest {E s L work w r w₁} : Runs m opts (.visit (.statement s E L)) w r w₁ →
      Leads m opts (.each E ((s, L) :: work), w) (.each E work, w₁)

section Order
variable {m : IRModule} {opts : Options} {t₀ t : Search} {w₀ w w' v v' : Worker}
  {ctx ctx' : List InstId} {r : List LockSet} {s : InstId} {E L : LockSet}
  {a b c : Search × Worker}

theorem leads_of_reached (h : Reached m opts t₀ w₀ ctx t w) :
    ReflTransGen (Leads m opts) (t₀, w₀) (t, w) := by
  induction h with
  | start => exact .refl
  | body _ hentry hnone hstack ih => exact ih.tail (.body hentry hnone hstack)
  | goOn _ hnew hs ih => exact ih.tail (.goOn hnew hs)
  | enter _ hnew hs ih => exact ih.tail (.enter hnew hs)
  | resume _ hnew hs hcallee ih => exact ih.tail (.resume hnew hs hcallee)
  | head _ ih => exact ih.tail .head
  | rest _ hfirst ih => exact ih.tail (.rest hfirst)

theorem reached_of_leads (h : ReflTransGen (Leads m opts) a b) :
    ∃ ctx, Reached m opts a.1 a.2 ctx b.1 b.2 := by
  induction h with
  | refl => exact ⟨[], .start⟩
  | tail _ hlast ih =>
    obtain ⟨ctx, ht⟩ := ih
    cases hlast with
    | body hentry hnone hstack => exact ⟨_, ht.body hentry hnone hstack⟩
    | goOn hnew hs => exact ⟨_, ht.goOn hnew hs⟩
    | enter hnew hs => exact ⟨_, ht.enter hnew hs⟩
    | resume hnew hs hcallee => exact ⟨_, ht.resume hnew hs hcallee⟩
    | head => exact ⟨_, ht.head⟩
    | rest hfirst => exact ⟨_, ht.rest hfirst⟩

theorem isInCache_of_leads (h : ReflTransGen (Leads m opts) a b)
    (ha : a.2.isInCache s E L = true) : b.2.isInCache s E L = true := by
  obtain ⟨ctx, ht⟩ := reached_of_leads h
  exact reached_keeps kept_isInCache ha ht

theorem isInCache_processStatement {next : Next}
    (h : processStatement m opts s L (w.addToCache s E L) = .ok (next, w')) :
    w'.isInCache s E L = true := by
  rw [isInCache_of_statementCache (step_of_processStatement h).sameCaches.statementCache]
  exact isInCache_addToCache.mpr (.inl ⟨rfl, rfl, rfl⟩)

/-- A statement that has been visited is in the cache. -/
theorem isInCache_of_visit (h : Runs m opts (.visit (.statement s E L)) w r w') :
    w'.isInCache s E L = true := by
  cases h with
  | cached hcached => exact hcached
  | returned _ hs => exact isInCache_processStatement hs
  | goOn _ hs hrest => exact isInCache_of_runs hrest (isInCache_processStatement hs)
  | call _ hs hcallee hrest =>
    have hw₂ := isInCache_of_runs hcallee (isInCache_processStatement hs)
    exact isInCache_of_runs hrest hw₂

/-- It is in the cache in everything that the visit comes to. -/
theorem Leads.isInCache (h : Leads m opts (.visit (.statement s E L), w) b) :
    b.2.isInCache s E L = true := by
  cases h with
  | goOn _ hs | enter _ hs => exact isInCache_processStatement hs
  | resume _ hs hcallee => exact isInCache_of_runs hcallee (isInCache_processStatement hs)

/-- Task `b` has ended before task `c` starts. -/
def Before (m : IRModule) (opts : Options) (b c : Search × Worker) : Prop :=
  ∃ r w, Runs m opts b.1 b.2 r w ∧ w.statementCache = c.2.statementCache

theorem Leads.ordered (hb : Leads m opts a b) (hc : Leads m opts a c) :
    b = c ∨ Before m opts b c ∨ Before m opts c b := by
  cases hb with
  | body hentry =>
    cases hc with
    | body hentry' =>
      cases hentry.symm.trans hentry'
      exact .inl rfl
  | goOn _ hs =>
    cases hc with
    | goOn _ hs' =>
      cases hs.symm.trans hs'
      exact .inl rfl
    | enter _ hs' | resume _ hs' => cases hs.symm.trans hs'
  | enter _ hs =>
    cases hc with
    | goOn _ hs' => cases hs.symm.trans hs'
    | enter _ hs' =>
      cases hs.symm.trans hs'
      exact .inl rfl
    | resume _ hs' hcallee =>
      cases hs.symm.trans hs'
      exact .inr (.inl ⟨_, _, hcallee, rfl⟩)
  | resume _ hs hcallee =>
    cases hc with
    | goOn _ hs' => cases hs.symm.trans hs'
    | enter _ hs' =>
      cases hs.symm.trans hs'
      exact .inr (.inr ⟨_, _, hcallee, rfl⟩)
    | resume _ hs' hcallee' =>
      cases hs.symm.trans hs'
      obtain ⟨rfl, rfl⟩ := hcallee.unique hcallee'
      exact .inl rfl
  | head =>
    cases hc with
    | head => exact .inl rfl
    | rest hfirst => exact .inr (.inl ⟨_, _, hfirst, rfl⟩)
  | rest hfirst =>
    cases hc with
    | head => exact .inr (.inr ⟨_, _, hfirst, rfl⟩)
    | rest hfirst' =>
      obtain ⟨rfl, rfl⟩ := hfirst.unique hfirst'
      exact .inl rfl

/-- What is visited in a task is in the cache of the tasks after it. -/
theorem Before.isInCache (h : Before m opts b c)
    (hb : ReflTransGen (Leads m opts) b (.visit (.statement s E L), v))
    (hc : ReflTransGen (Leads m opts) c (t, w)) : w.isInCache s E L = true := by
  obtain ⟨r, w', hrun, hcache⟩ := h
  obtain ⟨ctx, hreached⟩ := reached_of_leads hb
  obtain ⟨r₁, w₁, hvisit, hkept⟩ := hreached.ends hrun
  have hend : w'.isInCache s E L = true := hkept _ kept_isInCache (isInCache_of_visit hvisit)
  refine isInCache_of_leads hc ?_
  rw [isInCache_of_statementCache hcache.symm]
  exact hend

theorem leads_unique (h : ReflTransGen (Leads m opts) a (.visit (.statement s E L), v))
    (h' : ReflTransGen (Leads m opts) a (.visit (.statement s E L), v'))
    (hv : v.isInCache s E L = false) (hv' : v'.isInCache s E L = false) : v = v' := by
  induction h using ReflTransGen.head_induction_on with
  | refl =>
    rcases h'.cases_head with heq | ⟨c, hc, hrest⟩
    · exact (Prod.mk.inj heq).2
    · cases hv'.symm.trans (isInCache_of_leads hrest hc.isInCache)
  | head hb hrest ih =>
    rcases h'.cases_head with rfl | ⟨c, hc, hrest'⟩
    · cases hv.symm.trans (isInCache_of_leads hrest hb.isInCache)
    · rcases hb.ordered hc with rfl | hbefore | hbefore
      · exact ih hrest'
      · cases hv'.symm.trans (hbefore.isInCache hrest hrest')
      · cases hv.symm.trans (hbefore.isInCache hrest' hrest)

end Order

/-- The analysis from `root` visits statement `s` with locksets `E` and `L` in state `w`:
it comes there and has not been there before. -/
def Visits (m : IRModule) (opts : Options) (root : String) (s : InstId) (E L : LockSet)
    (w : Worker) : Prop :=
  w.isInCache s E L = false ∧
    ∃ ctx, Reached m opts (.visit (.function root ∅)) {} ctx (.visit (.statement s E L)) w

section Visits
variable {m : IRModule} {opts : Options} {t₀ t : Search} {w₀ w v v' : Worker}
  {ctx : List InstId} {s : InstId} {E L : LockSet} {root : String}

/-- A statement is visited once with the same locksets. -/
theorem Visits.unique (h : Visits m opts root s E L v) (h' : Visits m opts root s E L v') :
    v = v' := by
  obtain ⟨hnew, ctx, ht⟩ := h
  obtain ⟨hnew', ctx', ht'⟩ := h'
  exact leads_unique (leads_of_reached ht) (leads_of_reached ht') hnew hnew'


/-- What each visit makes true, and no change makes false, holds of a statement as soon
as it is in the cache. -/
theorem of_cached (Q : InstId → LockSet → LockSet → Worker → Prop)
    (hkept : ∀ s E L, Kept m opts (Q s E L))
    (hvisit : ∀ {ctx s E L w next w'}, Reached m opts t₀ w₀ ctx (.visit (.statement s E L)) w →
      w.isInCache s E L = false → processStatement m opts s L (w.addToCache s E L) = .ok (next, w') →
      Q s E L w')
    (h : Reached m opts t₀ w₀ ctx t w) (hs : w.isInCache s E L = true) :
    w₀.isInCache s E L = true ∨ Q s E L w := by
  have hQ := hkept s E L
  -- the visit of the statement itself, or of another
  have hprocessed : ∀ {ctx s' E' L' w next w₁},
      Reached m opts t₀ w₀ ctx (.visit (.statement s' E' L')) w → w.isInCache s' E' L' = false →
      processStatement m opts s' L' (w.addToCache s' E' L') = .ok (next, w₁) →
      (w.isInCache s E L = true → w₀.isInCache s E L = true ∨ Q s E L w) →
      w₁.isInCache s E L = true → w₀.isInCache s E L = true ∨ Q s E L w₁ := by
    intro ctx s' E' L' w next w₁ ht hnew hstep hold hw₁
    have hsame := (step_of_processStatement hstep).sameCaches
    rw [isInCache_of_statementCache hsame.statementCache] at hw₁
    rcases isInCache_addToCache.mp hw₁ with ⟨rfl, rfl, rfl⟩ | hw
    · exact .inr (hvisit ht hnew hstep)
    · exact (hold hw).imp_right fun hq => hQ.step (hQ.cache hq) (step_of_processStatement hstep)
  induction h with
  | start => exact .inl hs
  | body _ _ _ _ ih => exact (ih hs).imp_right hQ.stack
  | goOn ht hnew hstep ih | enter ht hnew hstep ih => exact hprocessed ht hnew hstep ih hs
  | resume ht hnew hstep hcallee ih =>
    rcases of_visits Q hkept hvisit hcallee (ht.enter hnew hstep) hs with hw₁ | hw₂
    · exact (hprocessed ht hnew hstep ih hw₁).imp_right fun hq =>
        hQ.erase (runs_keeps hQ hcallee hq)
    · exact .inr (hQ.erase hw₂)
  | head _ ih => exact ih hs
  | rest ht hfirst ih =>
    rcases of_visits Q hkept hvisit hfirst ht.head hs with hw | hw₁
    · exact (ih hw).imp_right (runs_keeps hQ hfirst)
    · exact .inr hw₁

/-- What the processing of the one visit makes true. -/
theorem Visits.processed {Q : Worker → Prop} (hvisit : Visits m opts root s E L v)
    (hprocess : ∀ {next v'}, processStatement m opts s L (v.addToCache s E L) = .ok (next, v') →
      Q v') {s' : InstId} {E' L' : LockSet} {next : Next}
    (ht : Reached m opts (.visit (.function root ∅)) {} ctx (.visit (.statement s' E' L')) w)
    (hnew : w.isInCache s' E' L' = false)
    (hstep : processStatement m opts s' L' (w.addToCache s' E' L') = .ok (next, v'))
    (heq : (s', E', L') = (s, E, L)) : Q v' := by
  cases heq
  obtain rfl := hvisit.unique ⟨hnew, ctx, ht⟩
  exact hprocess hstep

/-- If no change makes it false, it holds as soon as the statement is in the cache. -/
theorem Visits.holds {Q : Worker → Prop} (hvisit : Visits m opts root s E L v)
    (hkept : Kept m opts Q)
    (hprocess : ∀ {next v'}, processStatement m opts s L (v.addToCache s E L) = .ok (next, v') →
      Q v')
    (ht : Reached m opts (.visit (.function root ∅)) {} ctx t w)
    (hs : w.isInCache s E L = true) : Q w := by
  rcases of_cached (fun s' E' L' w => (s', E', L') = (s, E, L) → Q w) (fun _ _ _ => hkept.imp)
    (hvisit.processed hprocess) ht hs with hold | hq
  · cases hold
  · exact hq rfl

/-- It holds at the end of the analysis. -/
theorem Visits.holds_end {Q : Worker → Prop} {r : List LockSet}
    (hvisit : Visits m opts root s E L v) (hkept : Kept m opts Q)
    (hprocess : ∀ {next v'}, processStatement m opts s L (v.addToCache s E L) = .ok (next, v') →
      Q v')
    (h : Runs m opts (.visit (.function root ∅)) {} r w) (hs : w.isInCache s E L = true) : Q w := by
  rcases of_visits (fun s' E' L' w => (s', E', L') = (s, E, L) → Q w) (fun _ _ _ => hkept.imp)
    (hvisit.processed hprocess) h .start hs with hold | hq
  · cases hold
  · exact hq rfl

end Visits
end Lockout.Strator.VisitOrder
