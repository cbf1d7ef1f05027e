import Mathlib.Data.Sym.Sym2
import Lockout.Strator.State

/-! # The race report

`reportLevel1Races` over the final map of access records. The iteration orders of the
map and of the record sets, which compare addresses, are the orders of the lists. The
loops pass pairs of records to `checkAccesses` (`candidates`), and the report has every
unordered pair of racing instructions once, whatever the orders are. -/

namespace Lockout.Strator.Races
open Lockout.Strator.Program Lockout.Strator.State

/-- A value with its records. -/
abbrev Entry := (_ : Value) × List AccessType

/-- An iterator into the record set of a value; iterators into two sets are different. -/
structure AccIt where
  value : Value
  index : Nat
  deriving DecidableEq

/-- What is written to `races.txt` for one race. -/
structure Race where
  number : Nat
  value1 : Value
  value2 : Value
  access1 : AccessType
  access2 : AccessType

structure Report where
  raceCache : Finset (InstId × InstId) := ∅
  instrumentCache : List (InstId × InstId) := []
  raceCount : Nat := 0
  file : List Race := []

def doLockSetsIntersect (ls1 ls2 : LockSet) : Bool := decide (∃ l1 ∈ ls1, ∃ l2 ∈ ls2, l1 = l2)

/-- A race that is not in the cache. -/
def addRace (record1 record2 : Value × AccessType) (report : Report) : Report where
  raceCache := insert (record2.2.instruction, record1.2.instruction)
    (insert (record1.2.instruction, record2.2.instruction) report.raceCache)
  instrumentCache := report.instrumentCache ++ [(record1.2.instruction, record2.2.instruction)]
  file := report.file ++ [⟨report.raceCount, record1.1, record2.1, record1.2, record2.2⟩]
  raceCount := report.raceCount + 1

/-- The body of the loops of `investigateAccesses`. -/
def checkAccesses (record1 record2 : Value × AccessType) (report : Report) : Report :=
  let acc1 := record1.2
  let acc2 := record2.2
  if acc1.isStore || acc2.isStore then
    if !doLockSetsIntersect acc1.lockSet acc2.lockSet then
      if (acc1.instruction, acc2.instruction) ∉ report.raceCache then
        addRace record1 record2 report
      else report
    else report
  else report

/-- The loop over `accIt2`, from place `j` on. -/
def innerLoop (accIt1 : AccIt) (acc1 : AccessType) (value2 : Value) :
    Nat → List AccessType → Report → Report
  | _, [], report => report
  | j, acc2 :: rest, report =>
    if (⟨value2, j⟩ : AccIt) ≠ accIt1 then
      innerLoop accIt1 acc1 value2 (j + 1) rest
        (checkAccesses (accIt1.value, acc1) (value2, acc2) report)
    else report

/-- The loop over `accIt1`, from place `i` on. -/
def outerLoop (value1 : Value) (valIt2 : Entry) : Nat → List AccessType → Report → Report
  | _, [], report => report
  | i, acc1 :: rest, report =>
    outerLoop value1 valIt2 (i + 1) rest
      (innerLoop ⟨value1, i⟩ acc1 valIt2.1 0 valIt2.2 report)

def investigateAccesses (valIt1 valIt2 : Entry) (report : Report) : Report :=
  outerLoop valIt1.1 valIt2 0 valIt1.2 report

/-- The races on one value. If there has been a single access, there is no race. -/
def sameValueRaces (final : List Entry) (report : Report) : Report :=
  final.foldl (fun report valIt =>
    if valIt.2.length = 1 then report else investigateAccesses valIt valIt report) report

/-- The races on two values, where `before` are the entries before the others. -/
def aliasRaces (mayAlias : Value → Value → Bool) : List Entry → List Entry → Report → Report
  | _, [], report => report
  | before, valIt :: rest, report =>
    aliasRaces mayAlias (before ++ [valIt]) rest (before.foldl (fun report valIt2 =>
      if mayAlias valIt.1 valIt2.1 then investigateAccesses valIt valIt2 report else report) report)

def reportLevel1Races (useAliasAnalysis : Bool) (mayAlias : Value → Value → Bool)
    (final : ValueToAccessTypeMap) : Report :=
  let report := sameValueRaces final.entries {}
  if useAliasAnalysis then aliasRaces mayAlias [] final.entries report else report

/-! ## What is to be reported -/

/-- `access` is the record of `value` at place `k`. -/
def IsRecord (final : ValueToAccessTypeMap) (value : Value) (k : Nat) (access : AccessType) : Prop :=
  ∃ accesses, final.lookup value = some accesses ∧ accesses[k]? = some access

/-- One of them writes, and no lock is held at both. -/
def Conflict (a b : AccessType) : Prop :=
  (a.isStore || b.isStore) = true ∧ Disjoint a.lockSet b.lockSet

/-- There are two records, of `i` and of `j`, that conflict and are on one value or on
two that may alias. -/
def Racy (final : ValueToAccessTypeMap) (mayAlias : Value → Value → Bool) (i j : InstId) : Prop :=
  ∃ v k a v' k' a', IsRecord final v k a ∧ IsRecord final v' k' a' ∧ (v, k) ≠ (v', k') ∧
    (v = v' ∨ mayAlias v v' = true) ∧ Conflict a a' ∧ a.instruction = i ∧ a'.instruction = j

/-! ## The pairs the loops check -/

abbrev Candidate := (Value × AccessType) × (Value × AccessType)

/-- Every pair of records for two values, and every pair once for one value. -/
def candidates (e1 e2 : Entry) : List Candidate :=
  e1.2.zipIdx.flatMap fun x =>
    (if e1.1 = e2.1 then e2.2.take x.2 else e2.2).map fun b => ((e1.1, x.1), (e2.1, b))

def checkAll (l : List Candidate) (report : Report) : Report :=
  l.foldl (fun report c => checkAccesses c.1 c.2 report) report

section Loops
variable {e1 e2 : Entry} {report : Report} {final : List Entry} {mayAlias : Value → Value → Bool}

theorem innerLoop_other {value1 value2 : Value} (hne : value1 ≠ value2) {i j : Nat}
    {acc1 : AccessType} {l : List AccessType} :
    innerLoop ⟨value1, i⟩ acc1 value2 j l report =
      checkAll (l.map fun b => ((value1, acc1), (value2, b))) report := by
  induction l generalizing j report with
  | nil => rfl
  | cons b l ih =>
    have hit : (⟨value2, j⟩ : AccIt) ≠ ⟨value1, i⟩ := fun heq => hne (AccIt.mk.inj heq).1.symm
    rw [innerLoop, if_pos hit, ih]
    rfl

theorem innerLoop_same {value : Value} {i j : Nat} (hij : j ≤ i) {acc1 : AccessType}
    {l : List AccessType} : innerLoop ⟨value, i⟩ acc1 value j l report =
      checkAll ((l.take (i - j)).map fun b => ((value, acc1), (value, b))) report := by
  induction l generalizing j report with
  | nil => rw [List.take_nil]; rfl
  | cons b l ih =>
    unfold innerLoop
    by_cases heq : j = i
    · subst heq
      rw [if_neg (fun hne => hne rfl), Nat.sub_self]
      rfl
    · have hit : (⟨value, j⟩ : AccIt) ≠ ⟨value, i⟩ := fun h => heq (AccIt.mk.inj h).2
      rw [if_pos hit, ih (by omega), show i - j = i - (j + 1) + 1 by omega, List.take_succ_cons]
      rfl

theorem checkAll_append {l l' : List Candidate} :
    checkAll (l ++ l') report = checkAll l' (checkAll l report) :=
  List.foldl_append

theorem outerLoop_eq {i : Nat} {l : List AccessType} :
    outerLoop e1.1 e2 i l report = checkAll ((l.zipIdx i).flatMap fun x =>
      (if e1.1 = e2.1 then e2.2.take x.2 else e2.2).map fun b => ((e1.1, x.1), (e2.1, b)))
      report := by
  induction l generalizing i report with
  | nil => rfl
  | cons a l ih =>
    rw [outerLoop, ih, List.zipIdx_cons, List.flatMap_cons, checkAll_append]
    congr 1
    by_cases hv : e1.1 = e2.1
    · rw [if_pos hv, hv, innerLoop_same (Nat.zero_le _)]
      rfl
    · rw [if_neg hv, innerLoop_other hv]

/-- `investigateAccesses` checks the candidates. -/
theorem investigateAccesses_eq :
    investigateAccesses e1 e2 report = checkAll (candidates e1 e2) report :=
  outerLoop_eq

/-- The candidates of the first phase. -/
def sameValueCandidates (final : List Entry) : List Candidate :=
  final.flatMap fun e => if e.2.length = 1 then [] else candidates e e

theorem sameValueRaces_eq :
    sameValueRaces final report = checkAll (sameValueCandidates final) report := by
  induction final generalizing report with
  | nil => rfl
  | cons e final ih =>
    unfold sameValueRaces sameValueCandidates at *
    rw [List.foldl_cons, ih, List.flatMap_cons, checkAll_append]
    congr 1
    split
    · rfl
    · exact investigateAccesses_eq

/-- The candidates of the second phase. -/
def aliasCandidates (mayAlias : Value → Value → Bool) : List Entry → List Entry → List Candidate
  | _, [] => []
  | before, e :: rest =>
    (before.flatMap fun e2 => if mayAlias e.1 e2.1 then candidates e e2 else []) ++
      aliasCandidates mayAlias (before ++ [e]) rest

theorem aliasRaces_eq {before rest : List Entry} :
    aliasRaces mayAlias before rest report = checkAll (aliasCandidates mayAlias before rest) report := by
  induction rest generalizing before report with
  | nil => rfl
  | cons e rest ih =>
    rw [aliasRaces, ih, aliasCandidates, checkAll_append]
    congr 1
    clear ih
    induction before generalizing report with
    | nil => rfl
    | cons e2 before ih =>
      rw [List.foldl_cons, ih, List.flatMap_cons, checkAll_append]
      congr 1
      split
      · exact investigateAccesses_eq
      · rfl

end Loops

/-! ## Every pair once -/

/-- The pairs of `instrumentCache`, without their orientation. -/
def pairs (report : Report) : List (Sym2 InstId) :=
  report.instrumentCache.map fun p => s(p.1, p.2)

structure Sound (report : Report) : Prop where
  cache : ∀ i j, (i, j) ∈ report.raceCache ↔ s(i, j) ∈ pairs report
  nodup : (pairs report).Nodup
  count : report.raceCount = (pairs report).length

section Checks
variable {report : Report} {record1 record2 : Value × AccessType} {l : List Candidate}
  {p : Sym2 InstId}

theorem doLockSetsIntersect_eq_false {ls1 ls2 : LockSet} :
    doLockSetsIntersect ls1 ls2 = false ↔ Disjoint ls1 ls2 := by
  unfold doLockSetsIntersect
  rw [decide_eq_false_iff_not, Finset.disjoint_left]
  constructor
  · intro h a ha hb
    exact h ⟨a, ha, a, hb, rfl⟩
  · intro h hex
    obtain ⟨a, ha, b, hb, rfl⟩ := hex
    exact h ha hb

theorem Conflict.symm {a b : AccessType} (h : Conflict a b) : Conflict b a :=
  ⟨by rw [Bool.or_comm]; exact h.1, h.2.symm⟩

theorem checkAccesses_of_not_conflict (h : ¬ Conflict record1.2 record2.2) :
    checkAccesses record1 record2 report = report := by
  unfold checkAccesses
  dsimp only
  split
  · rename_i hstore
    split
    · rename_i hlocks
      rw [Bool.not_eq_true'] at hlocks
      exact absurd ⟨hstore, doLockSetsIntersect_eq_false.mp hlocks⟩ h
    · rfl
  · rfl

theorem checkAccesses_of_conflict (h : Conflict record1.2 record2.2) :
    checkAccesses record1 record2 report =
      if (record1.2.instruction, record2.2.instruction) ∉ report.raceCache then
        addRace record1 record2 report
      else report := by
  have hlocks : (!doLockSetsIntersect record1.2.lockSet record2.2.lockSet) = true := by
    rw [doLockSetsIntersect_eq_false.mpr h.2]
    rfl
  unfold checkAccesses
  dsimp only
  rw [if_pos h.1, if_pos hlocks]

theorem pairs_addRace : pairs (addRace record1 record2 report) =
    pairs report ++ [s(record1.2.instruction, record2.2.instruction)] :=
  List.map_append

theorem Sound.addRace (h : Sound report)
    (hnew : (record1.2.instruction, record2.2.instruction) ∉ report.raceCache) :
    Sound (addRace record1 record2 report) where
  cache i j := by
    rw [pairs_addRace, List.mem_append, List.mem_singleton, ← h.cache, Sym2.eq_iff]
    show (i, j) ∈ insert _ (insert _ report.raceCache) ↔ _
    rw [Finset.mem_insert, Finset.mem_insert, Prod.mk.injEq, Prod.mk.injEq]
    tauto
  nodup := by
    rw [h.cache] at hnew
    rw [pairs_addRace]
    exact h.nodup.append (List.nodup_singleton _) (by simpa using hnew)
  count := by
    rw [pairs_addRace, List.length_append]
    exact congrArg (· + 1) h.count

/-- A check adds the pair of two conflicting records, if it is not there. -/
theorem checkAccesses_sound (h : Sound report) :
    Sound (checkAccesses record1 record2 report) ∧
      ∀ p, p ∈ pairs (checkAccesses record1 record2 report) ↔ p ∈ pairs report ∨
        Conflict record1.2 record2.2 ∧ p = s(record1.2.instruction, record2.2.instruction) := by
  by_cases hconflict : Conflict record1.2 record2.2
  · rw [checkAccesses_of_conflict hconflict]
    split
    · rename_i hnew
      refine ⟨h.addRace hnew, fun p => ?_⟩
      rw [pairs_addRace, List.mem_append, List.mem_singleton]
      simp [hconflict]
    · rename_i hold
      rw [not_not, h.cache] at hold
      refine ⟨h, fun p => ⟨.inl, fun hp => hp.elim id fun hp => ?_⟩⟩
      rw [hp.2]
      exact hold
  · rw [checkAccesses_of_not_conflict hconflict]
    exact ⟨h, fun p => ⟨.inl, fun hp => hp.elim id fun hp => absurd hp.1 hconflict⟩⟩

theorem checkAll_sound (h : Sound report) : Sound (checkAll l report) ∧
    ∀ p, p ∈ pairs (checkAll l report) ↔ p ∈ pairs report ∨
      ∃ c ∈ l, Conflict c.1.2 c.2.2 ∧ p = s(c.1.2.instruction, c.2.2.instruction) := by
  induction l generalizing report with
  | nil => exact ⟨h, fun p => by simp [checkAll]⟩
  | cons c l ih =>
    obtain ⟨hfirst, hmem⟩ := @checkAccesses_sound report c.1 c.2 h
    obtain ⟨hrest, hmem'⟩ := ih hfirst
    refine ⟨hrest, fun p => (hmem' p).trans ?_⟩
    rw [hmem p, List.exists_mem_cons_iff, or_assoc]

end Checks

section Pairs
variable {final : ValueToAccessTypeMap} {mayAlias : Value → Value → Bool} {e e1 e2 : Entry}
  {c : Candidate} {i j : InstId}

theorem mem_take {l : List AccessType} {n : Nat} {a : AccessType} :
    a ∈ l.take n ↔ ∃ k, k < n ∧ l[k]? = some a := by
  rw [List.mem_iff_getElem?]
  refine exists_congr fun k => ?_
  rw [List.getElem?_take]
  by_cases hk : k < n
  · simp [hk]
  · simp [hk]

theorem mem_candidates : c ∈ candidates e1 e2 ↔ ∃ (k k' : Nat) (a b : AccessType), c = ((e1.1, a), (e2.1, b)) ∧
    e1.2[k]? = some a ∧ e2.2[k']? = some b ∧ (e1.1 = e2.1 → k' < k) := by
  unfold candidates
  rw [List.mem_flatMap]
  constructor
  · intro h
    obtain ⟨⟨a, k⟩, ha, hc⟩ := h
    obtain ⟨b, hb, rfl⟩ := List.mem_map.mp hc
    rw [List.mem_zipIdx_iff_getElem?] at ha
    split at hb
    · obtain ⟨k', hk', hb⟩ := mem_take.mp hb
      exact ⟨k, k', a, b, rfl, ha, hb, fun _ => hk'⟩
    · rename_i hne
      obtain ⟨k', hb⟩ := List.mem_iff_getElem?.mp hb
      exact ⟨k, k', a, b, rfl, ha, hb, fun heq => absurd heq hne⟩
  · intro h
    obtain ⟨k, k', a, b, rfl, ha, hb, hk⟩ := h
    refine ⟨(a, k), List.mem_zipIdx_iff_getElem?.mpr ha, List.mem_map.mpr ⟨b, ?_, rfl⟩⟩
    split
    · rename_i heq
      exact mem_take.mpr ⟨k', hk heq, hb⟩
    · exact List.mem_of_getElem? hb

theorem mem_aliasCandidates {before rest : List Entry} : c ∈ aliasCandidates mayAlias before rest ↔
    ∃ l e l', rest = l ++ e :: l' ∧ ∃ e2 ∈ before ++ l, mayAlias e.1 e2.1 = true ∧
      c ∈ candidates e e2 := by
  induction rest generalizing before with
  | nil => simp [aliasCandidates]
  | cons e rest ih =>
    rw [aliasCandidates, List.mem_append, ih, List.mem_flatMap]
    constructor
    · intro h
      rcases h with h | h
      · obtain ⟨e2, he2, hc⟩ := h
        split at hc
        · rename_i halias
          exact ⟨[], e, rest, rfl, e2, by simpa using he2, halias, hc⟩
        · cases hc
      · obtain ⟨l, e', l', rfl, e2, he2, h⟩ := h
        exact ⟨e :: l, e', l', rfl, e2, by simpa using he2, h⟩
    · intro h
      obtain ⟨l, e', l', heq, e2, he2, halias, hc⟩ := h
      cases l with
      | nil =>
        obtain ⟨rfl, rfl⟩ := List.cons.inj heq
        refine .inl ⟨e2, by simpa using he2, ?_⟩
        rw [if_pos halias]
        exact hc
      | cons e'' l =>
        obtain ⟨rfl, rfl⟩ := List.cons.inj heq
        exact .inr ⟨l, e', l', rfl, e2, by simpa using he2, halias, hc⟩

/-- All the pairs of records that are checked. -/
def allCandidates (mayAlias : Value → Value → Bool) (final : ValueToAccessTypeMap) :
    List Candidate :=
  sameValueCandidates final.entries ++ aliasCandidates mayAlias [] final.entries

theorem reportLevel1Races_eq :
    reportLevel1Races true mayAlias final = checkAll (allCandidates mayAlias final) {} := by
  unfold reportLevel1Races
  dsimp only
  rw [if_pos rfl, sameValueRaces_eq, aliasRaces_eq, allCandidates, checkAll_append]

/-- The candidates are pairs of two records on one value or on two that may alias. -/
theorem racy_of_candidate (hc : c ∈ allCandidates mayAlias final)
    (hconflict : Conflict c.1.2 c.2.2) :
    Racy final mayAlias c.1.2.instruction c.2.2.instruction := by
  have hracy : ∀ {e1 e2 : Entry}, e1 ∈ final.entries → e2 ∈ final.entries →
      c ∈ candidates e1 e2 → (e1.1 = e2.1 ∨ mayAlias e1.1 e2.1 = true) →
      Racy final mayAlias c.1.2.instruction c.2.2.instruction := by
    intro e1 e2 he1 he2 hc hvalues
    obtain ⟨k, k', a, b, rfl, ha, hb, hk⟩ := mem_candidates.mp hc
    refine ⟨e1.1, k, a, e2.1, k', b, ⟨e1.2, AList.mem_lookup_iff.mpr he1, ha⟩,
      ⟨e2.2, AList.mem_lookup_iff.mpr he2, hb⟩, fun heq => ?_, hvalues, hconflict, rfl, rfl⟩
    obtain ⟨hv, rfl⟩ := Prod.mk.inj heq
    exact Nat.lt_irrefl _ (hk hv)
  rcases List.mem_append.mp hc with hc | hc
  · obtain ⟨e, he, hc⟩ := List.mem_flatMap.mp hc
    split at hc
    · cases hc
    · exact hracy he he hc (.inl rfl)
  · obtain ⟨l, e, l', heq, e2, he2, halias, hc⟩ := mem_aliasCandidates.mp hc
    have he : e ∈ final.entries := by simp [heq]
    have he2 : e2 ∈ final.entries := by
      rw [heq]
      exact List.mem_append_left _ he2
    exact hracy he he2 hc (.inr halias)

/-- Two different records on one value are a candidate, the later one first. -/
theorem candidate_same {v : Value} {k k' : Nat} {a b : AccessType} (ha : IsRecord final v k a)
    (hb : IsRecord final v k' b) (hk : k' < k) :
    ((v, a), (v, b)) ∈ allCandidates mayAlias final := by
  obtain ⟨accesses, hlookup, ha⟩ := ha
  obtain ⟨accesses', hlookup', hb⟩ := hb
  obtain rfl : accesses' = accesses := Option.some.inj (hlookup'.symm.trans hlookup)
  refine List.mem_append_left _ (List.mem_flatMap.mpr
    ⟨⟨v, accesses'⟩, AList.mem_lookup_iff.mp hlookup, ?_⟩)
  have hlength := (List.getElem?_eq_some_iff.mp ha).1
  rw [if_neg (by dsimp only; omega)]
  exact mem_candidates.mpr ⟨k, k', a, b, rfl, ha, hb, fun _ => hk⟩

/-- Two records on two values that may alias are a candidate one way round. -/
theorem candidate_alias (hsymm : ∀ v v', mayAlias v v' = mayAlias v' v) {v v' : Value}
    {k k' : Nat} {a b : AccessType} (ha : IsRecord final v k a) (hb : IsRecord final v' k' b)
    (hne : v ≠ v') (halias : mayAlias v v' = true) :
    ((v, a), (v', b)) ∈ allCandidates mayAlias final ∨
      ((v', b), (v, a)) ∈ allCandidates mayAlias final := by
  obtain ⟨accesses, hlookup, ha⟩ := ha
  obtain ⟨accesses', hlookup', hb⟩ := hb
  obtain ⟨l, l', heq⟩ := List.append_of_mem (AList.mem_lookup_iff.mp hlookup)
  have hmem := AList.mem_lookup_iff.mp hlookup'
  rw [heq] at hmem
  rcases List.mem_append.mp hmem with hmem | hmem
  · refine .inl (List.mem_append_right _ (mem_aliasCandidates.mpr ⟨l, _, l', heq, _, hmem, halias, ?_⟩))
    exact mem_candidates.mpr ⟨k, k', a, b, rfl, ha, hb, fun heq => absurd heq hne⟩
  · rcases List.mem_cons.mp hmem with hmem | hmem
    · exact absurd (Sigma.mk.inj hmem).1.symm hne
    · obtain ⟨l₂, l₃, rfl⟩ := List.append_of_mem hmem
      refine .inr (List.mem_append_right _ (mem_aliasCandidates.mpr
        ⟨l ++ ⟨v, accesses⟩ :: l₂, ⟨v', accesses'⟩, l₃, by simp [heq], ⟨v, accesses⟩, by simp, ?_, ?_⟩))
      · rw [hsymm]
        exact halias
      · exact mem_candidates.mpr ⟨k', k, b, a, rfl, hb, ha, fun heq => absurd heq.symm hne⟩

/-- Every racing pair is checked one way round. -/
theorem candidate_of_racy (hsymm : ∀ v v', mayAlias v v' = mayAlias v' v)
    (h : Racy final mayAlias i j) : ∃ c ∈ allCandidates mayAlias final,
      Conflict c.1.2 c.2.2 ∧ s(i, j) = s(c.1.2.instruction, c.2.2.instruction) := by
  obtain ⟨v, k, a, v', k', b, ha, hb, hne, hvalues, hconflict, rfl, rfl⟩ := h
  by_cases hv : v = v'
  · subst hv
    rcases Nat.lt_trichotomy k k' with hk | hk | hk
    · exact ⟨_, candidate_same hb ha hk, hconflict.symm, Sym2.eq_swap⟩
    · exact absurd (by rw [hk]) hne
    · exact ⟨_, candidate_same ha hb hk, hconflict, rfl⟩
  · rcases candidate_alias hsymm ha hb hv (hvalues.resolve_left hv) with hc | hc
    · exact ⟨_, hc, hconflict, rfl⟩
    · exact ⟨_, hc, hconflict.symm, Sym2.eq_swap⟩

theorem Racy.symm (hsymm : ∀ v v', mayAlias v v' = mayAlias v' v) (h : Racy final mayAlias i j) :
    Racy final mayAlias j i := by
  obtain ⟨v, k, a, v', k', b, ha, hb, hne, hvalues, hconflict, hi, hj⟩ := h
  refine ⟨v', k', b, v, k, a, hb, ha, hne.symm, ?_, hconflict.symm, hj, hi⟩
  rw [← hsymm]
  exact hvalues.imp_left Eq.symm

theorem sound_empty : Sound {} := ⟨fun i j => by simp [pairs], List.nodup_nil, rfl⟩

theorem sound_reportLevel1Races : Sound (reportLevel1Races true mayAlias final) := by
  rw [reportLevel1Races_eq]
  exact (checkAll_sound sound_empty).1

/-- The pairs of the report are the racing ones. -/
theorem mem_pairs (hsymm : ∀ v v', mayAlias v v' = mayAlias v' v) :
    s(i, j) ∈ pairs (reportLevel1Races true mayAlias final) ↔ Racy final mayAlias i j := by
  rw [reportLevel1Races_eq, (checkAll_sound sound_empty).2]
  constructor
  · intro h
    rcases h with hpair | ⟨c, hc, hconflict, heq⟩
    · cases hpair
    · rcases Sym2.eq_iff.mp heq with ⟨rfl, rfl⟩ | ⟨rfl, rfl⟩
      · exact racy_of_candidate hc hconflict
      · exact (racy_of_candidate hc hconflict).symm hsymm
  · intro h
    exact .inr (candidate_of_racy hsymm h)

/-- Without alias analysis it is as if no two values were aliases. -/
theorem reportLevel1Races_false :
    reportLevel1Races false mayAlias final = reportLevel1Races true (fun _ _ => false) final := by
  have hnone : ∀ before rest, aliasCandidates (fun _ _ => false) before rest = [] := by
    intro before rest
    induction rest generalizing before with
    | nil => rfl
    | cons e rest ih => simp [aliasCandidates, ih]
  rw [reportLevel1Races_eq, allCandidates, hnone, List.append_nil, ← sameValueRaces_eq]
  rfl

/-- With a symmetric alias relation an unordered pair of instructions is reported once
if two conflicting records make it racy, and not at all otherwise, and `raceCount`
counts the pairs. -/
theorem reported_once (hsymm : ∀ v v', mayAlias v v' = mayAlias v' v)
    (final : ValueToAccessTypeMap) :
    (∀ i j, (Racy final mayAlias i j →
        (pairs (reportLevel1Races true mayAlias final)).count s(i, j) = 1) ∧
      (¬ Racy final mayAlias i j →
        (pairs (reportLevel1Races true mayAlias final)).count s(i, j) = 0)) ∧
    (reportLevel1Races true mayAlias final).raceCount =
      (reportLevel1Races true mayAlias final).instrumentCache.length := by
  refine ⟨fun i j => ⟨fun hracy => ?_, fun hracy => ?_⟩, ?_⟩
  · exact List.count_eq_one_of_mem sound_reportLevel1Races.nodup ((mem_pairs hsymm).mpr hracy)
  · exact List.count_eq_zero_of_not_mem fun hpair => hracy ((mem_pairs hsymm).mp hpair)
  · rw [sound_reportLevel1Races.count]
    exact List.length_map _

end Pairs

/-- A store of `g` and a load through a parameter, without locks. -/
def unguarded : ValueToAccessTypeMap :=
  ((({} : Worker).record (.global "g") ⟨true, true, ⟨"main", 0, 0⟩, ∅⟩).record
    (.argument "worker" 0) ⟨false, true, ⟨"worker", 0, 0⟩, ∅⟩).valueToAccessTypeMap

theorem unguarded_racy :
    Racy unguarded (fun _ _ => true) ⟨"main", 0, 0⟩ ⟨"worker", 0, 0⟩ :=
  ⟨.global "g", 0, ⟨true, true, ⟨"main", 0, 0⟩, ∅⟩, .argument "worker" 0, 0,
    ⟨false, true, ⟨"worker", 0, 0⟩, ∅⟩, ⟨_, rfl, rfl⟩, ⟨_, rfl, rfl⟩, by decide,
    .inr rfl, ⟨rfl, Finset.disjoint_empty_left _⟩, rfl, rfl⟩

theorem reported_once_unguarded :
    (pairs (reportLevel1Races true (fun _ _ => true) unguarded)).count
      s(⟨"main", 0, 0⟩, ⟨"worker", 0, 0⟩) = 1 ∧
    (reportLevel1Races true (fun _ _ => true) unguarded).raceCount =
      (reportLevel1Races true (fun _ _ => true) unguarded).instrumentCache.length := by
  obtain ⟨hpairs, hcount⟩ := @reported_once (fun _ _ => true) (fun _ _ => rfl) unguarded
  exact ⟨(hpairs _ _).1 unguarded_racy, hcount⟩

end Lockout.Strator.Races
