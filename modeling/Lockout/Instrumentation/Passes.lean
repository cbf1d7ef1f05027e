import Lockout.Instrumentation.Locations
import Lockout.Strator.State

/-! # The instrumentation passes

`LockInstrumenter` and `MemInstrumenter` walk over a module and put a call of a hook
before and after every instruction they look for, with the index of its source
location. Each run starts with a fresh pass object from the file that the run before
has left. The calls of `initialize` and `finalize` in `main`, and the casts to `void*`,
are left out. -/

namespace Lockout.Instrumentation.Passes
open Std
open Lockout.Lib.TextStream Lockout.Instrumentation.Locations
open Lockout.Strator.Program
open Lockout.Strator.State (calledFunction)
open Lockout.LockTracer.Threads (Location)

inductive Hook
  | beforeLock
  | afterLock
  | beforeUnlock
  | afterUnlock
  | beforeStore
  | afterStore
  deriving DecidableEq

/-- An instruction of the program, or a call that a pass has inserted. -/
inductive Code
  | original (op : Opcode)
  | hook (h : Hook) (arg : Value) (loc : Location)
  deriving DecidableEq

/-- An instruction with its debug location. -/
structure Site where
  code : Code
  file : String := ""
  line : Nat := 0

structure SourceModule where
  /-- The blocks of each function. -/
  functions : List (String × List (List Site))
  /-- `getTypeByName("union.pthread_mutex_t")` finds a type. -/
  hasMutexType : Bool := true

namespace SourceModule

def blocks (m : SourceModule) : List (List Site) := m.functions.flatMap fun f => f.2

def sites (m : SourceModule) : List Site :=
  m.functions.flatMap fun f => f.2.flatMap fun sites => sites

/-- No pass has been over the module yet. -/
def Pristine (m : SourceModule) : Prop := ∀ site ∈ m.sites, ∃ op, site.code = .original op

/-- No source file has white space in its name. -/
def CleanNames (m : SourceModule) : Prop :=
  ∀ site ∈ m.sites, ∀ c ∈ site.file.toList, isSpace c = false

end SourceModule

inductive Pass
  | lockInstrumenter
  | memInstrumenter
  deriving DecidableEq

/-- The function that is called directly, with its first argument. -/
def directCall : Code → Option (String × Value)
  | .original (.call callee (arg :: _)) => (calledFunction callee).map fun f => (f, arg)
  | _ => none

/-- The hooks `LockInstrumenter` puts around a direct call of one of its two functions. -/
def lockHooks (code : Code) : Option (Hook × Hook × Value) :=
  (directCall code).bind fun (f, arg) =>
    if f = "pthread_mutex_lock" then some (.beforeLock, .afterLock, arg)
    else if f = "pthread_mutex_unlock" then some (.beforeUnlock, .afterUnlock, arg)
    else none

/-- The hooks `MemInstrumenter` puts around a store. Its branch for loads tests for a
store again and is never taken. -/
def memHooks : Code → Option (Hook × Hook × Value)
  | .original (.store _ pointer) => some (.beforeStore, .afterStore, pointer)
  | _ => none

def Pass.hooks : Pass → Code → Option (Hook × Hook × Value)
  | .lockInstrumenter => lockHooks
  | .memInstrumenter => memHooks

/-- `LockInstrumenter` leaves a module without mutexes alone. -/
def Pass.appliesTo : Pass → SourceModule → Bool
  | .lockInstrumenter, m => m.hasMutexType
  | .memInstrumenter, _ => true

section Rewriting
variable (io : Iostream) (hooks : Code → Option (Hook × Hook × Value))

def rewriteSite (site : Site) (t : LocationTable) : List Site × LocationTable :=
  match hooks site.code with
  | none => ([site], t)
  | some (before, after, arg) =>
    let (loc, t) := t.getLocationIndex (location io site.file site.line)
    ([{ code := .hook before arg loc }, site, { code := .hook after arg loc }], t)

/-- The walk over the elements of a list, from left to right. -/
def rewriteEach {α β : Type} (rewrite : α → LocationTable → β × LocationTable) :
    List α → LocationTable → List β × LocationTable
  | [], t => ([], t)
  | a :: as, t =>
    let (b, t) := rewrite a t
    let (bs, t) := rewriteEach rewrite as t
    (b :: bs, t)

def rewriteBlock (sites : List Site) (t : LocationTable) : List Site × LocationTable :=
  let (parts, t) := rewriteEach (rewriteSite io hooks) sites t
  (parts.flatten, t)

def rewriteFunction (f : String × List (List Site)) (t : LocationTable) :
    (String × List (List Site)) × LocationTable :=
  let (blocks, t) := rewriteEach (rewriteBlock io hooks) f.2 t
  ((f.1, blocks), t)

end Rewriting

/-- The part of `runOnModule` between `initLocationIndexMap` and `printLocationIndexMap`. -/
def runOnModule (io : Iostream) (pass : Pass) (m : SourceModule) (t : LocationTable) :
    SourceModule × LocationTable :=
  if pass.appliesTo m then
    let (functions, t) := rewriteEach (rewriteFunction io pass.hooks) m.functions t
    ({ m with functions := functions }, t)
  else (m, t)

/-- The end of `runOnModule`: `LockInstrumenter` does not print an empty table. -/
def save (io : Iostream) (pass : Pass) (t : LocationTable) (file : Option (List Char)) :
    Option (List Char) :=
  if pass = .lockInstrumenter ∧ t.locNum = 0 then file else some (printLocationIndexMap io t)

/-! ## The tables of a run -/

/-- The location asked for at an instruction. -/
def asked (io : Iostream) (hooks : Code → Option (Hook × Hook × Value)) (site : Site) : List String :=
  if (hooks site.code).isSome then [location io site.file site.line] else []

/-- The locations a pass asks for in a module, in this order. -/
def requests (io : Iostream) (pass : Pass) (m : SourceModule) : List String :=
  if pass.appliesTo m then m.sites.flatMap (asked io pass.hooks) else []

section Requests
variable {io : Iostream} {hooks : Code → Option (Hook × Hook × Value)} {t : LocationTable}

/-- What a walk does to the table is what it does at each element in turn. -/
theorem rewriteEach_table {α β : Type} {rewrite : α → LocationTable → β × LocationTable}
    {asked : α → List String}
    (h : ∀ a t, (rewrite a t).2 = (asked a).foldl LocationTable.allocate t) (as : List α) :
    (rewriteEach rewrite as t).2 = (as.flatMap asked).foldl LocationTable.allocate t := by
  induction as generalizing t with
  | nil => rfl
  | cons a as ih =>
    rw [List.flatMap_cons, List.foldl_append, ← h]
    exact ih

theorem rewriteSite_table (site : Site) (t : LocationTable) :
    (rewriteSite io hooks site t).2 = (asked io hooks site).foldl LocationTable.allocate t := by
  unfold rewriteSite asked
  split
  · rename_i hnone
    simp [hnone]
  · rename_i hsome
    simp [hsome, LocationTable.getLocationIndex]

theorem runOnModule_table (pass : Pass) (m : SourceModule) :
    (runOnModule io pass m t).2 = (requests io pass m).foldl LocationTable.allocate t := by
  have hblock : ∀ (sites : List Site) t, (rewriteBlock io pass.hooks sites t).2 =
      (sites.flatMap (asked io pass.hooks)).foldl LocationTable.allocate t := fun sites t =>
    rewriteEach_table rewriteSite_table sites
  have hfunction : ∀ f t, (rewriteFunction io pass.hooks f t).2 =
      (f.2.flatMap fun sites => sites.flatMap (asked io pass.hooks)).foldl
        LocationTable.allocate t := fun f t => rewriteEach_table hblock f.2
  unfold runOnModule requests SourceModule.sites
  split
  · rw [List.flatMap_assoc]
    simp only [List.flatMap_assoc]
    exact rewriteEach_table hfunction m.functions
  · rfl

end Requests

/-! ## Sequences of runs -/

/-- The tables of a run, from the loaded one to the printed one. -/
def passTables (io : Iostream) (pass : Pass) (m : SourceModule) (t : LocationTable) :
    List LocationTable :=
  (requests io pass m).scanl LocationTable.allocate t

/-- What a sequence of runs has gone through: every table, and the file as it is. -/
structure Session where
  tables : List LocationTable := []
  file : Option (List Char) := none

def Session.run (io : Iostream) (left : Nat → Int) (s : Session) (r : Pass × SourceModule) : Session :=
  let t := initLocationIndexMap io left s.file
  ⟨s.tables ++ passTables io r.1 r.2 t, save io r.1 (runOnModule io r.1 r.2 t).2 s.file⟩

/-- The runs one after the other, the first one without a file. -/
def session (io : Iostream) (left : Nat → Int) (runs : List (Pass × SourceModule)) : Session :=
  runs.foldl (Session.run io left) {}

/-- The file has been printed from `t`, or there is none and `t` is empty. -/
def Saved (io : Iostream) (file : Option (List Char)) (t : LocationTable) : Prop :=
  (file = none ∧ Same {} t) ∨ ∃ t', file = some (printLocationIndexMap io t') ∧ Same t' t

/-- The state of a session whose last table is `t`. -/
structure Consistent (io : Iostream) (s : Session) (t : LocationTable) : Prop where
  bijective : Bijective t
  tokens : Tokens t
  saved : Saved io s.file t
  tables : ∀ u ∈ s.tables, Bijective u ∧ Extends u t
  stable : s.tables.Pairwise Extends
  last : ∀ u ∈ s.tables.getLast?, Same u t

section Sessions
variable {io : Iostream} {left : Nat → Int} {s : Session} {t t' : LocationTable}
  {file : Option (List Char)} {locations : List String}

theorem tokens_empty : Tokens {} := by
  intro loc i hi
  simp at hi

theorem same_init (hio : io.RoundTrip) (hs : Saved io file t) (ht : Bijective t) (htokens : Tokens t) :
    Same (initLocationIndexMap io left file) t := by
  rcases hs with ⟨rfl, hempty⟩ | ⟨t', rfl, hsame⟩
  · exact hempty
  · have hload : Same (initLocationIndexMap io left (some (printLocationIndexMap io t'))) t' :=
      initLocationIndexMap_print hio (ht.same hsame.symm) (htokens.same hsame.symm)
    exact ⟨fun loc => (hload.locIndex loc).trans (hsame.locIndex loc), hload.locNum.trans hsame.locNum⟩

theorem inverse_init (hio : io.RoundTrip) (hs : Saved io file t) (ht : Bijective t)
    (htokens : Tokens t) : Inverse (initLocationStringMap io left file) t := by
  rcases hs with ⟨rfl, hempty⟩ | ⟨t', rfl, hsame⟩
  · intro loc i
    rw [← hempty.locIndex]
    simp [initLocationStringMap, readFile_none]
  · intro loc i
    rw [← hsame.locIndex]
    exact initLocationStringMap_print hio (ht.same hsame.symm) (htokens.same hsame.symm) loc i

theorem requests_tokens (hio : io.RoundTrip) {pass : Pass} {m : SourceModule} (hm : m.CleanNames) :
    ∀ loc ∈ requests io pass m, IsToken loc.toList := by
  intro loc hloc
  unfold requests at hloc
  split at hloc
  · obtain ⟨site, hsite, hasked⟩ := List.mem_flatMap.mp hloc
    unfold asked at hasked
    split at hasked
    · rw [List.mem_singleton.mp hasked]
      exact isToken_location hio site.line (hm site hsite)
    · cases hasked
  · cases hloc

/-- The tables of one run, from `t` on. -/
structure Grows (t latest : LocationTable) (tables : List LocationTable) : Prop where
  each : ∀ u ∈ tables, Bijective u ∧ Extends t u ∧ Extends u latest
  stable : tables.Pairwise Extends
  last : tables.getLast? = some latest

theorem grows_scanl (ht : Bijective t) :
    Grows t (locations.foldl LocationTable.allocate t) (locations.scanl LocationTable.allocate t) := by
  induction locations generalizing t with
  | nil =>
    refine ⟨fun u hu => ?_, List.pairwise_singleton _ _, rfl⟩
    rw [List.mem_singleton.mp hu]
    exact ⟨ht, .refl t, .refl t⟩
  | cons loc locations ih =>
    obtain ⟨htables, hstable, hlast⟩ := ih (@Bijective.allocate _ loc ht)
    have hfirst : ∀ u ∈ locations.scanl LocationTable.allocate (t.allocate loc), Extends t u :=
      fun u hu => extends_allocate.trans (htables u hu).2.1
    rw [List.scanl_cons, List.foldl_cons]
    refine ⟨fun u hu => ?_, List.pairwise_cons.mpr ⟨hfirst, hstable⟩, ?_⟩
    · rcases List.mem_cons.mp hu with rfl | hu
      · have hmem := List.mem_of_getLast? hlast
        exact ⟨ht, .refl u, hfirst _ hmem⟩
      · exact ⟨(htables u hu).1, hfirst u hu, (htables u hu).2.2⟩
    · rw [List.getLast?_cons, hlast]
      rfl

theorem facts_foldl (ht : Bijective t) (htokens : Tokens t)
    (hlocations : ∀ loc ∈ locations, IsToken loc.toList) :
    Bijective (locations.foldl LocationTable.allocate t) ∧
      Tokens (locations.foldl LocationTable.allocate t) := by
  induction locations generalizing t with
  | nil => exact ⟨ht, htokens⟩
  | cons loc locations ih =>
    exact ih ht.allocate (htokens.allocate (hlocations loc List.mem_cons_self))
      fun loc hloc => hlocations loc (List.mem_cons_of_mem _ hloc)

/-- A table that has grown to an empty one was empty. -/
theorem same_of_empty (ht : Bijective t) (ht' : Bijective t') (h : Extends t t')
    (hempty : t'.locNum = 0) : Same t t' := by
  have hnone' : ∀ loc : String, t'.locIndex[loc]? = none := by
    intro loc
    rw [Option.eq_none_iff_forall_ne_some]
    intro i hi
    have := (ht'.range i).mp ⟨loc, hi⟩
    omega
  have hnone : ∀ loc : String, t.locIndex[loc]? = none := by
    intro loc
    rw [Option.eq_none_iff_forall_ne_some]
    intro i hi
    have hi' := h loc i hi
    rw [hnone'] at hi'
    cases hi'
  refine ⟨fun loc => by rw [hnone, hnone'], ?_⟩
  by_contra hne
  have hnonneg := ht.nonneg
  obtain ⟨loc, hloc⟩ := (ht.range 0).mpr (by omega)
  rw [hnone] at hloc
  cases hloc

theorem Consistent.run (hio : io.RoundTrip) (h : Consistent io s t) {pass : Pass}
    {m : SourceModule} (hm : m.CleanNames) : ∃ t', Consistent io (s.run io left (pass, m)) t' := by
  have hload : Same (initLocationIndexMap io left s.file) t :=
    same_init hio h.saved h.bijective h.tokens
  have hstart := h.bijective.same hload.symm
  obtain ⟨hbijective, htokens⟩ := facts_foldl hstart (h.tokens.same hload.symm)
    (@requests_tokens io hio pass m hm)
  obtain ⟨hnew, hstable, hlast⟩ :=
    @grows_scanl (initLocationIndexMap io left s.file) (requests io pass m) hstart
  refine ⟨_, hbijective, htokens, ?_, ?_, ?_, ?_⟩
  · rw [Session.run]
    dsimp only
    rw [runOnModule_table, save]
    split
    · rename_i hskip
      have hgrown := (hnew _ (List.mem_of_getLast? hlast)).2.1
      have hsame := same_of_empty h.bijective hbijective (hload.symm.extends.trans hgrown) hskip.2
      rcases h.saved with ⟨hfile, hempty⟩ | ⟨t', hfile, ht'⟩
      · exact .inl ⟨hfile, hempty.trans hsame⟩
      · exact .inr ⟨t', hfile, ht'.trans hsame⟩
    · exact .inr ⟨_, rfl, .refl _⟩
  · intro u hu
    rcases List.mem_append.mp hu with hu | hu
    · have hgrown := (hnew _ (List.mem_of_getLast? hlast)).2.1
      exact ⟨(h.tables u hu).1, (h.tables u hu).2.trans (hload.symm.extends.trans hgrown)⟩
    · exact ⟨(hnew u hu).1, (hnew u hu).2.2⟩
  · refine List.pairwise_append.mpr ⟨h.stable, hstable, fun u hu v hv => ?_⟩
    exact (h.tables u hu).2.trans (hload.symm.extends.trans (hnew v hv).2.1)
  · intro u hu
    have hu' : (s.tables ++ passTables io pass m (initLocationIndexMap io left s.file)).getLast? =
        some u := hu
    rw [List.getLast?_append, passTables, hlast] at hu'
    obtain rfl := Option.some.inj hu'
    exact .refl _

theorem consistent_new : Consistent io {} {} where
  bijective := bijective_empty
  tokens := tokens_empty
  saved := .inl ⟨rfl, .refl _⟩
  tables := nofun
  stable := .nil
  last := nofun

theorem consistent_session (hio : io.RoundTrip) {runs : List (Pass × SourceModule)}
    (hruns : ∀ r ∈ runs, r.2.CleanNames) (h : Consistent io s t) :
    ∃ t', Consistent io (runs.foldl (Session.run io left) s) t' := by
  induction runs generalizing s t with
  | nil => exact ⟨t, h⟩
  | cons r runs ih =>
    obtain ⟨t', h'⟩ := @Consistent.run io left s t hio h r.1 r.2 (hruns r List.mem_cons_self)
    exact ih (fun r hr => hruns r (List.mem_cons_of_mem _ hr)) h'

end Sessions

/-- Over any sequence of runs of the two passes every table is a bijection onto its
indices, an index that has been given away stays with its location in all later tables,
and the tracer loads the inverse of the last table. -/
theorem indices_stable {io : Iostream} (hio : io.RoundTrip) (left : Nat → Int)
    {runs : List (Pass × SourceModule)} (hruns : ∀ r ∈ runs, r.2.CleanNames) :
    (∀ t ∈ (session io left runs).tables, Bijective t) ∧
      (session io left runs).tables.Pairwise Extends ∧
      ∀ t ∈ (session io left runs).tables.getLast?,
        Inverse (initLocationStringMap io left (session io left runs).file) t := by
  obtain ⟨t, h⟩ := @consistent_session io left _ _ hio runs hruns consistent_new
  refine ⟨fun u hu => (h.tables u hu).1, h.stable, fun u hu => ?_⟩
  intro loc i
  rw [(h.last u hu).locIndex]
  exact inverse_init hio h.saved h.bijective h.tokens loc i

/-- A function that locks a mutex and stores, on two lines. -/
def locking : SourceModule where
  functions := [("main", [[
    ⟨.original (.call (.function "pthread_mutex_lock") [.global "m"]), "main.c", 12⟩,
    ⟨.original (.store (.constant "1") (.global "g")), "main.c", 13⟩]])]

theorem indices_stable_locking :
    (∀ t ∈ (session Lib.Numerals.standard (fun _ => 0)
        [(.lockInstrumenter, locking), (.memInstrumenter, locking)]).tables, Bijective t) ∧
      (session Lib.Numerals.standard (fun _ => 0)
        [(.lockInstrumenter, locking), (.memInstrumenter, locking)]).tables.Pairwise Extends ∧
      ∀ t ∈ (session Lib.Numerals.standard (fun _ => 0)
        [(.lockInstrumenter, locking), (.memInstrumenter, locking)]).tables.getLast?,
        Inverse (initLocationStringMap Lib.Numerals.standard (fun _ => 0)
          (session Lib.Numerals.standard (fun _ => 0)
            [(.lockInstrumenter, locking), (.memInstrumenter, locking)]).file) t := by
  have hclean : locking.CleanNames := by simp [SourceModule.CleanNames, SourceModule.sites, locking, isSpace]
  refine indices_stable Lib.Numerals.standard_roundTrip _ fun r hr => ?_
  rcases List.mem_cons.mp hr with rfl | hr
  · exact hclean
  · rw [List.mem_singleton.mp hr]
    exact hclean

end Lockout.Instrumentation.Passes
