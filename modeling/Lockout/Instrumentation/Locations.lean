import Mathlib.Data.Finset.Card
import Mathlib.Data.Int.Interval
import Lockout.Lib.Numerals
import Lockout.LockTracer.Threads

/-! # Location indices

The table that gives every source location a number, as both instrumenters keep it, and
the file `location-index-map.txt` through which they and the tracer pass it on. Both
passes have the same code for it. Indices and `locNum` are `int` in the source and integers
here; the two agree for tables of fewer than 2^31 locations. -/

namespace Lockout.Instrumentation.Locations
open Std
open Lockout.Lib.TextStream
open Lockout.LockTracer.Threads (Location)

abbrev LocationIndexMap := TreeMap String Int

structure LocationTable where
  locIndex : LocationIndexMap := ∅
  locNum : Int := 0

/-- The key of line `line` of `file`. -/
def location (io : Iostream) (file : String) (line : Nat) : String :=
  file ++ ":" ++ String.ofList (io.int.print line)

namespace LocationTable

/-- The table after `getLocationIndex`; a new location gets the next number. -/
def allocate (t : LocationTable) (location : String) : LocationTable :=
  if t.locIndex.contains location then t
  else ⟨t.locIndex.insert location t.locNum, t.locNum + 1⟩

/-- `getLocationIndex`: what it returns and the table after it. -/
def getLocationIndex (t : LocationTable) (location : String) : Int × LocationTable :=
  ((t.allocate location).locIndex.getD location 0, t.allocate location)

end LocationTable

/-! ## The file -/

def printEntry (io : Iostream) (p : String × Int) : List Char :=
  p.1.toList ++ '\t' :: (io.int.print p.2 ++ ['\n'])

/-- `printLocationIndexMap` of `MemInstrumenter`, and of `LockInstrumenter` where it does
not return at once. -/
def printLocationIndexMap (io : Iostream) (t : LocationTable) : List Char :=
  t.locIndex.toList.flatMap (printEntry io)

/-- `ifstream fin("location-index-map.txt")`; where there is no file the stream has failed. -/
def openFile : Option (List Char) → Stream
  | some text => ⟨text, false⟩
  | none => ⟨[], true⟩

/-- `while (fin >> str) { fin >> index; .. }`, with what the `k`-th index is when it
cannot be read. A round reads a word, so there are at most as many as characters. -/
def readPairs {α : Type} (io : Iostream) (left : Nat → Int) (body : α → String → Int → α) :
    Nat → Nat → Stream → α → α
  | 0, _, _, acc => acc
  | n + 1, k, fin, acc =>
    match fin.extract word with
    | (none, _) => acc
    | (some str, fin) =>
      let (index, fin) := fin.into io.int (left k)
      readPairs io left body n (k + 1) fin (body acc str index.value)

def readFile {α : Type} (io : Iostream) (left : Nat → Int) (body : α → String → Int → α)
    (file : Option (List Char)) (acc : α) : α :=
  readPairs io left body ((openFile file).text.length + 1) 0 (openFile file) acc

/-- `initLocationIndexMap`, on a fresh pass object. -/
def initLocationIndexMap (io : Iostream) (left : Nat → Int) (file : Option (List Char)) :
    LocationTable :=
  readFile io left (fun t str index => ⟨t.locIndex.insert str index, t.locNum + 1⟩) file {}

/-- `initLocationStringMap` of the tracer. -/
def initLocationStringMap (io : Iostream) (left : Nat → Int) (file : Option (List Char)) :
    TreeMap Location String :=
  readFile io left (fun locationString str loc => locationString.insert loc str) file ∅

/-! ## What an allocation keeps -/

/-- `locIndex` is a bijection onto `0..locNum-1`. -/
structure Bijective (t : LocationTable) : Prop where
  nonneg : 0 ≤ t.locNum
  range : ∀ i, (∃ loc : String, t.locIndex[loc]? = some i) ↔ 0 ≤ i ∧ i < t.locNum
  injective : ∀ (loc loc' : String) i,
    t.locIndex[loc]? = some i → t.locIndex[loc']? = some i → loc = loc'

/-- No index of `t` has changed or belongs to another location in `t'`. -/
def Extends (t t' : LocationTable) : Prop :=
  ∀ (loc : String) i, t.locIndex[loc]? = some i → t'.locIndex[loc]? = some i

/-- `locationString` is the inverse of `locIndex`. -/
def Inverse (locationString : TreeMap Location String) (t : LocationTable) : Prop :=
  ∀ (loc : String) (i : Location), locationString[i]? = some loc ↔ t.locIndex[loc]? = some i

/-- Two tables with the same entries. -/
structure Same (t t' : LocationTable) : Prop where
  locIndex : ∀ loc : String, t.locIndex[loc]? = t'.locIndex[loc]?
  locNum : t.locNum = t'.locNum

/-- All locations can be read back as words. -/
def Tokens (t : LocationTable) : Prop :=
  ∀ (loc : String) i, t.locIndex[loc]? = some i → IsToken loc.toList

section Allocation
variable {t t' t'' : LocationTable} {loc loc' : String}

theorem Extends.refl (t : LocationTable) : Extends t t := fun _ _ h => h

theorem Extends.trans (h : Extends t t') (h' : Extends t' t'') : Extends t t'' :=
  fun loc i hi => h' loc i (h loc i hi)

theorem Same.refl (t : LocationTable) : Same t t := ⟨fun _ => rfl, rfl⟩

theorem Same.trans (h : Same t t') (h' : Same t' t'') : Same t t'' :=
  ⟨fun loc => (h.locIndex loc).trans (h'.locIndex loc), h.locNum.trans h'.locNum⟩

theorem Same.symm (h : Same t t') : Same t' t := ⟨fun loc => (h.locIndex loc).symm, h.locNum.symm⟩

theorem Same.extends (h : Same t t') : Extends t t' := fun loc i hi => by rw [← h.locIndex, hi]

theorem Bijective.same (ht : Bijective t) (h : Same t t') : Bijective t' where
  nonneg := h.locNum ▸ ht.nonneg
  range i := by
    simp only [← h.locIndex, ← h.locNum]
    exact ht.range i
  injective loc loc' i := by
    rw [← h.locIndex, ← h.locIndex]
    exact ht.injective loc loc' i

theorem Tokens.same (ht : Tokens t) (h : Same t t') : Tokens t' := fun loc i hi =>
  ht loc i (by rw [h.locIndex, hi])

theorem bijective_empty : Bijective {} where
  nonneg := Int.le_refl 0
  range i := by
    simp
  injective loc loc' i h := by simp at h

theorem getElem?_allocate : (t.allocate loc).locIndex[loc']? =
    if loc' = loc ∧ t.locIndex[loc]? = none then some t.locNum else t.locIndex[loc']? := by
  unfold LocationTable.allocate
  by_cases h : loc ∈ t.locIndex
  · simp [h]
  · have hnone : t.locIndex[loc]? = none := TreeMap.getElem?_eq_none h
    rw [if_neg (by simpa using h)]
    simp [TreeMap.getElem?_insert, hnone, @eq_comm _ loc loc']

theorem locNum_allocate : (t.allocate loc).locNum =
    if t.locIndex[loc]? = none then t.locNum + 1 else t.locNum := by
  unfold LocationTable.allocate
  by_cases h : loc ∈ t.locIndex
  · simp [h]
  · simp [h]

/-- A location that has a number keeps its table. -/
theorem extends_allocate : Extends t (t.allocate loc) := by
  intro loc' i hi
  rw [getElem?_allocate, if_neg]
  · exact hi
  · rintro ⟨rfl, hnone⟩
    rw [hnone] at hi
    cases hi

/-- The index that is returned is the one in the table afterwards. -/
theorem getElem?_getLocationIndex :
    (t.allocate loc).locIndex[loc]? = some (t.getLocationIndex loc).1 := by
  have hmem : loc ∈ (t.allocate loc).locIndex := by
    rw [TreeMap.mem_iff_isSome_getElem?, getElem?_allocate]
    cases t.locIndex[loc]? <;> simp
  rw [LocationTable.getLocationIndex, TreeMap.getD_eq_getD_getElem?]
  obtain ⟨i, hi⟩ := Option.isSome_iff_exists.mp (TreeMap.mem_iff_isSome_getElem?.mp hmem)
  rw [hi]
  rfl

theorem Bijective.allocate (h : Bijective t) : Bijective (t.allocate loc) := by
  by_cases hnew : t.locIndex[loc]? = none
  · have hentry : ∀ loc' : String, (t.allocate loc).locIndex[loc']? =
        if loc' = loc then some t.locNum else t.locIndex[loc']? := by
      intro loc'
      rw [getElem?_allocate]
      simp only [hnew, and_true]
    have hnum : (t.allocate loc).locNum = t.locNum + 1 := by rw [locNum_allocate, if_pos hnew]
    -- the new number is none of the old ones
    have hfresh : ∀ loc' : String, t.locIndex[loc']? ≠ some t.locNum := fun loc' h' =>
      absurd ((h.range _).mp ⟨loc', h'⟩).2 (Int.lt_irrefl _)
    refine ⟨by rw [hnum]; have := h.nonneg; omega, fun i => ?_, fun l l' i hl hl' => ?_⟩
    · rw [hnum]
      constructor
      · rintro ⟨loc', hi⟩
        rw [hentry] at hi
        split at hi
        · obtain rfl := Option.some.inj hi
          have := h.nonneg
          omega
        · have := (h.range i).mp ⟨loc', hi⟩
          omega
      · rintro ⟨hpos, hlt⟩
        by_cases hi : i = t.locNum
        · exact ⟨loc, by rw [hentry, if_pos rfl, hi]⟩
        · obtain ⟨loc', hloc'⟩ := (h.range i).mpr ⟨hpos, by omega⟩
          exact ⟨loc', extends_allocate loc' i hloc'⟩
    · rw [hentry] at hl hl'
      split at hl
      · rename_i heq
        obtain rfl := Option.some.inj hl
        split at hl'
        · rename_i heq'
          rw [heq, heq']
        · exact absurd hl' (hfresh l')
      · split at hl'
        · obtain rfl := Option.some.inj hl'
          exact absurd hl (hfresh l)
        · exact h.injective l l' i hl hl'
  · have hsame : Same t (t.allocate loc) := by
      refine ⟨fun loc' => ?_, ?_⟩
      · rw [getElem?_allocate, if_neg fun hc => hnew hc.2]
      · rw [locNum_allocate, if_neg hnew]
    exact h.same hsame

theorem Tokens.allocate (h : Tokens t) (hloc : IsToken loc.toList) : Tokens (t.allocate loc) := by
  intro loc' i hi
  rw [getElem?_allocate] at hi
  split at hi
  · rename_i heq
    rw [heq.1]
    exact hloc
  · exact h loc' i hi

/-- A file name without white space makes a location that is one word. -/
theorem isToken_location {io : Iostream} (hio : io.RoundTrip) {file : String} (line : Nat)
    (hfile : ∀ c ∈ file.toList, isSpace c = false) : IsToken (location io file line).toList := by
  have hline := (hio.int.token line).2
  refine ⟨by simp [location], fun c hc => ?_⟩
  simp only [location, String.toList_append, String.toList_ofList, List.mem_append] at hc
  rcases hc with (hc | hc) | hc
  · exact hfile c hc
  · have hcolon : c = ':' := by simpa using hc
    rw [hcolon]
    rfl
  · exact hline c hc

end Allocation

/-! ## Loading a printed table -/

section Loading
variable {α : Type} {io : Iostream} {left : Nat → Int} {body : α → String → Int → α} {lead : List Char}
  {t : LocationTable}

/-- The reading loop goes through the entries that have been printed. -/
theorem readPairs_print (hio : io.RoundTrip) {l : List (String × Int)}
    (hl : ∀ p ∈ l, IsToken p.1.toList) (hlead : Blank lead) {n : Nat} (hn : l.length < n) {k : Nat}
    {acc : α} : readPairs io left body n k ⟨lead ++ l.flatMap (printEntry io), false⟩ acc =
      l.foldl (fun acc p => body acc p.1 p.2) acc := by
  induction l generalizing lead n k acc with
  | nil =>
    obtain ⟨n, rfl⟩ : ∃ n', n = n' + 1 := Nat.exists_eq_add_one.mpr hn
    have hnone := extract_blank (f := word) hlead
    rw [List.flatMap_nil, List.append_nil, readPairs]
    split
    · rfl
    · rename_i heq
      rw [heq] at hnone
      cases hnone
  | cons p l ih =>
    obtain ⟨n, rfl⟩ : ∃ n', n = n' + 1 :=
      Nat.exists_eq_add_one.mpr (Nat.zero_lt_of_lt hn)
    have hword : word.Spells (lead ++ (p :: l).flatMap (printEntry io)) p.1
        ('\t' :: (io.int.print p.2 ++ '\n' :: l.flatMap (printEntry io))) := by
      have hword := spells_word (hl p List.mem_cons_self) hlead (@atBreak_cons
        (io.int.print p.2 ++ '\n' :: l.flatMap (printEntry io)) '\t' rfl)
      simpa [printEntry] using hword
    have hindex : io.int.Spells ('\t' :: (io.int.print p.2 ++ '\n' :: l.flatMap (printEntry io))) p.2
        ('\n' :: l.flatMap (printEntry io)) :=
      hio.int.spells (blank_singleton (c := '\t') rfl) (atBreak_cons rfl)
    rw [readPairs, extract_of_spells hword]
    dsimp only
    rw [into_of_spells hindex, List.foldl_cons]
    exact ih (fun q hq => hl q (List.mem_cons_of_mem _ hq)) (blank_singleton (c := '\n') rfl)
      (Nat.lt_of_succ_lt_succ hn)

theorem length_le_print (l : List (String × Int)) :
    l.length ≤ (l.flatMap (printEntry io)).length := by
  induction l with
  | nil => exact Nat.zero_le _
  | cons p l ih =>
    have hpos : 0 < (printEntry io p).length := by simp [printEntry]
    rw [List.flatMap_cons, List.length_append, List.length_cons]
    omega

theorem mem_entries {p : String × Int} : p ∈ t.locIndex.toList ↔ t.locIndex[p.1]? = some p.2 :=
  TreeMap.mem_toList_iff_getElem?_eq_some

theorem readFile_print (hio : io.RoundTrip) (ht : Tokens t) {acc : α} :
    readFile io left body (some (printLocationIndexMap io t)) acc =
      t.locIndex.toList.foldl (fun acc p => body acc p.1 p.2) acc := by
  have htokens : ∀ p ∈ t.locIndex.toList, IsToken p.1.toList := fun p hp =>
    ht p.1 p.2 (mem_entries.mp hp)
  have hlength : t.locIndex.toList.length < (printLocationIndexMap io t).length + 1 :=
    Nat.lt_succ_of_le (length_le_print _)
  exact readPairs_print hio htokens blank_nil hlength

theorem readFile_none {acc : α} : readFile io left body none acc = acc := rfl

theorem nodup_locations : (t.locIndex.toList.map Prod.fst).Nodup := by
  rw [TreeMap.map_fst_toList_eq_keys]
  exact TreeMap.nodup_keys

theorem nodup_indices (ht : Bijective t) : (t.locIndex.toList.map Prod.snd).Nodup := by
  refine List.Nodup.map_on ?_ (List.Nodup.of_map _ nodup_locations)
  intro p hp q hq heq
  have hp := mem_entries.mp hp
  have hq := mem_entries.mp hq
  rw [heq] at hp
  exact Prod.ext (ht.injective _ _ _ hp hq) heq

/-- There are as many locations as indices. -/
theorem length_entries (ht : Bijective t) : (t.locIndex.toList.length : Int) = t.locNum := by
  have hset : (t.locIndex.toList.map Prod.snd).toFinset = Finset.Ico 0 t.locNum := by
    ext i
    rw [List.mem_toFinset, List.mem_map, Finset.mem_Ico, ← ht.range]
    constructor
    · rintro ⟨p, hp, rfl⟩
      exact ⟨p.1, mem_entries.mp hp⟩
    · rintro ⟨loc, hi⟩
      exact ⟨(loc, i), mem_entries.mpr hi, rfl⟩
  have hcard := List.toFinset_card_of_nodup (nodup_indices ht)
  rw [hset, Int.card_Ico, List.length_map] at hcard
  have := ht.nonneg
  omega

section Folds
variable {κ β : Type} [Ord κ] [TransOrd κ] [LawfulEqOrd κ] {key : String × Int → κ}
  {val : String × Int → β} {l : List (String × Int)} {map : TreeMap κ β} {a : κ} {b : β}

/-- Inserting entries with distinct keys makes a map of just these entries. -/
theorem getElem?_foldl_insert (hl : (l.map key).Nodup) :
    (l.foldl (fun map p => map.insert (key p) (val p)) (∅ : TreeMap κ β))[a]? = some b ↔
      ∃ p ∈ l, key p = a ∧ val p = b := by
  have hgen : ∀ map : TreeMap κ β, (∀ p ∈ l, map[key p]? = none) →
      ((l.foldl (fun map p => map.insert (key p) (val p)) map)[a]? = some b ↔
        map[a]? = some b ∨ ∃ p ∈ l, key p = a ∧ val p = b) := by
    induction l with
    | nil => simp
    | cons p l ih =>
      intro map hnone
      obtain ⟨hp, hl⟩ := List.nodup_cons.mp hl
      have hkeys : ∀ q ∈ l, (map.insert (key p) (val p))[key q]? = none := by
        intro q hq
        have hne : key p ≠ key q := fun heq => hp (List.mem_map.mpr ⟨q, hq, heq.symm⟩)
        rw [TreeMap.getElem?_insert, if_neg (by simpa using hne)]
        exact hnone q (List.mem_cons_of_mem _ hq)
      rw [List.foldl_cons, ih hl _ hkeys, TreeMap.getElem?_insert, List.exists_mem_cons_iff]
      by_cases ha : key p = a
      · subst ha
        simp [hnone p List.mem_cons_self]
      · simp [ha]
  rw [hgen ∅ fun p _ => by simp]
  simp

end Folds

/-- A printed table whose locations are words is loaded entry by entry. -/
theorem initLocationIndexMap_tokens (hio : io.RoundTrip) (htokens : Tokens t) :
    (∀ loc : String, (initLocationIndexMap io left (some (printLocationIndexMap io t))).locIndex[loc]? =
        t.locIndex[loc]?) ∧
      (initLocationIndexMap io left (some (printLocationIndexMap io t))).locNum =
        t.locIndex.toList.length := by
  have hsplit : ∀ (l : List (String × Int)) (t : LocationTable),
      l.foldl (fun t p => (⟨t.locIndex.insert p.1 p.2, t.locNum + 1⟩ : LocationTable)) t =
        ⟨l.foldl (fun map p => map.insert p.1 p.2) t.locIndex, t.locNum + l.length⟩ := by
    intro l
    induction l with
    | nil => simp
    | cons p l ih =>
      intro t
      rw [List.foldl_cons, List.foldl_cons, ih, List.length_cons]
      congr 1
      push_cast
      omega
  rw [initLocationIndexMap, readFile_print hio htokens, hsplit]
  refine ⟨fun loc => ?_, Int.zero_add _⟩
  refine Option.ext fun i => ?_
  rw [getElem?_foldl_insert nodup_locations]
  constructor
  · rintro ⟨p, hp, rfl, rfl⟩
    exact mem_entries.mp hp
  · exact fun hi => ⟨(loc, i), mem_entries.mpr hi, rfl, rfl⟩

/-- A fresh pass object that loads a printed table has that table. -/
theorem initLocationIndexMap_print (hio : io.RoundTrip) (ht : Bijective t) (htokens : Tokens t) :
    Same (initLocationIndexMap io left (some (printLocationIndexMap io t))) t := by
  obtain ⟨hentries, hnum⟩ := initLocationIndexMap_tokens hio htokens
  exact ⟨hentries, hnum.trans (length_entries ht)⟩

/-- The tracer loads the inverse of a printed table. -/
theorem initLocationStringMap_print (hio : io.RoundTrip) (ht : Bijective t) (htokens : Tokens t) :
    Inverse (initLocationStringMap io left (some (printLocationIndexMap io t))) t := by
  intro loc i
  rw [initLocationStringMap, readFile_print hio htokens, getElem?_foldl_insert (nodup_indices ht)]
  constructor
  · rintro ⟨p, hp, rfl, rfl⟩
    exact mem_entries.mp hp
  · exact fun hi => ⟨(loc, i), mem_entries.mpr hi, rfl, rfl⟩

/-- What holds of every accumulator that is built from words holds of what is read. -/
theorem readPairs_invariant {P : α → Prop}
    (hbody : ∀ acc str i, IsToken str.toList → P acc → P (body acc str i)) {n k : Nat}
    {fin : Stream} {acc : α} (hacc : P acc) : P (readPairs io left body n k fin acc) := by
  induction n generalizing k fin acc with
  | zero => exact hacc
  | succ n ih =>
    rw [readPairs]
    split
    · exact hacc
    · rename_i str fin' hextract
      obtain ⟨-, rest, hspells, -⟩ := extract_eq_some (congrArg Prod.fst hextract)
      exact ih (hbody _ _ _ (isToken_of_spells hspells) hacc)

/-- All locations of a loaded table are words. -/
theorem tokens_init {file : Option (List Char)} : Tokens (initLocationIndexMap io left file) := by
  refine readPairs_invariant (P := Tokens) (fun t str index hstr ht loc i hi => ?_) ?_
  · rw [TreeMap.getElem?_insert] at hi
    split at hi
    · rename_i heq
      rw [← Std.compare_eq_iff_eq.mp heq]
      exact hstr
    · exact ht loc i hi
  · intro loc i hi
    simp at hi

end Loading

/-! ## Round trips -/

/-- All keys are those of source locations. -/
def LocationStrings (io : Iostream) (t : LocationTable) : Prop :=
  ∀ loc ∈ t.locIndex, ∃ file line, loc = location io file line

/-- No key has white space in it. -/
def NoSpaces (t : LocationTable) : Prop :=
  ∀ loc ∈ t.locIndex, ∀ c ∈ loc.toList, isSpace c = false

/-- Loading what has been printed makes the same map, and `locNum` counts its entries. -/
def Restored (io : Iostream) (left : Nat → Int) (t : LocationTable) : Prop :=
  (∀ loc : String, (initLocationIndexMap io left (some (printLocationIndexMap io t))).locIndex[loc]? =
      t.locIndex[loc]?) ∧
    (initLocationIndexMap io left (some (printLocationIndexMap io t))).locNum = t.locIndex.size

theorem tokens_of_restored {io : Iostream} {left : Nat → Int} {t : LocationTable}
    (h : Restored io left t) : Tokens t := by
  intro loc i hi
  rw [← h.1] at hi
  exact tokens_init loc i hi

theorem tokens_iff_noSpaces {io : Iostream} {t : LocationTable} (ht : LocationStrings io t) :
    Tokens t ↔ NoSpaces t := by
  constructor
  · intro h loc hloc
    obtain ⟨i, hi⟩ := Option.isSome_iff_exists.mp (TreeMap.mem_iff_isSome_getElem?.mp hloc)
    exact (h loc i hi).2
  · intro h loc i hi
    have hloc : loc ∈ t.locIndex := by rw [TreeMap.mem_iff_isSome_getElem?, hi]; rfl
    refine ⟨?_, h loc hloc⟩
    obtain ⟨file, line, rfl⟩ := ht loc hloc
    simp [location]

/-- A map of source locations comes back from its file just where no location has white
space in it. -/
theorem restored_iff {io : Iostream} (hio : io.RoundTrip) (left : Nat → Int) (t : LocationTable)
    (ht : LocationStrings io t) : Restored io left t ↔ NoSpaces t := by
  constructor
  · exact fun h => (tokens_iff_noSpaces ht).mp (tokens_of_restored h)
  · intro h
    obtain ⟨hentries, hnum⟩ := initLocationIndexMap_tokens hio ((tokens_iff_noSpaces ht).mpr h)
    exact ⟨hentries, hnum.trans (congrArg Int.ofNat TreeMap.length_toList)⟩

/-- One location of a file with a space in its name. -/
def spaced : LocationTable := ⟨(∅ : LocationIndexMap).insert "my file.c:3" 0, 1⟩

theorem locationStrings_spaced : LocationStrings Lib.Numerals.standard spaced := by
  intro loc hloc
  have hkey : "my file.c:3" = loc := Std.compare_eq_iff_eq.mp (by simpa [spaced] using hloc)
  exact ⟨"my file.c", 3, hkey.symm⟩

theorem restored_iff_spaced : LocationStrings Lib.Numerals.standard spaced ∧
    (Restored Lib.Numerals.standard (fun _ => 0) spaced ↔ NoSpaces spaced) :=
  ⟨locationStrings_spaced, restored_iff Lib.Numerals.standard_roundTrip _ _ locationStrings_spaced⟩

theorem spaced_not_restored : ¬ ∀ (io : Iostream) (_ : io.RoundTrip) (left : Nat → Int)
    (t : LocationTable), LocationStrings io t → Restored io left t := by
  intro hall
  have htokens := tokens_of_restored (hall _ Lib.Numerals.standard_roundTrip (fun _ => 0) spaced
    locationStrings_spaced)
  have hspace := (htokens "my file.c:3" 0 (by simp [spaced])).2 ' ' (by simp)
  simp [isSpace] at hspace

end Lockout.Instrumentation.Locations
