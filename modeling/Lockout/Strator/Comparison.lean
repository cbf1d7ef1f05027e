import Mathlib.Data.Char
import Mathlib.Data.List.Lex
import Mathlib.Data.Prod.Lex
import Lockout.Strator.RaceFile

/-! # The difference of two race reports

`compare.py` parses a report of Strator and one of RELAY and writes to `relay-racer.diff`
the races that only RELAY has. `addrace` keeps of a race its lines and variables; the
files, which the expressions read too, are dropped. The difference is taken of pairs of
lines, so a race of RELAY is left out as well when Strator has one at the same lines of
other files. -/

namespace Lockout.Strator.Comparison
open Lockout.Lib.Regex Lockout.Strator.RaceFile

/-! ## The script -/

/-- The tuple that `addrace` appends. -/
def tuple (race : Captures) : RaceTuple :=
  (Nat.ofDigitChars 10 (groupOf race "line1") 0, groupOf race "var1",
    Nat.ofDigitChars 10 (groupOf race "line2") 0, groupOf race "var2")

/-- The loop of `parseRacer` and of `parseRelay` over the matches. -/
def addraces (races : List Captures) : List RaceTuple :=
  races.foldl (fun ret race => addrace race ret) []

/-- `itemgetter(0,2,1,3)`. -/
def mykey (x : RaceTuple) : Nat ×ₗ Nat ×ₗ List Char ×ₗ List Char :=
  toLex (x.1, toLex (x.2.2.1, toLex (x.2.1, x.2.2.2)))

/-- `sorted(races, key=mykey)`. -/
def sorted (races : List RaceTuple) : List RaceTuple :=
  races.mergeSort fun x y => decide (mykey x ≤ mykey y)

/-- `(x[0],x[2])`. -/
def linePair (x : RaceTuple) : Nat × Nat := (x.1, x.2.2.1)

/-- `setDiff` from `raceRacer` and `raceRelay`. -/
def setDiff (raceRacer raceRelay : List RaceTuple) : Finset (Nat × Nat) :=
  let setRacer := (raceRacer.map linePair).toFinset
  let setRelay := (raceRelay.map linePair).toFinset
  (setRelay \ setRacer) \ setRacer.image Prod.swap

/-- An order in which the elements of a set may come when it is iterated over. -/
structure Iteration {α : Type} [DecidableEq α] (s : Finset α) where
  elements : List α
  nodup : elements.Nodup
  toFinset : elements.toFinset = s

/-- `diff` as it is when the loop over `setDiff` ends. -/
def collect {pairs : Finset (Nat × Nat)} (order : Iteration pairs) (raceRelay : List RaceTuple) :
    List RaceTuple :=
  order.elements.flatMap fun it => raceRelay.filter fun x => it.1 = x.1 ∧ it.2 = x.2.2.1

/-- The races in the order in which `relay-racer.diff` lists them. -/
def relayRacerDiff (racer relay : List Captures)
    (order : Iteration (setDiff (sorted (addraces racer)) (sorted (addraces relay)))) :
    List RaceTuple :=
  sorted (collect order (sorted (addraces relay)))

/-- What the script reads of `races.txt` is what it compares. -/
theorem addraces_findIter (text : List Char) : addraces (findIter reg 0 text) = parseRacer text :=
  rfl

/-! ## Where a race is -/

/-- File and line of the two accesses. -/
def locations (race : Captures) : (List Char × Nat) × (List Char × Nat) :=
  ((groupOf race "file1", (tuple race).1), (groupOf race "file2", (tuple race).2.2.1))

def lines (race : Captures) : Nat × Nat := linePair (tuple race)

/-- One of the races has its two accesses at the places of `race`, in either order. -/
def Found {α : Type} (places : Captures → α × α) (races : List Captures) (race : Captures) :
    Prop :=
  ∃ other ∈ races, places other = places race ∨ places other = (places race).swap

instance {α : Type} [DecidableEq α] {places : Captures → α × α} {races : List Captures} :
    DecidablePred (Found places races) :=
  fun _ => List.decidableBEx _ _

/-- Two races at the same locations are at the same lines. -/
theorem Found.lines {races : List Captures} {race : Captures} (h : Found locations races race) :
    Found lines races race := by
  have hlines : ∀ race, Comparison.lines race = (locations race).map Prod.snd Prod.snd :=
    fun _ => rfl
  obtain ⟨other, hother, hplaces⟩ := h
  refine ⟨other, hother, ?_⟩
  rw [hlines, hlines]
  obtain hsame | hswapped := hplaces
  · exact .inl (congrArg _ hsame)
  · rw [hswapped]
    exact .inr rfl

/-! ## What the difference lists -/

section Difference
variable {racer relay : List Captures} {race : Captures}

theorem addraces_eq (races : List Captures) : addraces races = races.map tuple := by
  have hloop : ∀ ret, races.foldl (fun ret race => addrace race ret) ret =
      ret ++ races.map tuple := by
    induction races with
    | nil => simp
    | cons race races ih =>
      intro ret
      rw [List.foldl_cons, ih, List.map_cons]
      exact List.append_assoc ret [tuple race] _
  exact hloop []

theorem sorted_perm (races : List RaceTuple) : (sorted races).Perm races :=
  List.mergeSort_perm ..

theorem mem_setDiff {raceRacer raceRelay : List RaceTuple} {p : Nat × Nat} :
    p ∈ setDiff raceRacer raceRelay ↔ p ∈ raceRelay.map linePair ∧
      p ∉ raceRacer.map linePair ∧ p.swap ∉ raceRacer.map linePair := by
  have himage : ∀ s : Finset (Nat × Nat), p ∈ s.image Prod.swap ↔ p.swap ∈ s := by
    intro s
    rw [Finset.mem_image]
    constructor
    · rintro ⟨q, hq, rfl⟩
      exact hq
    · exact fun hp => ⟨_, hp, p.swap_swap⟩
  simp only [setDiff, Finset.mem_sdiff, himage, List.mem_toFinset, and_assoc]

/-- Parts of a list, one for each of some keys, are together what has one of the keys. -/
theorem flatMap_filter_perm {α β : Type} [DecidableEq β] (key : α → β) (l : List α) {keys : List β}
    (h : keys.Nodup) :
    (keys.flatMap fun k => l.filter fun x => key x = k).Perm (l.filter fun x => key x ∈ keys) := by
  induction keys with
  | nil => simp
  | cons k keys ih =>
    obtain ⟨hk, hkeys⟩ := List.nodup_cons.mp h
    have hfirst : (l.filter fun x => key x ∈ k :: keys).filter (fun x => key x = k) =
        l.filter fun x => key x = k := by
      rw [List.filter_filter]
      refine List.filter_congr fun x _ => ?_
      by_cases hx : key x = k <;> simp [hx]
    have hrest : (l.filter fun x => key x ∈ k :: keys).filter (fun x => !decide (key x = k)) =
        l.filter fun x => key x ∈ keys := by
      rw [List.filter_filter]
      refine List.filter_congr fun x _ => ?_
      by_cases hx : key x = k
      · simp [hx, hk]
      · simp [hx]
    rw [List.flatMap_cons]
    refine ((ih hkeys).append_left _).trans ?_
    rw [← hfirst, ← hrest]
    exact List.filter_append_perm ..

/-- The loop collects the races with a pair in the set, in whatever order it goes. -/
theorem collect_perm {pairs : Finset (Nat × Nat)} (order : Iteration pairs)
    (raceRelay : List RaceTuple) :
    (collect order raceRelay).Perm (raceRelay.filter fun x => linePair x ∈ pairs) := by
  have hpart : ∀ it : Nat × Nat, (raceRelay.filter fun x => it.1 = x.1 ∧ it.2 = x.2.2.1) =
      raceRelay.filter fun x => linePair x = it := by
    intro it
    refine List.filter_congr fun x _ => ?_
    rw [decide_eq_decide, linePair, Prod.ext_iff]
    exact and_congr eq_comm eq_comm
  unfold collect
  simp only [hpart]
  refine (flatMap_filter_perm linePair raceRelay order.nodup).trans (.of_eq ?_)
  refine List.filter_congr fun x _ => ?_
  rw [decide_eq_decide, ← List.mem_toFinset, order.toFinset]

/-- The pair of a race of RELAY is in the difference where Strator has none at its lines. -/
theorem linePair_mem_setDiff (hrace : race ∈ relay) :
    linePair (tuple race) ∈ setDiff (sorted (addraces racer)) (sorted (addraces relay)) ↔
      ¬ Found lines racer race := by
  have hpairs : ∀ races p, p ∈ (sorted (addraces races)).map linePair ↔
      ∃ race ∈ races, lines race = p := by
    intro races p
    rw [((sorted_perm _).map linePair).mem_iff, addraces_eq, List.map_map, List.mem_map]
    rfl
  rw [mem_setDiff, hpairs, hpairs, hpairs]
  constructor
  · rintro ⟨-, hsame, hswapped⟩ ⟨other, hother, hlines | hlines⟩
    · exact hsame ⟨other, hother, hlines⟩
    · exact hswapped ⟨other, hother, hlines⟩
  · intro hnone
    exact ⟨⟨race, hrace, rfl⟩, fun ⟨other, hother, hlines⟩ => hnone ⟨other, hother, .inl hlines⟩,
      fun ⟨other, hother, hlines⟩ => hnone ⟨other, hother, .inr hlines⟩⟩

/-- The file lists the races of RELAY at whose lines Strator has none. -/
theorem relayRacerDiff_perm
    (order : Iteration (setDiff (sorted (addraces racer)) (sorted (addraces relay)))) :
    (relayRacerDiff racer relay order).Perm
      ((relay.filter fun race => ¬ Found lines racer race).map tuple) := by
  refine (sorted_perm _).trans ((collect_perm order _).trans (((sorted_perm _).filter _).trans ?_))
  have hfilter : (relay.filter fun race => linePair (tuple race) ∈
      setDiff (sorted (addraces racer)) (sorted (addraces relay))) =
      relay.filter fun race => ¬ Found lines racer race := by
    refine List.filter_congr fun race hrace => ?_
    rw [decide_eq_decide]
    exact linePair_mem_setDiff hrace
  rw [← hfilter, addraces_eq relay, List.filter_map]
  rfl

/-- The file lists just the races of RELAY that Strator has at no such locations, each as
often as RELAY has it, where Strator has a race at the locations of every race of RELAY
whose lines it has. -/
theorem lists_missed_iff (racer relay : List Captures)
    (order : Iteration (setDiff (sorted (addraces racer)) (sorted (addraces relay)))) :
    (relayRacerDiff racer relay order).Perm
        ((relay.filter fun race => ¬ Found locations racer race).map tuple) ↔
      ∀ race ∈ relay, Found lines racer race → Found locations racer race := by
  have hdiff := relayRacerDiff_perm order
  constructor
  · intro hperm race hrace hlines
    have hlength := (hdiff.symm.trans hperm).length_eq
    have hsub : (relay.filter fun race => ¬ Found lines racer race) =
        (relay.filter fun race => ¬ Found locations racer race).filter
          fun race => ¬ Found lines racer race := by
      rw [List.filter_filter]
      refine List.filter_congr fun race _ => ?_
      rw [← Bool.decide_and, decide_eq_decide]
      exact ⟨fun hnone => ⟨hnone, fun hfound => hnone hfound.lines⟩, And.left⟩
    rw [List.length_map, List.length_map, hsub, List.length_filter_eq_length_iff] at hlength
    by_contra hnone
    have hkept := hlength race (List.mem_filter.mpr ⟨hrace, decide_eq_true hnone⟩)
    exact of_decide_eq_true hkept hlines
  · intro hfound
    have hfilter : (relay.filter fun race => ¬ Found locations racer race) =
        relay.filter fun race => ¬ Found lines racer race := by
      refine List.filter_congr fun race hrace => ?_
      rw [decide_eq_decide]
      exact not_congr ⟨Found.lines, hfound race hrace⟩
    rw [hfilter]
    exact hdiff

end Difference

/-- A race between two lines of one file. -/
def raceIn (file line1 line2 : String) : Captures :=
  RaceText.captures {
    id := "0".toList
    var1 := "counter".toList
    var2 := "counter".toList
    access1 := ⟨"\n ".toList, file.toList, '.', line1.toList, "STORE".toList⟩
    access2 := ⟨"\n ".toList, file.toList, '.', line2.toList, "LOAD".toList⟩ }

/-- A race in `queue.c` hides one at the same lines of `log.c`. -/
theorem other_file_hides : ¬ ∀ racer relay
    (order : Iteration (setDiff (sorted (addraces racer)) (sorted (addraces relay)))),
    (relayRacerDiff racer relay order).Perm
      ((relay.filter fun race => ¬ Found locations racer race).map tuple) := by
  intro hall
  have hdiff := @relayRacerDiff_perm [raceIn "queue.c" "7" "9"] [raceIn "log.c" "7" "9"]
    ⟨_, Finset.nodup_toList _, Finset.toList_toFinset _⟩
  have hlength := (hdiff.symm.trans (hall _ _ _)).length_eq
  have hhidden : ([raceIn "log.c" "7" "9"].filter fun race =>
      ¬ Found lines [raceIn "queue.c" "7" "9"] race) = [] := rfl
  have hmissed : ([raceIn "log.c" "7" "9"].filter fun race =>
      ¬ Found locations [raceIn "queue.c" "7" "9"] race) = [raceIn "log.c" "7" "9"] := rfl
  rw [hhidden, hmissed] at hlength
  cases hlength

end Lockout.Strator.Comparison
