import Mathlib.Data.List.Nodup
import Mathlib.Data.List.Perm.Basic
import Mathlib.Logic.Function.Basic

/-! # Renumbering by a stable partition

Elements are listed anew, those with a property before the others and otherwise in the
old order. The new number of an element is its place in the new list. Elements with the
property that stand side by side keep standing side by side. A map over the elements is
carried over to the new numbers by a loop. -/

namespace Lockout.Lib.Renumbering
variable {α : Type} {p : α → Bool} {l pre run post : List α} {x : α} {k : Nat}

/-- The elements with the property, then the others. -/
def partitioned (p : α → Bool) (l : List α) : List α := l.filter p ++ l.filter fun x => !p x

theorem partitioned_perm (p : α → Bool) (l : List α) : (partitioned p l).Perm l :=
  List.filter_append_perm p l

theorem mem_partitioned : x ∈ partitioned p l ↔ x ∈ l := (partitioned_perm p l).mem_iff

/-- Of a run with the property the elements keep their distances. -/
theorem idxOf_run [DecidableEq α] (hnodup : (pre ++ (run ++ post)).Nodup)
    (hrun : ∀ x ∈ run, p x = true) (hk : run[k]? = some x) :
    (partitioned p (pre ++ (run ++ post))).idxOf x = (pre.filter p).length + k := by
  obtain ⟨hlt, rfl⟩ := List.getElem?_eq_some_iff.mp hk
  have hmem : run[k] ∈ run := List.getElem_mem hlt
  have hpre : run[k] ∉ pre.filter p := by
    intro hin
    exact (List.nodup_append.mp hnodup).2.2 _ (List.mem_of_mem_filter hin) _
      (List.mem_append_left _ hmem) rfl
  have hrunNodup : run.Nodup :=
    (List.nodup_append.mp (List.nodup_append.mp hnodup).2.1).1
  unfold partitioned
  rw [List.filter_append, List.filter_append, List.filter_eq_self.mpr hrun, List.append_assoc,
    List.idxOf_append_of_notMem hpre, List.append_assoc, List.idxOf_append_of_mem hmem,
    hrunNodup.idxOf_getElem k hlt]

section Maps
variable {β γ : Type} [DecidableEq β] {old : α → Option γ} {number : α → β} {i : α}

/-- Enter the value of `j`, if it has one, under its new number. -/
def enter (old : α → Option γ) (number : α → β) (new : β → Option γ) (j : α) : β → Option γ :=
  match old j with
  | some v => Function.update new (number j) (some v)
  | none => new

/-- A map under the new numbers, made by a loop over the elements. -/
def renumber (old : α → Option γ) (number : α → β) (l : List α) : β → Option γ :=
  l.foldl (enter old number) fun _ => none

theorem enter_self (new : β → Option γ) :
    enter old number new i (number i) = (old i).or (new (number i)) := by
  unfold enter
  cases old i with
  | none => rfl
  | some v => exact Function.update_self ..

theorem enter_of_ne {j : α} (h : number i ≠ number j) (new : β → Option γ) :
    enter old number new j (number i) = new (number i) := by
  unfold enter
  cases old j with
  | none => rfl
  | some v => exact Function.update_of_ne h ..

/-- The loop keeps the value of `i` once it is there, and enters it when it comes to `i`. -/
theorem foldl_enter (hinj : ∀ j, number i = number j → i = j) {new : β → Option γ}
    (hnew : new (number i) = none ∧ i ∈ l ∨ new (number i) = old i) :
    l.foldl (enter old number) new (number i) = old i := by
  induction l generalizing new with
  | nil =>
    obtain ⟨-, hi⟩ | hnew := hnew
    · cases hi
    · exact hnew
  | cons j l ih =>
    refine ih ?_
    by_cases hij : number i = number j
    · obtain rfl := hinj j hij
      right
      rw [enter_self]
      obtain ⟨hnone, -⟩ | hold := hnew
      · rw [hnone, Option.or_none]
      · rw [hold, Option.or_self]
    · rw [enter_of_ne hij]
      refine hnew.imp_left (And.imp_right fun hi => ?_)
      exact List.mem_of_ne_of_mem (fun heq => hij (congrArg number heq)) hi

/-- The map has the old value under a number that no other element has. -/
theorem renumber_number (hinj : ∀ j, number i = number j → i = j) (hi : i ∈ l) :
    renumber old number l (number i) = old i :=
  foldl_enter hinj (.inl ⟨rfl, hi⟩)

end Maps

end Lockout.Lib.Renumbering
