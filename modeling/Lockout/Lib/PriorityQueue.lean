import Mathlib.Data.Multiset.AddSub
import Mathlib.Data.List.Sort

/-! # Priority queues

A priority queue with an order of its own among elements of one priority: which of them
is popped first is left to the implementation. -/

namespace Lockout.Lib

/-- An implementation of a priority queue whose least keys are popped first. -/
structure PriorityQueue (α : Type) (key : α → Nat) where
  Queue : Type
  empty : Queue
  push : α → Queue → Queue
  pop : Queue → Option (α × Queue)
  /-- What is in the queue. -/
  elems : Queue → Multiset α
  elems_empty : elems empty = 0
  elems_push : ∀ x q, elems (push x q) = x ::ₘ elems q
  elems_pop : ∀ {q x q'}, pop q = some (x, q') → elems q = x ::ₘ elems q'
  least_pop : ∀ {q x q'}, pop q = some (x, q') → ∀ y ∈ elems q, key x ≤ key y
  elems_of_pop_none : ∀ {q}, pop q = none → elems q = 0

namespace PriorityQueue
variable {α : Type} {key : α → Nat} (Q : PriorityQueue α key)

theorem mem_of_pop {x y : α} {q q' : Q.Queue} (h : Q.pop q = some (x, q'))
    (hy : y ∈ Q.elems q) : y = x ∨ y ∈ Q.elems q' := by
  rwa [Q.elems_pop h, Multiset.mem_cons] at hy

end PriorityQueue

section Lists
variable {α : Type} (key : α → Nat)

/-- The queue as a list that is kept in order. -/
def sortedQueue : PriorityQueue α key where
  Queue := { xs : List α // xs.Pairwise (Order.Preimage key (· ≤ ·)) }
  empty := ⟨[], List.Pairwise.nil⟩
  push x q := ⟨q.1.orderedInsert (Order.Preimage key (· ≤ ·)) x, q.2.orderedInsert x q.1⟩
  pop
    | ⟨[], _⟩ => none
    | ⟨x :: xs, h⟩ => some (x, ⟨xs, h.of_cons⟩)
  elems q := q.1
  elems_empty := rfl
  elems_push x q := Multiset.coe_eq_coe.mpr (List.perm_orderedInsert _ x q.1)
  elems_pop {q x q'} h := by
    obtain ⟨_ | ⟨y, ys⟩, hq⟩ := q
    · simp at h
    · obtain ⟨rfl, rfl⟩ := Prod.mk.inj (Option.some.inj h)
      rfl
  least_pop {q x q'} h y hy := by
    obtain ⟨_ | ⟨z, zs⟩, hq⟩ := q
    · simp at h
    · obtain ⟨rfl, rfl⟩ := Prod.mk.inj (Option.some.inj h)
      obtain rfl | hy := List.mem_cons.mp hy
      · exact le_rfl
      · exact (List.pairwise_cons.mp hq).1 y hy
  elems_of_pop_none {q} h := by
    obtain ⟨_ | ⟨z, zs⟩, hq⟩ := q
    · rfl
    · simp at h

end Lists

end Lockout.Lib
