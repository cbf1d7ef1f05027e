import Mathlib.Data.List.Basic

/-! # Editing a list while a cursor walks over it

A loop from the beginning of a list to its end whose body may insert elements directly
before and after the cursor. What is inserted behind the cursor is visited too, so that
such a loop need not end; it is run with fuel, and `Yields` says that enough fuel gives
a result. -/

namespace Lockout.Lib.Editing

variable {α β σ : Type}

/-- A list with a place in it; the elements before the place are kept nearest first. -/
structure Cursor (α : Type) where
  before : List α
  here : α
  after : List α

def Cursor.insertBefore (x : α) (c : Cursor α) : Cursor α := { c with before := x :: c.before }

def Cursor.insertAfter (x : α) (c : Cursor α) : Cursor α := { c with after := x :: c.after }

/-- The loop over the elements from the cursor on, with a state that is passed along. -/
def walk (body : Cursor α → σ → Cursor α × σ) : Nat → List α → List α → σ → Option (List α × σ)
  | _, before, [], s => some (before.reverse, s)
  | 0, _, _ :: _, _ => none
  | n + 1, before, here :: after, s =>
    let (c, s) := body ⟨before, here, after⟩ s
    walk body n (c.here :: c.before) c.after s

/-- One element after the other, up to the first one without a result. -/
def each (f : α → σ → Option (β × σ)) : List α → σ → Option (List β × σ)
  | [], s => some ([], s)
  | a :: as, s =>
    (f a s).bind fun (b, s) => (each f as s).map fun (bs, s) => (b :: bs, s)

/-- The list `bs` stands for `as`, element by element, with the states in between. -/
inductive Chain (P : σ → α → β → σ → Prop) : σ → List α → List β → σ → Prop
  | nil (s : σ) : Chain P s [] [] s
  | cons {s mid s' : σ} {a : α} {as : List α} {b : β} {bs : List β} :
      P s a b mid → Chain P mid as bs s' → Chain P s (a :: as) (b :: bs) s'

/-- With enough fuel `f` gives one and the same result, and `P` holds of it. -/
def Yields (f : Nat → α → σ → Option (β × σ)) (P : σ → α → β → σ → Prop) : Prop :=
  ∀ a s, ∃ b s', P s a b s' ∧ ∃ n, ∀ k, n ≤ k → f k a s = some (b, s')

theorem each_yields {f : Nat → α → σ → Option (β × σ)} {P : σ → α → β → σ → Prop}
    (h : Yields f P) : Yields (fun k => each (f k)) (Chain P) := by
  intro as
  induction as with
  | nil => exact fun s => ⟨[], s, .nil s, 0, fun _ _ => rfl⟩
  | cons a as ih =>
    intro s
    obtain ⟨b, mid, hb, n, hn⟩ := h a s
    obtain ⟨bs, s', hbs, n', hn'⟩ := ih mid
    refine ⟨b :: bs, s', .cons hb hbs, max n n', fun k hk => ?_⟩
    have ha := hn k (by omega)
    have has := hn' k (by omega)
    simp [each, ha, has]

/-- `Q` holds of what a step has made, in the state after it and in all later ones. -/
def Settles (Later : σ → σ → Prop) (P : σ → α → β → σ → Prop) (Q : σ → α → β → Prop) : Prop :=
  ∀ {s a b s'}, P s a b s' → Later s s' ∧ ∀ t, Later s' t → Q t a b

/-- What each step settles is still so at the end of a chain. -/
theorem Settles.chain {Later : σ → σ → Prop} {P : σ → α → β → σ → Prop} {Q : σ → α → β → Prop}
    (hrefl : ∀ s, Later s s) (htrans : ∀ {s s' t}, Later s s' → Later s' t → Later s t)
    (h : Settles Later P Q) : Settles Later (Chain P) fun t => List.Forall₂ (Q t) := by
  intro s as bs s' hchain
  induction hchain with
  | nil s => exact ⟨hrefl s, fun _ _ => .nil⟩
  | cons hb _ ih =>
    obtain ⟨hlater, hall⟩ := ih
    refine ⟨htrans (h hb).1 hlater, fun t ht => ?_⟩
    exact .cons ((h hb).2 t (htrans hlater ht)) (hall t ht)

/-- Two relations between the same lists relate an element to a common one. -/
theorem exists_common {R Q : α → β → Prop} {as : List α} {bs : List β} {a : α}
    (h : List.Forall₂ R as bs) (h' : List.Forall₂ Q as bs) (ha : a ∈ as) : ∃ b, R a b ∧ Q a b := by
  induction h with
  | nil => cases ha
  | cons hR _ ih =>
    obtain ⟨hQ, h'⟩ := List.forall₂_cons.mp h'
    rcases List.mem_cons.mp ha with rfl | ha
    · exact ⟨_, hR, hQ⟩
    · exact ih h' ha

/-! ## Bodies that leave alone what they insert -/

section Insertion
variable {ι : α → β} {body : Cursor β → σ → Cursor β × σ} {front back : α → σ → List β}
  {next : α → σ → σ}

/-- At an element `a` the body inserts `front a s` and `back a s`, and it does nothing at
what it has inserted behind the cursor. -/
structure Inserts (body : Cursor β → σ → Cursor β × σ) (ι : α → β)
    (front back : α → σ → List β) (next : α → σ → σ) : Prop where
  element : ∀ a before after s, body ⟨before, ι a, after⟩ s =
    (⟨(front a s).reverse ++ before, ι a, back a s ++ after⟩, next a s)
  inserted : ∀ a s, ∀ x ∈ back a s, ∀ before after s',
    body ⟨before, x, after⟩ s' = (⟨before, x, after⟩, s')

/-- What stands for `a` after the walk. -/
def Around (ι : α → β) (front back : α → σ → List β) (next : α → σ → σ)
    (s : σ) (a : α) (bs : List β) (s' : σ) : Prop :=
  bs = front a s ++ ι a :: back a s ∧ s' = next a s

theorem walk_skip {xs before after : List β} {s : σ} {k : Nat}
    (h : ∀ x ∈ xs, ∀ before after s, body ⟨before, x, after⟩ s = (⟨before, x, after⟩, s)) :
    walk body (k + xs.length) before (xs ++ after) s = walk body k (xs.reverse ++ before) after s := by
  induction xs generalizing before with
  | nil => rfl
  | cons x xs ih =>
    have hx := h x List.mem_cons_self before (xs ++ after) s
    rw [List.length_cons, ← Nat.add_assoc, List.cons_append, walk, hx]
    dsimp only
    rw [ih fun y hy => h y (List.mem_cons_of_mem _ hy)]
    simp

/-- The loop ends, and it has inserted around every element once. -/
theorem walk_yields (h : Inserts body ι front back next) :
    Yields (fun k as => walk body k [] (as.map ι)) fun s as bs s' =>
      ∃ parts, bs = parts.flatten ∧ Chain (Around ι front back next) s as parts s' := by
  have hgen : ∀ as before s, ∃ parts s', Chain (Around ι front back next) s as parts s' ∧
      ∃ n, ∀ k, n ≤ k →
        walk body k before (as.map ι) s = some (before.reverse ++ parts.flatten, s') := by
    intro as
    induction as with
    | nil => exact fun before s => ⟨[], s, .nil s, 0, fun k _ => by simp [walk]⟩
    | cons a as ih =>
      intro before s
      -- the cursor goes on behind what has been inserted after `a`
      obtain ⟨parts, s', hparts, n, hn⟩ :=
        ih ((back a s).reverse ++ ι a :: ((front a s).reverse ++ before)) (next a s)
      refine ⟨_, s', .cons ⟨rfl, rfl⟩ hparts, n + (back a s).length + 1, fun k hk => ?_⟩
      obtain ⟨j, rfl⟩ : ∃ j, k = j + (back a s).length + 1 :=
        ⟨k - ((back a s).length + 1), by omega⟩
      have hrest := hn j (by omega)
      rw [List.map_cons, walk, h.element]
      dsimp only
      rw [walk_skip (h.inserted a s), hrest]
      simp
  intro as s
  obtain ⟨parts, s', hparts, n, hn⟩ := hgen as [] s
  exact ⟨parts.flatten, s', ⟨parts, rfl, hparts⟩, n, hn⟩

end Insertion

/-! ## Places in the edited list -/

section Places
variable {R : α → List β → Prop} {as : List α} {parts : List (List β)} {xs ys : List β} {x : β}

/-- An element of the edited list lies in the part of one element of the original list. -/
theorem exists_part (h : List.Forall₂ R as parts) (hx : parts.flatten = xs ++ x :: ys) :
    ∃ a ∈ as, ∃ part, R a part ∧ ∃ us vs, part = us ++ x :: vs ∧ us <:+ xs ∧ vs <+: ys := by
  induction h generalizing xs with
  | nil => simp at hx
  | @cons a part as parts hpart _ ih =>
    rw [List.flatten_cons] at hx
    rcases List.append_eq_append_iff.mp hx with ⟨us, hxs, hrest⟩ | ⟨vs, hpart', hys⟩
    · obtain ⟨a', ha', part', hR, us', vs', heq, hus, hvs⟩ := ih hrest
      refine ⟨a', List.mem_cons_of_mem _ ha', part', hR, us', vs', heq, ?_, hvs⟩
      exact hus.trans (hxs ▸ List.suffix_append part us)
    · cases vs with
      | nil =>
        rw [List.nil_append] at hys
        obtain ⟨a', ha', part', hR, us', vs', heq, hus, hvs⟩ := @ih [] hys.symm
        refine ⟨a', List.mem_cons_of_mem _ ha', part', hR, us', vs', heq, ?_, hvs⟩
        exact hus.trans List.nil_suffix
      | cons v vs =>
        obtain ⟨rfl, rfl⟩ := List.cons.inj hys
        exact ⟨a, List.mem_cons_self, part, hpart, xs, vs, hpart', List.suffix_refl xs,
          List.prefix_append vs _⟩

/-- A filter that takes each part back to its element takes the edited list back. -/
theorem filterMap_flatten {f : β → Option α} (h : List.Forall₂ R as parts)
    (hR : ∀ a part, R a part → part.filterMap f = [a]) : parts.flatten.filterMap f = as := by
  induction h with
  | nil => rfl
  | cons hpart _ ih => rw [List.flatten_cons, List.filterMap_append, hR _ _ hpart, ih]; rfl

end Places

end Lockout.Lib.Editing
