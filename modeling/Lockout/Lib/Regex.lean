import Mathlib.Data.List.TakeWhile

/-! # Regular expressions that backtrack

Expressions in the manner of `re`, with loops over classes of characters. `results`
lists all ways in which an expression reads the start of a text, in the order in which
backtracking tries them; a match is the first of them. What an expression can read at
all does not depend on that order (`Reads`), so an expression that can read a text in
one way only matches it in that way. -/

namespace Lockout.Lib.Regex

/-- The named groups and what they have read. -/
abbrev Captures := List (String × List Char)

inductive Expr
  /-- These characters. -/
  | text (chars : List Char)
  /-- One character of a class. -/
  | one (p : Char → Bool)
  /-- As many characters of a class as can be, or as few. -/
  | many (p : Char → Bool) (greedy : Bool)
  | seq (r r' : Expr)
  | alt (r r' : Expr)
  | group (name : String) (r : Expr)

/-- What is left of a text after some characters of a class, fewest first. -/
def rests (p : Char → Bool) : List Char → List (List Char)
  | [] => [[]]
  | c :: s => (c :: s) :: if p c then rests p s else []

/-- The ways to read the start of a text: what the groups read and what is left. -/
def results : Expr → List Char → List (Captures × List Char)
  | .text chars, s => if chars <+: s then [([], s.drop chars.length)] else []
  | .one _, [] => []
  | .one p, c :: s => if p c then [([], s)] else []
  | .many p greedy, s =>
    (if greedy then (rests p s).reverse else rests p s).map fun rest => ([], rest)
  | .seq r r', s => (results r s).flatMap fun x =>
      (results r' x.2).map fun y => (x.1 ++ y.1, y.2)
  | .alt r r', s => results r s ++ results r' s
  | .group name r, s =>
    (results r s).map fun x => ((name, s.take (s.length - x.2.length)) :: x.1, x.2)

/-- `search` from every place that the last match has left, for an expression that reads
at least one character; `skip` characters belong to the last match. -/
def findIter (r : Expr) : Nat → List Char → List Captures
  | _, [] => []
  | skip + 1, _ :: s => findIter r skip s
  | 0, c :: s => match (results r (c :: s)).head? with
    | some (captures, rest) => captures :: findIter r ((c :: s).length - rest.length - 1) s
    | none => findIter r 0 s

/-- The texts an expression reads and what its groups read of them. -/
inductive Reads : Expr → List Char → Captures → Prop
  | text {chars} : Reads (.text chars) chars []
  | one {p c} : p c = true → Reads (.one p) [c] []
  | many {p greedy t} : (∀ c ∈ t, p c = true) → Reads (.many p greedy) t []
  | seq {r r' t t' captures captures'} : Reads r t captures → Reads r' t' captures' →
      Reads (.seq r r') (t ++ t') (captures ++ captures')
  | left {r r' t captures} : Reads r t captures → Reads (.alt r r') t captures
  | right {r r' t captures} : Reads r' t captures → Reads (.alt r r') t captures
  | group {name r t captures} : Reads r t captures →
      Reads (.group name r) t ((name, t) :: captures)

section Results
variable {r : Expr} {s rest : List Char} {p : Char → Bool} {x : Captures × List Char}

theorem mem_rests : rest ∈ rests p s ↔ ∃ t, s = t ++ rest ∧ ∀ c ∈ t, p c = true := by
  induction s with
  | nil =>
    constructor
    · intro h
      exact ⟨[], (List.mem_singleton.mp h).symm, nofun⟩
    · intro h
      obtain ⟨t, ht, -⟩ := h
      exact List.mem_singleton.mpr (List.append_eq_nil_iff.mp ht.symm).2
  | cons c s ih =>
    unfold rests
    constructor
    · intro h
      rcases List.mem_cons.mp h with rfl | h
      · exact ⟨[], rfl, nofun⟩
      · split at h
        · rename_i hc
          obtain ⟨t, rfl, ht⟩ := ih.mp h
          exact ⟨c :: t, rfl, List.forall_mem_cons.mpr ⟨hc, ht⟩⟩
        · cases h
    · intro h
      obtain ⟨t, hsplit, ht⟩ := h
      cases t with
      | nil => exact List.mem_cons.mpr (.inl hsplit.symm)
      | cons d t =>
        obtain ⟨rfl, rfl⟩ := List.cons.inj hsplit
        obtain ⟨hc, ht⟩ := List.forall_mem_cons.mp ht
        rw [if_pos hc]
        exact List.mem_cons_of_mem _ (ih.mpr ⟨t, rfl, ht⟩)

@[simp] theorem reads_text {chars t : List Char} {captures : Captures} :
    Reads (.text chars) t captures ↔ t = chars ∧ captures = [] := by
  constructor
  · intro h
    cases h
    exact ⟨rfl, rfl⟩
  · intro h
    obtain ⟨rfl, rfl⟩ := h
    exact .text

@[simp] theorem reads_one {t : List Char} {captures : Captures} :
    Reads (.one p) t captures ↔ ∃ c, p c = true ∧ t = [c] ∧ captures = [] := by
  constructor
  · intro h
    cases h with
    | one hc => exact ⟨_, hc, rfl, rfl⟩
  · intro h
    obtain ⟨c, hc, rfl, rfl⟩ := h
    exact .one hc

@[simp] theorem reads_many {t : List Char} {captures : Captures} {greedy : Bool} :
    Reads (.many p greedy) t captures ↔ (∀ c ∈ t, p c = true) ∧ captures = [] := by
  constructor
  · intro h
    cases h with
    | many ht => exact ⟨ht, rfl⟩
  · intro h
    obtain ⟨ht, rfl⟩ := h
    exact .many ht

theorem reads_seq {r r' : Expr} {t : List Char} {captures : Captures} :
    Reads (.seq r r') t captures ↔ ∃ t₁ captures₁ t₂ captures₂, Reads r t₁ captures₁ ∧
      Reads r' t₂ captures₂ ∧ t = t₁ ++ t₂ ∧ captures = captures₁ ++ captures₂ := by
  constructor
  · intro h
    cases h with
    | seq h h' => exact ⟨_, _, _, _, h, h', rfl, rfl⟩
  · intro h
    obtain ⟨t₁, captures₁, t₂, captures₂, h, h', rfl, rfl⟩ := h
    exact .seq h h'

@[simp] theorem reads_alt {r r' : Expr} {t : List Char} {captures : Captures} :
    Reads (.alt r r') t captures ↔ Reads r t captures ∨ Reads r' t captures := by
  constructor
  · intro h
    cases h with
    | left h => exact .inl h
    | right h => exact .inr h
  · intro h
    exact h.elim .left .right

theorem reads_group {name : String} {t : List Char} {captures : Captures} :
    Reads (.group name r) t captures ↔
      ∃ captures', Reads r t captures' ∧ captures = (name, t) :: captures' := by
  constructor
  · intro h
    cases h with
    | group h => exact ⟨_, h, rfl⟩
  · intro h
    obtain ⟨captures', h, rfl⟩ := h
    exact .group h

theorem mem_results_text {chars : List Char} {captures : Captures} :
    (captures, rest) ∈ results (.text chars) s ↔
      ∃ t, s = t ++ rest ∧ Reads (.text chars) t captures := by
  unfold results
  constructor
  · intro h
    split at h
    · rename_i hstarts
      obtain ⟨t, rfl⟩ := hstarts
      obtain ⟨rfl, rfl⟩ := Prod.mk.inj (List.mem_singleton.mp h)
      exact ⟨chars, by simp, .text⟩
    · cases h
  · intro h
    obtain ⟨t, rfl, hreads⟩ := h
    cases hreads
    simp

theorem mem_results_one {captures : Captures} :
    (captures, rest) ∈ results (.one p) s ↔ ∃ t, s = t ++ rest ∧ Reads (.one p) t captures := by
  constructor
  · intro h
    cases s with
    | nil => cases h
    | cons c s =>
      unfold results at h
      split at h
      · rename_i hc
        obtain ⟨rfl, rfl⟩ := Prod.mk.inj (List.mem_singleton.mp h)
        exact ⟨[c], rfl, .one hc⟩
      · cases h
  · intro h
    obtain ⟨t, rfl, hreads⟩ := h
    cases hreads with
    | one hc => simp [results, hc]

/-- The order of a loop makes no difference to what is among its results. -/
theorem mem_results_many {greedy : Bool} {captures : Captures} :
    (captures, rest) ∈ results (.many p greedy) s ↔
      ∃ t, s = t ++ rest ∧ Reads (.many p greedy) t captures := by
  have hrests : (captures, rest) ∈ results (.many p greedy) s ↔
      (captures, rest) ∈ (rests p s).map fun rest => (([] : Captures), rest) := by
    cases greedy with
    | false => rfl
    | true => simp [results]
  rw [hrests, List.mem_map]
  constructor
  · intro h
    obtain ⟨rest, hmem, heq⟩ := h
    obtain ⟨rfl, rfl⟩ := Prod.mk.inj heq
    obtain ⟨t, hs, ht⟩ := mem_rests.mp hmem
    exact ⟨t, hs, .many ht⟩
  · intro h
    obtain ⟨t, hs, hreads⟩ := h
    cases hreads with
    | many ht => exact ⟨rest, mem_rests.mpr ⟨t, hs, ht⟩, rfl⟩

/-- A group holds what has been read of the text. -/
theorem mem_results_group {name : String} {captures : Captures} :
    (captures, rest) ∈ results (.group name r) s ↔ ∃ captures', (captures', rest) ∈ results r s ∧
      captures = (name, s.take (s.length - rest.length)) :: captures' := by
  constructor
  · intro h
    obtain ⟨y, hy, heq⟩ := List.mem_map.mp h
    obtain ⟨rfl, rfl⟩ := Prod.mk.inj heq
    exact ⟨y.1, hy, rfl⟩
  · intro h
    obtain ⟨captures', hmem, rfl⟩ := h
    exact List.mem_map.mpr ⟨(captures', rest), hmem, rfl⟩

/-- The results are the texts read, whatever follows them. -/
theorem mem_results : x ∈ results r s ↔ ∃ t, s = t ++ x.2 ∧ Reads r t x.1 := by
  obtain ⟨captures, rest⟩ := x
  dsimp only
  induction r generalizing s captures rest with
  | text chars => exact mem_results_text
  | one p => exact mem_results_one
  | many p greedy => exact mem_results_many
  | seq r r' ih ih' =>
    unfold results
    constructor
    · intro h
      obtain ⟨y, hy, hx⟩ := List.mem_flatMap.mp h
      obtain ⟨z, hz, heq⟩ := List.mem_map.mp hx
      obtain ⟨rfl, rfl⟩ := Prod.mk.inj heq
      obtain ⟨t, rfl, hreads⟩ := (ih _ _).mp hy
      obtain ⟨t', ht', hreads'⟩ := (ih' _ _).mp hz
      exact ⟨t ++ t', by rw [ht', List.append_assoc], .seq hreads hreads'⟩
    · intro h
      obtain ⟨t, rfl, hreads⟩ := h
      cases hreads with
      | @seq _ _ t t' captures captures' hreads hreads' =>
        have hfirst := (ih captures (t' ++ rest)).mpr ⟨t, List.append_assoc t t' rest, hreads⟩
        have hsecond := (ih' captures' rest).mpr ⟨t', rfl, hreads'⟩
        exact List.mem_flatMap.mpr ⟨_, hfirst, List.mem_map.mpr ⟨_, hsecond, rfl⟩⟩
  | alt r r' ih ih' =>
    unfold results
    rw [List.mem_append, ih, ih']
    constructor
    · intro h
      rcases h with ⟨t, hs, hreads⟩ | ⟨t, hs, hreads⟩
      · exact ⟨t, hs, .left hreads⟩
      · exact ⟨t, hs, .right hreads⟩
    · intro h
      obtain ⟨t, hs, hreads⟩ := h
      cases hreads with
      | left hreads => exact .inl ⟨t, hs, hreads⟩
      | right hreads => exact .inr ⟨t, hs, hreads⟩
  | group name r ih =>
    have hread : ∀ {t : List Char}, s = t ++ rest → s.take (s.length - rest.length) = t := by
      intro t hs
      rw [hs, List.length_append, Nat.add_sub_cancel, List.take_left]
    rw [mem_results_group]
    constructor
    · intro h
      obtain ⟨captures', hmem, rfl⟩ := h
      obtain ⟨t, hs, hreads⟩ := (ih _ _).mp hmem
      exact ⟨t, hs, by rw [hread hs]; exact .group hreads⟩
    · intro h
      obtain ⟨t, hs, hreads⟩ := h
      cases hreads with
      | @group _ _ _ captures hreads =>
        exact ⟨captures, (ih _ _).mpr ⟨t, hs, hreads⟩, by rw [hread hs]⟩

end Results

section Search
variable {r : Expr} {s t rest : List Char} {c : Char} {captures : Captures}

/-- The part of a text that belongs to a match is passed over. -/
theorem findIter_skip : findIter r t.length (t ++ s) = findIter r 0 s := by
  induction t with
  | nil => rfl
  | cons c t ih => exact ih

/-- Nothing is found where the expression reads nothing. -/
theorem findIter_of_not_reads (h : ∀ t rest captures, c :: s = t ++ rest → ¬ Reads r t captures) :
    findIter r 0 (c :: s) = findIter r 0 s := by
  have hnil : results r (c :: s) = [] := by
    refine List.eq_nil_iff_forall_not_mem.mpr fun x hx => ?_
    obtain ⟨t, hs, hreads⟩ := mem_results.mp hx
    exact h t x.2 x.1 hs hreads
  rw [findIter, hnil]
  rfl

/-- A text that is read in one way only is found to be read in that way. -/
theorem findIter_of_unique (hreads : Reads r (c :: t) captures)
    (h : ∀ t' rest' captures', c :: t ++ rest = t' ++ rest' → Reads r t' captures' →
      captures' = captures ∧ rest' = rest) :
    findIter r 0 (c :: t ++ rest) = captures :: findIter r 0 rest := by
  have hall : ∀ x ∈ results r (c :: t ++ rest), x = (captures, rest) := by
    intro x hx
    obtain ⟨t', hs, hreads'⟩ := mem_results.mp hx
    obtain ⟨hcaptures, hrest⟩ := h t' x.2 x.1 hs hreads'
    exact Prod.ext hcaptures hrest
  have hhead : (results r (c :: t ++ rest)).head? = some (captures, rest) := by
    cases hresults : results r (c :: t ++ rest) with
    | nil =>
      have hmem : (captures, rest) ∈ results r (c :: t ++ rest) :=
        mem_results.mpr ⟨c :: t, rfl, hreads⟩
      rw [hresults] at hmem
      cases hmem
    | cons x l =>
      have hmem : x ∈ results r (c :: t ++ rest) := by
        rw [hresults]
        exact List.mem_cons_self
      rw [List.head?_cons, hall x hmem]
  rw [List.cons_append] at hhead ⊢
  have hlength : (c :: (t ++ rest)).length - rest.length - 1 = t.length := by
    simp only [List.length_cons, List.length_append]
    omega
  rw [findIter, hhead]
  dsimp only
  rw [hlength, findIter_skip]

/-- What is found has been read somewhere. -/
theorem reads_of_mem_findIter {skip : Nat} (h : captures ∈ findIter r skip s) :
    ∃ t, Reads r t captures := by
  induction s generalizing skip with
  | nil => cases skip <;> cases h
  | cons c s ih =>
    cases skip with
    | succ skip => exact ih h
    | zero =>
      rw [findIter] at h
      cases hhead : (results r (c :: s)).head? with
      | none =>
        rw [hhead] at h
        exact ih h
      | some x =>
        rw [hhead] at h
        rcases List.mem_cons.mp h with heq | h
        · obtain ⟨t, -, hreads⟩ := mem_results.mp (List.mem_of_head? hhead)
          exact ⟨t, heq ▸ hreads⟩
        · exact ih h

end Search

end Lockout.Lib.Regex
