import Mathlib.Data.List.TakeWhile

/-! # Formatted input and output

A text stream in the manner of iostream: an extraction skips white space and reads one
value from what follows; once one has failed, all later ones fail and leave their
targets as they are. How values of a type are written and scanned is a `Format`; the
law `RoundTrip` is what a reader of printed text relies on. `Spells` is the grammar
side of an extraction. -/

namespace Lockout.Lib.TextStream

/-- `isspace` in the C locale. -/
def isSpace (c : Char) : Bool :=
  c == ' ' || c == '\t' || c == '\n' || c == '\r' || c.toNat == 11 || c.toNat == 12

/-- A non-empty text without white space. -/
def IsToken (text : List Char) : Prop := text ≠ [] ∧ ∀ c ∈ text, isSpace c = false

def Blank (text : List Char) : Prop := ∀ c ∈ text, isSpace c = true

/-- A token before `rest` ends there. -/
def AtBreak (rest : List Char) : Prop := ∀ c ∈ rest.head?, isSpace c = true

/-- How a type is printed, and scanned from a text that does not start with a space:
the value and the rest of the text, or nothing where there is no such value. -/
structure Format (α : Type) where
  print : α → List Char
  scan : List Char → Option (α × List Char)

/-- What is printed as a token is scanned as the same value. -/
structure Format.RoundTrip {α : Type} (f : Format α) : Prop where
  token : ∀ v, IsToken (f.print v)
  scan_print : ∀ v rest, AtBreak rest → f.scan (f.print v ++ rest) = some (v, rest)

/-- Strings, up to the next white space. -/
def word : Format String where
  print s := s.toList
  scan text := some (String.ofList (text.takeWhile fun c => !isSpace c),
    text.dropWhile fun c => !isSpace c)

structure Stream where
  text : List Char
  failed : Bool := false

section Streams
variable {α : Type} (f : Format α) {s s' : Stream} {text rest : List Char} {v : α}

/-- `in >> x`: the value read, if any, and the stream after it. -/
def Stream.extract (s : Stream) : Option α × Stream :=
  if s.failed then (none, s)
  else if s.text.dropWhile isSpace = [] then (none, ⟨[], true⟩)
  else match f.scan (s.text.dropWhile isSpace) with
    | some (v, rest) => (some v, ⟨rest, false⟩)
    | none => (none, ⟨s.text.dropWhile isSpace, true⟩)

/-- The text starts with the value `v`, after white space, and goes on with `rest`. -/
def Format.Spells (text : List Char) (v : α) (rest : List Char) : Prop :=
  text.dropWhile isSpace ≠ [] ∧ f.scan (text.dropWhile isSpace) = some (v, rest)

variable {f}

theorem extract_of_spells (h : f.Spells text v rest) :
    Stream.extract f ⟨text, false⟩ = (some v, ⟨rest, false⟩) := by
  simp [Stream.extract, h.1, h.2]

/-- An extraction that reads a value reads what the text spells. -/
theorem extract_eq_some (h : (s.extract f).1 = some v) :
    s.failed = false ∧ ∃ rest, f.Spells s.text v rest ∧ (s.extract f).2 = ⟨rest, false⟩ := by
  obtain ⟨text, failed⟩ := s
  cases failed with
  | true => simp [Stream.extract] at h
  | false =>
    by_cases hnil : text.dropWhile isSpace = []
    · simp [Stream.extract, hnil] at h
    · cases hscan : f.scan (text.dropWhile isSpace) with
      | none => simp [Stream.extract, hnil, hscan] at h
      | some p =>
        obtain ⟨u, rest⟩ := p
        simp only [Stream.extract, hnil, hscan, Bool.false_eq_true, if_false] at h ⊢
        obtain rfl := Option.some.inj h
        exact ⟨trivial, rest, ⟨hnil, hscan⟩, rfl⟩

end Streams

/-- A variable that values are extracted into: what it holds, and whether the last
extraction has read that. -/
structure Slot (α : Type) where
  value : α
  read : Bool

/-- `in >> x` with what a failed extraction leaves in `x`. -/
def Stream.into {α : Type} (f : Format α) (left : α) (s : Stream) : Slot α × Stream :=
  match s.extract f with
  | (some v, s) => (⟨v, true⟩, s)
  | (none, s) => (⟨left, false⟩, s)

theorem into_of_spells {α : Type} {f : Format α} {left v : α} {text rest : List Char}
    (h : f.Spells text v rest) : Stream.into f left ⟨text, false⟩ = (⟨v, true⟩, ⟨rest, false⟩) := by
  rw [Stream.into, extract_of_spells h]

/-- A value that has been read is spelled by the text of the stream. -/
theorem spells_of_into {α : Type} {f : Format α} {left : α} {s : Stream}
    (h : (s.into f left).1.read = true) : s.failed = false ∧
      f.Spells s.text (s.into f left).1.value (s.into f left).2.text ∧
      (s.into f left).2.failed = false := by
  unfold Stream.into at h ⊢
  cases hv : (s.extract f).1 with
  | none =>
    rw [show s.extract f = (none, (s.extract f).2) from Prod.ext hv rfl] at h
    cases h
  | some v =>
    obtain ⟨hs, rest, hspells, hrest⟩ := extract_eq_some hv
    rw [show s.extract f = (some v, ⟨rest, false⟩) from Prod.ext hv hrest]
    exact ⟨hs, hspells, rfl⟩

/-- The formats of the types a program reads and writes. -/
structure Iostream where
  int : Format Int
  pointer : Format Nat

structure Iostream.RoundTrip (io : Iostream) : Prop where
  int : io.int.RoundTrip
  pointer : io.pointer.RoundTrip

/-! ## Printed text -/

section Printed
variable {α : Type} {f : Format α} {v : α} {lead token rest text : List Char}

theorem dropWhile_blank (h : Blank lead) :
    (lead ++ text).dropWhile isSpace = text.dropWhile isSpace :=
  List.dropWhile_append_of_pos h

theorem dropWhile_token (h : IsToken token) : (token ++ rest).dropWhile isSpace = token ++ rest := by
  obtain ⟨c, token, rfl⟩ := List.exists_cons_of_ne_nil h.1
  have hc : isSpace c = false := h.2 c List.mem_cons_self
  simp [hc]

/-- A printed value between white space is spelled by the text. -/
theorem Format.RoundTrip.spells (hf : f.RoundTrip) (hlead : Blank lead) (hrest : AtBreak rest) :
    f.Spells (lead ++ (f.print v ++ rest)) v rest := by
  have hdrop : (lead ++ (f.print v ++ rest)).dropWhile isSpace = f.print v ++ rest := by
    rw [dropWhile_blank hlead, dropWhile_token (hf.token v)]
  refine ⟨?_, ?_⟩
  · rw [hdrop]
    exact List.append_ne_nil_of_left_ne_nil (hf.token v).1 _
  · rw [hdrop]
    exact hf.scan_print v rest hrest

theorem IsToken.cons {c : Char} {token : List Char} (hc : isSpace c = false)
    (h : IsToken token) : IsToken (c :: token) :=
  ⟨List.cons_ne_nil _ _, List.forall_mem_cons.mpr ⟨hc, h.2⟩⟩

theorem takeWhile_token (h : ∀ c ∈ token, isSpace c = false) (hrest : AtBreak rest) :
    (token ++ rest).takeWhile (fun c => !isSpace c) = token ∧
      (token ++ rest).dropWhile (fun c => !isSpace c) = rest := by
  have hall : ∀ c ∈ token, (!isSpace c) = true := fun c hc => by rw [h c hc]; rfl
  rw [List.takeWhile_append_of_pos hall, List.dropWhile_append_of_pos hall]
  cases rest with
  | nil => simp
  | cons c rest =>
    have hc : isSpace c = true := hrest c rfl
    simp [hc]

theorem spells_word {s : String} (hs : IsToken s.toList) (hlead : Blank lead) (hrest : AtBreak rest) :
    word.Spells (lead ++ (s.toList ++ rest)) s rest := by
  have hdrop : (lead ++ (s.toList ++ rest)).dropWhile isSpace = s.toList ++ rest := by
    rw [dropWhile_blank hlead, dropWhile_token hs]
  obtain ⟨htake, hrest⟩ := takeWhile_token hs.2 hrest
  refine ⟨?_, ?_⟩
  · rw [hdrop]
    exact List.append_ne_nil_of_left_ne_nil hs.1 _
  · rw [hdrop]
    simp only [word]
    rw [htake, hrest, String.ofList_toList]

/-- What is read as a word has no white space in it. -/
theorem isToken_of_spells {s : String} (h : word.Spells text s rest) : IsToken s.toList := by
  obtain ⟨hne, hscan⟩ := h
  obtain ⟨hs, -⟩ := Prod.mk.inj (Option.some.inj hscan)
  obtain ⟨c, tail, hdrop⟩ := List.exists_cons_of_ne_nil hne
  have hc : isSpace c = false := by
    have hhead := List.head_dropWhile_not isSpace hne
    simpa [hdrop] using hhead
  rw [← hs, String.toList_ofList, hdrop]
  refine ⟨by simp [hc], fun d hd => ?_⟩
  have hnot := List.mem_takeWhile_imp hd
  simpa using hnot

/-- White space alone spells nothing. -/
theorem extract_blank (h : Blank text) : (Stream.extract f ⟨text, false⟩).1 = none := by
  have hdrop : text.dropWhile isSpace = [] := by
    rw [← List.append_nil text, dropWhile_blank h]
    rfl
  simp [Stream.extract, hdrop]

/-- A word can be read from every text that is not blank. -/
theorem exists_spells_word (h : ¬ Blank text) : ∃ s rest, word.Spells text s rest := by
  refine ⟨_, _, fun hnil => h ?_, rfl⟩
  simpa [Blank, List.dropWhile_eq_nil_iff] using hnil

theorem atBreak_cons {c : Char} (h : isSpace c = true) : AtBreak (c :: rest) := by
  intro d hd
  obtain rfl := Option.some.inj hd
  exact h

theorem blank_singleton {c : Char} (h : isSpace c = true) : Blank [c] := by
  intro d hd
  rw [List.mem_singleton.mp hd]
  exact h

theorem blank_nil : Blank [] := nofun

end Printed

end Lockout.Lib.TextStream
