import Lockout.Lib.Regex
import Lockout.Lib.TextStream
import Lockout.Strator.Races

/-! # The race file and its reader

`investigateAccesses` writes the races of a report to `races.txt`, and `parseRacer` of
`compare.py` finds them there again by one regular expression. The expression has
narrower ideas of names than the writer: a race whose names it does not know is passed
over, with all the others found (`parseRacer_racesFile`). -/

namespace Lockout.Strator.RaceFile
open Lockout.Lib.TextStream Lockout.Lib.Regex
open Lockout.Strator.Program Lockout.Strator.State Lockout.Strator.Races

/-! ## The writer -/

/-- What a module and its debug information say of values and instructions; `print` is
an instruction as `<<` writes it. The characters of a text are its bytes. -/
structure Symbols where
  getName : Value → List Char
  getFilename : InstId → List Char
  getLineNumber : InstId → Nat
  print : InstId → List Char

def getLocation (d : Symbols) (inst : InstId) : List Char :=
  d.getFilename inst ++ (": l.".toList ++ Nat.toDigits 10 (d.getLineNumber inst))

def loadOrStore (isStore : Bool) : List Char :=
  if isStore then "STORE".toList else "LOAD".toList

/-- The line for an instruction that `report-inst` asks for. -/
def instructionLine (reportInst : Bool) (d : Symbols) (inst : InstId) : List Char :=
  if reportInst then "   ".toList ++ (d.print inst ++ "\n".toList) else []

def accessLines (reportInst : Bool) (d : Symbols) (access : AccessType) : List Char :=
  " ".toList ++ (getLocation d access.instruction ++ (": ".toList ++
    (loadOrStore access.isStore ++ ("\n".toList ++
      instructionLine reportInst d access.instruction))))

def raceLines (reportInst : Bool) (d : Symbols) (race : Race) : List Char :=
  "Potential race '".toList ++ (Nat.toDigits 10 race.number ++ ("' on variable: \"".toList ++
    (d.getName race.value1 ++ ("\" and \"".toList ++ (d.getName race.value2 ++
      ("\" at:\n".toList ++ (accessLines reportInst d race.access1 ++
        accessLines reportInst d race.access2)))))))

/-- `races.txt`, with or without `report-inst`. -/
def racesFile (reportInst : Bool) (d : Symbols) (races : List Race) : List Char :=
  races.flatMap (raceLines reportInst d)

/-! ## The reader -/

/-- `\w` on bytes. -/
def isWord (c : Char) : Bool := c.isAlphanum || c == '_'

/-- `[\w\.]`. -/
def isFileChar (c : Char) : Bool := isWord c || c == '.'

/-- `(?P<name>\d+)`. -/
def digits (name : String) : Expr :=
  .group name (.seq (.one Char.isDigit) (.many Char.isDigit true))

/-- `\s+?(?P<file>[\w\.]*): l.(?P<line>\d+): (LOAD|STORE)`. -/
def accessRegex (file line : String) : Expr :=
  .seq (.one isSpace) <| .seq (.many isSpace false) <|
  .seq (.group file (.many isFileChar true)) <| .seq (.text ": l".toList) <|
  .seq (.one fun c => c != '\n') <| .seq (digits line) <| .seq (.text ": ".toList) <|
  .group "" (.alt (.text "LOAD".toList) (.text "STORE".toList))

/-- `reg` of `parseRacer`. -/
def reg : Expr :=
  .seq (.text "Potential race '".toList) <| .seq (digits "id") <|
  .seq (.text "' on variable: \"".toList) <| .seq (.group "var1" (.many isWord true)) <|
  .seq (.text "\" and \"".toList) <| .seq (.group "var2" (.many isWord true)) <|
  .seq (.text "\" at:".toList) <|
  .seq (accessRegex "file1" "line1") (accessRegex "file2" "line2")

/-- Two line numbers, each with a variable. -/
abbrev RaceTuple := Nat × List Char × Nat × List Char

def groupOf (race : Captures) (name : String) : List Char := (race.lookup name).getD []

def addrace (race : Captures) (ret : List RaceTuple) : List RaceTuple :=
  ret ++ [(Nat.ofDigitChars 10 (groupOf race "line1") 0, groupOf race "var1",
    Nat.ofDigitChars 10 (groupOf race "line2") 0, groupOf race "var2")]

def parseRacer (text : List Char) : List RaceTuple :=
  (findIter reg 0 text).foldl (fun ret race => addrace race ret) []

/-- What is to be read back of a race. -/
def tupleOf (d : Symbols) (race : Race) : RaceTuple :=
  (d.getLineNumber race.access1.instruction, d.getName race.value1,
    d.getLineNumber race.access2.instruction, d.getName race.value2)

/-! ## What the expression reads -/

/-- The parts of a text that `accessRegex` reads. -/
structure AccessText where
  gap : List Char
  file : List Char
  dot : Char
  line : List Char
  kind : List Char

structure AccessText.Valid (a : AccessText) : Prop where
  gap : ∀ c ∈ a.gap, isSpace c = true
  file : ∀ c ∈ a.file, isFileChar c = true
  line : ∀ c ∈ a.line, c.isDigit = true
  kind : ∃ isStore, a.kind = loadOrStore isStore

def AccessText.text (a : AccessText) : List Char :=
  a.gap ++ (a.file ++ (": l".toList ++ (a.dot :: (a.line ++ (": ".toList ++ a.kind)))))

/-- The parts of a text that `reg` reads. -/
structure RaceText where
  id : List Char
  var1 : List Char
  var2 : List Char
  access1 : AccessText
  access2 : AccessText

structure RaceText.Valid (m : RaceText) : Prop where
  id : ∀ c ∈ m.id, c.isDigit = true
  var1 : ∀ c ∈ m.var1, isWord c = true
  var2 : ∀ c ∈ m.var2, isWord c = true
  access1 : m.access1.Valid
  access2 : m.access2.Valid

def RaceText.text (m : RaceText) : List Char :=
  "Potential race '".toList ++ (m.id ++ ("' on variable: \"".toList ++ (m.var1 ++
    ("\" and \"".toList ++ (m.var2 ++ ("\" at:".toList ++ (m.access1.text ++ m.access2.text)))))))

def RaceText.captures (m : RaceText) : Captures :=
  [("id", m.id), ("var1", m.var1), ("var2", m.var2),
    ("file1", m.access1.file), ("line1", m.access1.line), ("", m.access1.kind),
    ("file2", m.access2.file), ("line2", m.access2.line), ("", m.access2.kind)]

section Reading
variable {t : List Char} {captures : Captures} {name file line : String}

theorem reads_digits (h : Reads (digits name) t captures) :
    (∀ c ∈ t, c.isDigit = true) ∧ captures = [(name, t)] := by
  obtain ⟨captures, hseq, rfl⟩ := reads_group.mp h
  obtain ⟨_, _, _, _, hone, hmany, rfl, rfl⟩ := reads_seq.mp hseq
  obtain ⟨c, hc, rfl, rfl⟩ := reads_one.mp hone
  obtain ⟨hmore, rfl⟩ := reads_many.mp hmany
  exact ⟨List.forall_mem_cons.mpr ⟨hc, hmore⟩, rfl⟩

theorem digits_reads (ht : t ≠ []) (hdigits : ∀ c ∈ t, c.isDigit = true) :
    Reads (digits name) t [(name, t)] := by
  obtain ⟨c, t, rfl⟩ := List.exists_cons_of_ne_nil ht
  obtain ⟨hc, hmore⟩ := List.forall_mem_cons.mp hdigits
  exact .group (.seq (.one hc) (.many hmore))

theorem reads_name {p : Char → Bool} (h : Reads (.group name (.many p true)) t captures) :
    (∀ c ∈ t, p c = true) ∧ captures = [(name, t)] := by
  obtain ⟨captures, hmany, rfl⟩ := reads_group.mp h
  obtain ⟨ht, rfl⟩ := reads_many.mp hmany
  exact ⟨ht, rfl⟩

theorem reads_access (h : Reads (accessRegex file line) t captures) :
    ∃ a : AccessText, a.Valid ∧ t = a.text ∧
      captures = [(file, a.file), (line, a.line), ("", a.kind)] := by
  obtain ⟨_, _, _, _, r₁, h₁, rfl, rfl⟩ := reads_seq.mp h
  obtain ⟨space, hspace, rfl, rfl⟩ := reads_one.mp r₁
  obtain ⟨spaces, _, _, _, r₂, h₂, rfl, rfl⟩ := reads_seq.mp h₁
  obtain ⟨hspaces, rfl⟩ := reads_many.mp r₂
  obtain ⟨name, _, _, _, r₃, h₃, rfl, rfl⟩ := reads_seq.mp h₂
  obtain ⟨hfile, rfl⟩ := reads_name r₃
  obtain ⟨_, _, _, _, r₄, h₄, rfl, rfl⟩ := reads_seq.mp h₃
  obtain ⟨rfl, rfl⟩ := reads_text.mp r₄
  obtain ⟨_, _, _, _, r₅, h₅, rfl, rfl⟩ := reads_seq.mp h₄
  obtain ⟨dot, -, rfl, rfl⟩ := reads_one.mp r₅
  obtain ⟨number, _, _, _, r₆, h₆, rfl, rfl⟩ := reads_seq.mp h₅
  obtain ⟨hline, rfl⟩ := reads_digits r₆
  obtain ⟨_, _, kind, _, r₇, r₈, rfl, rfl⟩ := reads_seq.mp h₆
  obtain ⟨rfl, rfl⟩ := reads_text.mp r₇
  obtain ⟨captures, r₉, rfl⟩ := reads_group.mp r₈
  have hkind : (∃ isStore, kind = loadOrStore isStore) ∧ captures = [] := by
    rcases reads_alt.mp r₉ with hload | hstore
    · exact ⟨⟨false, (reads_text.mp hload).1⟩, (reads_text.mp hload).2⟩
    · exact ⟨⟨true, (reads_text.mp hstore).1⟩, (reads_text.mp hstore).2⟩
  obtain ⟨hkind, rfl⟩ := hkind
  exact ⟨⟨space :: spaces, name, dot, number, kind⟩,
    ⟨List.forall_mem_cons.mpr ⟨hspace, hspaces⟩, hfile, hline, hkind⟩, rfl, rfl⟩

theorem access_reads {a : AccessText} (ha : a.Valid) (hgap : a.gap ≠ []) (hline : a.line ≠ [])
    (hdot : (a.dot != '\n') = true) : Reads (accessRegex file line) a.text
      [(file, a.file), (line, a.line), ("", a.kind)] := by
  obtain ⟨gap, name, dot, number, kind⟩ := a
  obtain ⟨space, spaces, rfl⟩ := List.exists_cons_of_ne_nil hgap
  obtain ⟨hspace, hspaces⟩ := List.forall_mem_cons.mp ha.gap
  have hkind : Reads (.group "" (.alt (.text "LOAD".toList) (.text "STORE".toList))) kind
      [("", kind)] := by
    obtain ⟨isStore, rfl⟩ := ha.kind
    cases isStore with
    | false => exact .group (.left .text)
    | true => exact .group (.right .text)
  have hnumber : Reads (digits line) number [(line, number)] := digits_reads hline ha.line
  have hname : Reads (.group file (.many isFileChar true)) name [(file, name)] :=
    .group (.many ha.file)
  have hend := hnumber.seq ((@Reads.text ": ".toList).seq hkind)
  have hplace := (@Reads.text ": l".toList).seq ((@Reads.one (fun c => c != '\n') _ hdot).seq hend)
  exact (Reads.one hspace).seq ((@Reads.many isSpace false _ hspaces).seq (hname.seq hplace))

theorem reads_reg (h : Reads reg t captures) :
    ∃ m : RaceText, m.Valid ∧ t = m.text ∧ captures = m.captures := by
  obtain ⟨_, _, _, _, r₁, h₁, rfl, rfl⟩ := reads_seq.mp h
  obtain ⟨rfl, rfl⟩ := reads_text.mp r₁
  obtain ⟨id, _, _, _, r₂, h₂, rfl, rfl⟩ := reads_seq.mp h₁
  obtain ⟨hid, rfl⟩ := reads_digits r₂
  obtain ⟨_, _, _, _, r₃, h₃, rfl, rfl⟩ := reads_seq.mp h₂
  obtain ⟨rfl, rfl⟩ := reads_text.mp r₃
  obtain ⟨var1, _, _, _, r₄, h₄, rfl, rfl⟩ := reads_seq.mp h₃
  obtain ⟨hvar1, rfl⟩ := reads_name r₄
  obtain ⟨_, _, _, _, r₅, h₅, rfl, rfl⟩ := reads_seq.mp h₄
  obtain ⟨rfl, rfl⟩ := reads_text.mp r₅
  obtain ⟨var2, _, _, _, r₆, h₆, rfl, rfl⟩ := reads_seq.mp h₅
  obtain ⟨hvar2, rfl⟩ := reads_name r₆
  obtain ⟨_, _, _, _, r₇, h₇, rfl, rfl⟩ := reads_seq.mp h₆
  obtain ⟨rfl, rfl⟩ := reads_text.mp r₇
  obtain ⟨_, _, _, _, r₈, r₉, rfl, rfl⟩ := reads_seq.mp h₇
  obtain ⟨access1, hvalid1, rfl, rfl⟩ := reads_access r₈
  obtain ⟨access2, hvalid2, rfl, rfl⟩ := reads_access r₉
  exact ⟨⟨id, var1, var2, access1, access2⟩, ⟨hid, hvar1, hvar2, hvalid1, hvalid2⟩, rfl, rfl⟩

theorem reg_reads {m : RaceText} (hm : m.Valid) (hid : m.id ≠ [])
    (haccess1 : Reads (accessRegex "file1" "line1") m.access1.text
      [("file1", m.access1.file), ("line1", m.access1.line), ("", m.access1.kind)])
    (haccess2 : Reads (accessRegex "file2" "line2") m.access2.text
      [("file2", m.access2.file), ("line2", m.access2.line), ("", m.access2.kind)]) :
    Reads reg m.text m.captures := by
  have hplaces := (@Reads.text "\" at:".toList).seq (haccess1.seq haccess2)
  have hvar1 := @Reads.group "var1" _ _ _ (@Reads.many isWord true _ hm.var1)
  have hvar2 := @Reads.group "var2" _ _ _ (@Reads.many isWord true _ hm.var2)
  have hvars := hvar1.seq ((@Reads.text "\" and \"".toList).seq (hvar2.seq hplaces))
  have hnumber : Reads (digits "id") m.id [("id", m.id)] := digits_reads hid hm.id
  exact (@Reads.text "Potential race '".toList).seq
    (hnumber.seq ((@Reads.text "' on variable: \"".toList).seq hvars))

end Reading

/-! ## Races that are read back -/

/-- After white space, which `\s+?` reads, there are characters of `[\w\.]` only. -/
def readableFile (file : List Char) : Bool := (file.dropWhile isSpace).all isFileChar

/-- The option and the names the expression knows. -/
def readable (reportInst : Bool) (d : Symbols) (race : Race) : Bool :=
  !reportInst && (d.getName race.value1).all isWord && (d.getName race.value2).all isWord &&
    readableFile (d.getFilename race.access1.instruction) &&
    readableFile (d.getFilename race.access2.instruction)

/-- No colon in the file name nor in the text of the instruction, if that is written; the
latter is not blank. -/
structure Plain (reportInst : Bool) (d : Symbols) (inst : InstId) : Prop where
  file : ':' ∉ d.getFilename inst
  print : reportInst = true → ':' ∉ d.print inst
  visible : reportInst = true → ∃ c ∈ d.print inst, isSpace c = false

section Splitting
variable {q : Char} {a b a' b' X rest rest' : List Char} {p : Char → Bool} {n : Nat}
  {isStore : Bool}

/-- A text is split in one way at the first place of a character. -/
theorem split_first (ha : q ∉ a) (ha' : q ∉ a') (h : a ++ q :: b = a' ++ q :: b') :
    a = a' ∧ b = b' := by
  induction a generalizing a' with
  | nil =>
    cases a' with
    | nil => exact ⟨rfl, (List.cons.inj h).2⟩
    | cons c a' => exact absurd (List.cons.inj h).1 fun heq => ha' (by simp [heq])
  | cons c a ih =>
    cases a' with
    | nil => exact absurd (List.cons.inj h).1 fun heq => ha (by simp [heq])
    | cons c' a' =>
      obtain ⟨rfl, htail⟩ := List.cons.inj h
      rw [List.mem_cons, not_or] at ha ha'
      obtain ⟨rfl, rfl⟩ := ih ha.2 ha'.2 htail
      exact ⟨rfl, rfl⟩

/-- Two texts before the same separator, which starts with a character of neither. -/
theorem split_text {sep : List Char} (hsep : sep.head? = some q) (ha : q ∉ a) (ha' : q ∉ a')
    (h : a ++ (sep ++ b) = a' ++ (sep ++ b')) : a = a' ∧ b = b' := by
  cases sep with
  | nil => cases hsep
  | cons x sep =>
    obtain rfl := Option.some.inj hsep
    obtain ⟨heq, hrest⟩ := split_first ha ha' h
    exact ⟨heq, List.append_cancel_left hrest⟩

theorem notMem_of_class (hq : p q = false) (h : ∀ c ∈ a, p c = true) : q ∉ a := by
  intro hmem
  rw [h q hmem] at hq
  cases hq

theorem isDigit_toDigits : ∀ c ∈ Nat.toDigits 10 n, c.isDigit = true := fun _ hc =>
  Nat.isDigit_of_mem_toDigits (by decide) (by decide) hc

theorem loadOrStore_append_inj {isStore' : Bool}
    (h : loadOrStore isStore ++ rest = loadOrStore isStore' ++ rest') :
    loadOrStore isStore = loadOrStore isStore' ∧ rest = rest' := by
  cases isStore <;> cases isStore' <;> simp [loadOrStore] at h ⊢
  all_goals exact h

theorem colon_notMem_loadOrStore : ':' ∉ loadOrStore isStore := by
  cases isStore <;> simp [loadOrStore]

/-- The text before the first colon holds the gap and the file name. -/
theorem AccessText.unique {a : AccessText} (ha : a.Valid) (hX : ':' ∉ X)
    (h : a.text ++ rest' = X ++ (": l.".toList ++ (Nat.toDigits 10 n ++ (": ".toList ++
      (loadOrStore isStore ++ rest))))) :
    a.gap ++ a.file = X ∧ a.line = Nat.toDigits 10 n ∧ a.kind = loadOrStore isStore ∧
      rest' = rest := by
  obtain ⟨kind, hkind⟩ := ha.kind
  simp only [AccessText.text, List.append_assoc, List.cons_append, hkind] at h
  rw [← List.append_assoc] at h
  have hgap : ':' ∉ a.gap ++ a.file := by
    rw [List.mem_append, not_or]
    exact ⟨notMem_of_class rfl ha.gap, notMem_of_class rfl ha.file⟩
  obtain ⟨hfile, hafter⟩ := split_first hgap hX h
  have hnumber := (List.cons.inj (List.cons.inj (List.cons.inj hafter).2).2).2
  obtain ⟨hline, hafter⟩ := split_first (notMem_of_class rfl ha.line)
    (notMem_of_class rfl isDigit_toDigits) hnumber
  obtain ⟨hsame, hrest⟩ := loadOrStore_append_inj (List.cons.inj hafter).2
  exact ⟨hfile, hline, hkind.trans hsame, hrest⟩

theorem isSpace_of_isFileChar {c : Char} (h : isFileChar c = true) : isSpace c = false := by
  by_contra hspace
  rw [Bool.not_eq_false] at hspace
  simp only [isSpace, Bool.or_eq_true, beq_iff_eq] at hspace
  have hnot : isFileChar c = false := by
    rcases hspace with ((((rfl | rfl) | rfl) | rfl) | hc) | hc
    · rfl
    · rfl
    · rfl
    · rfl
    · rw [← Char.ofNat_toNat c, hc]
      rfl
    · rw [← Char.ofNat_toNat c, hc]
      rfl
  rw [h] at hnot
  cases hnot

/-- The file name is what follows the white space. -/
theorem AccessText.file_eq {a : AccessText} (ha : a.Valid) (h : a.gap ++ a.file = X) :
    a.file = X.dropWhile isSpace := by
  rw [← h, List.dropWhile_append_of_pos ha.gap]
  cases hfile : a.file with
  | nil => rfl
  | cons c file =>
    have hc := isSpace_of_isFileChar (ha.file c (by simp [hfile]))
    rw [List.dropWhile_cons_of_neg (by simp [hc])]

theorem append_parts {a b c d e f g x y : List Char} :
    (a ++ (b ++ (c ++ (d ++ (e ++ (f ++ (g ++ (x ++ y)))))))) ++ rest =
      a ++ (b ++ (c ++ (d ++ (e ++ (f ++ (g ++ (x ++ (y ++ rest)))))))) := by
  simp only [List.append_assoc]

/-- Text that is not blank keeps what comes after it from being skipped. -/
theorem mem_dropWhile_append {c : Char} (ha : ∃ c ∈ a, p c = false) (hc : c ∈ b) :
    c ∈ (a ++ b).dropWhile p := by
  induction a with
  | nil =>
    obtain ⟨x, hx, -⟩ := ha
    cases hx
  | cons x a ih =>
    cases hx : p x with
    | false =>
      rw [List.cons_append, List.dropWhile_cons_of_neg (by simp [hx])]
      simp [hc]
    | true =>
      obtain ⟨y, hy, hpy⟩ := ha
      rcases List.mem_cons.mp hy with rfl | hy
      · rw [hx] at hpy
        cases hpy
      · rw [List.cons_append, List.dropWhile_cons_of_pos hx]
        exact ih ⟨y, hy, hpy⟩

end Splitting

section Races
variable {reportInst : Bool} {d : Symbols} {race : Race} {access : AccessType} {inst : InstId}
  {rest rest' : List Char} {m : RaceText}

/-- The parts of the lines of an access whose file name is known. -/
def accessTextOf (d : Symbols) (access : AccessType) : AccessText where
  gap := "\n ".toList ++ (d.getFilename access.instruction).takeWhile isSpace
  file := (d.getFilename access.instruction).dropWhile isSpace
  dot := '.'
  line := Nat.toDigits 10 (d.getLineNumber access.instruction)
  kind := loadOrStore access.isStore

/-- The parts of the lines of a race that is read back. -/
def raceTextOf (d : Symbols) (race : Race) : RaceText where
  id := Nat.toDigits 10 race.number
  var1 := d.getName race.value1
  var2 := d.getName race.value2
  access1 := accessTextOf d race.access1
  access2 := accessTextOf d race.access2

theorem text_accessTextOf : "\n".toList ++ accessLines false d access =
    (accessTextOf d access).text ++ "\n".toList := by
  have hfile : ∀ text : List Char, (d.getFilename access.instruction).takeWhile isSpace ++
      ((d.getFilename access.instruction).dropWhile isSpace ++ text) =
        d.getFilename access.instruction ++ text := by
    intro text
    rw [← List.append_assoc, List.takeWhile_append_dropWhile]
  simp only [AccessText.text, accessTextOf, List.append_assoc, hfile, List.cons_append]
  simp [accessLines, getLocation, instructionLine]

theorem text_raceTextOf : raceLines false d race = (raceTextOf d race).text ++ "\n".toList := by
  have hat : ∀ x y : List Char, "\" at:\n".toList ++ (x ++ y) =
      "\" at:".toList ++ (("\n".toList ++ x) ++ y) := by simp
  have hplaces : ("\n".toList ++ accessLines false d race.access1) ++
      accessLines false d race.access2 = (accessTextOf d race.access1).text ++
        ((accessTextOf d race.access2).text ++ "\n".toList) :=
    calc _ = ((accessTextOf d race.access1).text ++ "\n".toList) ++
          accessLines false d race.access2 := congrArg (· ++ _) text_accessTextOf
      _ = (accessTextOf d race.access1).text ++
          ("\n".toList ++ accessLines false d race.access2) := List.append_assoc _ _ _
      _ = _ := congrArg _ text_accessTextOf
  have hend := (hat _ _).trans (congrArg ("\" at:".toList ++ ·) hplaces)
  exact (congrArg (fun places => "Potential race '".toList ++ (Nat.toDigits 10 race.number ++
    ("' on variable: \"".toList ++ (d.getName race.value1 ++ ("\" and \"".toList ++
      (d.getName race.value2 ++ places)))))) hend).trans append_parts.symm

theorem readable_iff : readable reportInst d race = true ↔ reportInst = false ∧
    (∀ c ∈ d.getName race.value1, isWord c = true) ∧
    (∀ c ∈ d.getName race.value2, isWord c = true) ∧
    readableFile (d.getFilename race.access1.instruction) = true ∧
    readableFile (d.getFilename race.access2.instruction) = true := by
  simp [readable, and_assoc]

theorem valid_accessTextOf (h : readableFile (d.getFilename access.instruction) = true) :
    (accessTextOf d access).Valid where
  gap := by
    intro c hc
    rcases List.mem_append.mp hc with hc | hc
    · simp at hc
      rcases hc with rfl | rfl
      · rfl
      · rfl
    · exact List.mem_takeWhile_imp hc
  file := List.all_eq_true.mp h
  line := isDigit_toDigits
  kind := ⟨access.isStore, rfl⟩

/-- The expression reads a race with the names it knows. -/
theorem reads_raceTextOf (h : readable false d race = true) :
    Reads reg (raceTextOf d race).text (raceTextOf d race).captures := by
  obtain ⟨-, hname1, hname2, hfile1, hfile2⟩ := readable_iff.mp h
  have hvalid1 := valid_accessTextOf hfile1
  have hvalid2 := valid_accessTextOf hfile2
  exact reg_reads ⟨isDigit_toDigits, hname1, hname2, hvalid1, hvalid2⟩ Nat.toDigits_ne_nil
    (access_reads hvalid1 nofun Nat.toDigits_ne_nil rfl)
    (access_reads hvalid2 nofun Nat.toDigits_ne_nil rfl)

/-- The file name the expression reads follows the break of a line and, if it is there,
the line of an instruction. -/
theorem readableFile_of_eq {a : AccessText} {file : List Char} (ha : a.Valid)
    (h : a.gap ++ a.file = "\n".toList ++ (instructionLine reportInst d inst ++
      (" ".toList ++ file)))
    (hvisible : reportInst = true → ∃ c ∈ d.print inst, isSpace c = false) :
    reportInst = false ∧ readableFile file = true ∧ a.file = file.dropWhile isSpace := by
  have hfile := AccessText.file_eq ha h
  cases reportInst with
  | false =>
    have hdrop : a.file = file.dropWhile isSpace := hfile
    refine ⟨rfl, ?_, hdrop⟩
    rw [readableFile, ← hdrop, List.all_eq_true]
    exact ha.file
  | true =>
    have hbreak : '\n' ∈ a.file := by
      have hprint : "\n".toList ++ (instructionLine true d inst ++ (" ".toList ++ file)) =
          "\n   ".toList ++ (d.print inst ++ '\n' :: ' ' :: file) := by simp [instructionLine]
      rw [hfile, hprint, dropWhile_blank (by simp [Blank, isSpace])]
      exact mem_dropWhile_append (hvisible rfl) List.mem_cons_self
    exact absurd (isSpace_of_isFileChar (ha.file '\n' hbreak)) (by decide)

theorem accessLines_append : accessLines reportInst d access ++ rest =
    " ".toList ++ (d.getFilename access.instruction ++ (": l.".toList ++
      (Nat.toDigits 10 (d.getLineNumber access.instruction) ++ (": ".toList ++
        (loadOrStore access.isStore ++ ("\n".toList ++
          (instructionLine reportInst d access.instruction ++ rest))))))) := by
  simp only [accessLines, getLocation, List.append_assoc]

/-- What is between the break of a line and the place of an access has no colon. -/
theorem colon_notMem {file : List Char} (hfile : ':' ∉ file)
    (hprint : reportInst = true → ':' ∉ d.print inst) :
    ':' ∉ "\n".toList ++ (instructionLine reportInst d inst ++ (" ".toList ++ file)) := by
  cases reportInst with
  | false => simpa [instructionLine] using hfile
  | true => simpa [instructionLine] using ⟨hprint rfl, hfile⟩

/-- What the expression reads of an access after the break of a line, and perhaps the
line of an instruction. -/
theorem AccessText.readable {a : AccessText} (ha : a.Valid)
    (h : a.text ++ rest' = "\n".toList ++ (instructionLine reportInst d inst ++
      (accessLines reportInst' d access ++ rest)))
    (hfile : ':' ∉ d.getFilename access.instruction)
    (hprint : reportInst = true → ':' ∉ d.print inst)
    (hvisible : reportInst = true → ∃ c ∈ d.print inst, isSpace c = false) :
    reportInst = false ∧ readableFile (d.getFilename access.instruction) = true ∧
      a.file = (accessTextOf d access).file ∧ a.line = (accessTextOf d access).line ∧
      a.kind = (accessTextOf d access).kind ∧
      rest' = "\n".toList ++ (instructionLine reportInst' d access.instruction ++ rest) := by
  have hparts : a.text ++ rest' = ("\n".toList ++ (instructionLine reportInst d inst ++
      (" ".toList ++ d.getFilename access.instruction))) ++ (": l.".toList ++
        (Nat.toDigits 10 (d.getLineNumber access.instruction) ++ (": ".toList ++
          (loadOrStore access.isStore ++ ("\n".toList ++
            (instructionLine reportInst' d access.instruction ++ rest)))))) := by
    rw [h, accessLines_append]
    simp only [List.append_assoc]
  obtain ⟨hgap, hline, hkind, hrest⟩ := AccessText.unique ha (colon_notMem hfile hprint) hparts
  obtain ⟨hoption, hreadable, hname⟩ := readableFile_of_eq ha hgap hvisible
  exact ⟨hoption, hreadable, hname, hline, hkind, hrest⟩

/-- What the expression reads at the start of a race is the race. -/
theorem readable_of_reads (hm : m.Valid) (hname1 : ∀ c ∈ d.getName race.value1, isWord c = true)
    (hname2 : ∀ c ∈ d.getName race.value2, isWord c = true)
    (hplain1 : Plain reportInst d race.access1.instruction)
    (hplain2 : Plain reportInst d race.access2.instruction)
    (h : m.text ++ rest' = raceLines reportInst d race ++ rest) :
    readable reportInst d race = true ∧ m.captures = (raceTextOf d race).captures ∧
      rest' = "\n".toList ++ rest := by
  have hparts := (append_parts ..).symm.trans (h.trans (append_parts ..))
  obtain ⟨hid, h₁⟩ := split_text (q := '\'') rfl (notMem_of_class rfl hm.id)
    (notMem_of_class rfl isDigit_toDigits) (List.append_cancel_left hparts)
  obtain ⟨hvar1, h₂⟩ := split_text (q := '"') rfl (notMem_of_class rfl hm.var1)
    (notMem_of_class rfl hname1) h₁
  have hat : "\" at:\n".toList = "\" at:".toList ++ "\n".toList := rfl
  rw [hat, List.append_assoc] at h₂
  obtain ⟨hvar2, h₃⟩ := split_text (q := '"') rfl (notMem_of_class rfl hm.var2)
    (notMem_of_class rfl hname2) h₂
  have h₃' : m.access1.text ++ (m.access2.text ++ rest') =
      "\n".toList ++ (instructionLine false d race.access1.instruction ++
        (accessLines reportInst d race.access1 ++
          (accessLines reportInst d race.access2 ++ rest))) := h₃
  obtain ⟨-, hfile1, hname1', hline1, hkind1, h₄⟩ :=
    AccessText.readable hm.access1 h₃' hplain1.file nofun nofun
  obtain ⟨hoption, hfile2, hname2', hline2, hkind2, h₅⟩ :=
    AccessText.readable hm.access2 h₄ hplain2.file hplain1.print hplain1.visible
  subst hoption
  refine ⟨readable_iff.mpr ⟨rfl, hname1, hname2, hfile1, hfile2⟩, ?_, h₅⟩
  simp only [RaceText.captures, raceTextOf, hid, hvar1, hvar2, hname1', hline1, hkind1, hname2',
    hline2, hkind2]

end Races

/-! ## Passing over text -/

section Passing
variable {reportInst : Bool} {d : Symbols} {race : Race} {access : AccessType}
  {t a next rest : List Char} {c : Char} {captures : Captures}

theorem start_text : "Potential race '".toList = 'P' :: "otential race '".toList := by simp

theorem variable_text : "' on variable: \"".toList = "' on variable".toList ++ [':', ' ', '"'] := by
  simp

theorem places_text : "\" at:\n".toList = "\" at".toList ++ ':' :: "\n".toList := by simp

/-- The expression reads from a capital P to the first colon, which a quotation mark follows. -/
theorem starts_of_reads (h : Reads reg t captures) (hs : c :: a = t ++ rest) :
    c = 'P' ∧ ∃ front back, a = front ++ ':' :: ' ' :: '"' :: back ∧ ':' ∉ front ∧ 'P' ∉ front := by
  obtain ⟨m, hm, rfl, -⟩ := reads_reg h
  have hid : ':' ∉ m.id := notMem_of_class rfl hm.id
  have hcapital : 'P' ∉ m.id := notMem_of_class rfl hm.id
  have hfront : ':' ∉ "otential race '".toList ++ (m.id ++ "' on variable".toList) := by simp [hid]
  have hfront' : 'P' ∉ "otential race '".toList ++ (m.id ++ "' on variable".toList) := by
    simp [hcapital]
  have hparts := hs.trans append_parts
  rw [start_text, variable_text] at hparts
  generalize "otential race '".toList = start at *
  generalize "' on variable".toList = onVariable at *
  simp only [List.append_assoc, List.cons_append, List.nil_append] at hparts
  rw [← List.append_assoc m.id, ← List.append_assoc start] at hparts
  obtain ⟨hc, ha⟩ := List.cons.inj hparts
  exact ⟨hc, _, _, ha, hfront, hfront'⟩

theorem findIter_skip_char (hc : c ≠ 'P') : findIter reg 0 (c :: a) = findIter reg 0 a :=
  findIter_of_not_reads fun _ _ _ hs h => hc (starts_of_reads h hs).1

/-- Text without a capital P is passed over. -/
theorem findIter_skip_text (ha : 'P' ∉ a) : findIter reg 0 (a ++ rest) = findIter reg 0 rest := by
  induction a with
  | nil => rfl
  | cons c a ih =>
    rw [List.mem_cons, not_or] at ha
    exact (findIter_skip_char (Ne.symm ha.1)).trans (ih ha.2)

/-- Text up to a colon that no quotation mark follows is passed over. -/
theorem findIter_skip_colon (ha : ':' ∉ a) (hnext : ∀ back, next ≠ ' ' :: '"' :: back) :
    findIter reg 0 (a ++ ':' :: next) = findIter reg 0 next := by
  induction a with
  | nil => exact findIter_skip_char (by decide)
  | cons c a ih =>
    rw [List.mem_cons, not_or] at ha
    refine (findIter_of_not_reads fun _ _ _ hs h => ?_).trans (ih ha.2)
    obtain ⟨-, front, back, hsplit, hfront, -⟩ := starts_of_reads h hs
    exact hnext back (split_first ha.2 hfront hsplit).2

/-- A text that is empty or starts with a race. -/
def AtRace (rest : List Char) : Prop :=
  rest = [] ∨ ∃ front back, rest = 'P' :: (front ++ ':' :: back) ∧ ':' ∉ front

/-- Text without a colon before a race is passed over. -/
theorem findIter_skip_end (ha : ':' ∉ a) (hrest : AtRace rest) :
    findIter reg 0 (a ++ rest) = findIter reg 0 rest := by
  induction a with
  | nil => rfl
  | cons c a ih =>
    rw [List.mem_cons, not_or] at ha
    refine (findIter_of_not_reads fun _ _ _ hs h => ?_).trans (ih ha.2)
    obtain ⟨-, front, back, htail, hfront, hcapital⟩ := starts_of_reads h hs
    have hsplit : a ++ rest = front ++ ':' :: ' ' :: '"' :: back := htail
    rcases hrest with rfl | ⟨front', back', rfl, hfront'⟩
    · rw [List.append_nil] at hsplit
      exact ha.2 (by simp [hsplit])
    · have hsame : (a ++ 'P' :: front') ++ ':' :: back' = front ++ ':' :: ' ' :: '"' :: back := by
        simpa using hsplit
      have hnone : ':' ∉ a ++ 'P' :: front' := by simp [ha.2, hfront']
      obtain ⟨rfl, -⟩ := split_first hnone hfront hsame
      simp at hcapital

/-- A race up to its second colon. -/
theorem raceLines_append : raceLines reportInst d race ++ rest =
    'P' :: (("otential race '".toList ++ (Nat.toDigits 10 race.number ++ "' on variable".toList)) ++
      ':' :: ((' ' :: '"' :: (d.getName race.value1 ++ ("\" and \"".toList ++
        (d.getName race.value2 ++ "\" at".toList)))) ++
          ':' :: ("\n".toList ++ (accessLines reportInst d race.access1 ++
            (accessLines reportInst d race.access2 ++ rest))))) := by
  have hparts : raceLines reportInst d race ++ rest = "Potential race '".toList ++
      (Nat.toDigits 10 race.number ++ ("' on variable: \"".toList ++ (d.getName race.value1 ++
        ("\" and \"".toList ++ (d.getName race.value2 ++ ("\" at:\n".toList ++
          (accessLines reportInst d race.access1 ++
            (accessLines reportInst d race.access2 ++ rest)))))))) := append_parts
  rw [hparts, start_text, variable_text, places_text]
  generalize "otential race '".toList = start
  generalize "' on variable".toList = onVariable
  generalize "\" and \"".toList = between
  generalize "\" at".toList = back
  generalize "\n".toList = newline
  simp only [List.append_assoc, List.cons_append, List.nil_append]

theorem atRace_racesFile {races : List Race} : AtRace (racesFile reportInst d races) := by
  cases races with
  | nil => exact .inl rfl
  | cons race races =>
    have hid : ':' ∉ Nat.toDigits 10 race.number := notMem_of_class rfl isDigit_toDigits
    exact .inr ⟨_, _, raceLines_append, by simp [hid]⟩

/-- The lines of an access up to its last colon are passed over. -/
theorem findIter_skip_access (ha : ':' ∉ a) (hfile : ':' ∉ d.getFilename access.instruction) :
    findIter reg 0 (a ++ (accessLines reportInst d access ++ rest)) =
      findIter reg 0 (" ".toList ++ (loadOrStore access.isStore ++ ("\n".toList ++
        (instructionLine reportInst d access.instruction ++ rest)))) := by
  have hparts : a ++ (accessLines reportInst d access ++ rest) =
      (a ++ (" ".toList ++ d.getFilename access.instruction)) ++ ':' ::
        ((" l.".toList ++ Nat.toDigits 10 (d.getLineNumber access.instruction)) ++ ':' ::
          (" ".toList ++ (loadOrStore access.isStore ++ ("\n".toList ++
            (instructionLine reportInst d access.instruction ++ rest))))) := by
    rw [accessLines_append]
    simp
  have hline : ':' ∉ Nat.toDigits 10 (d.getLineNumber access.instruction) :=
    notMem_of_class rfl isDigit_toDigits
  rw [hparts, findIter_skip_colon (by simp [ha, hfile]) (by simp),
    findIter_skip_colon (by simp [hline])]
  intro back hback
  cases hstore : access.isStore <;> simp [hstore, loadOrStore] at hback

/-- A race that is not read back is passed over. -/
theorem findIter_unreadable (hname1 : ∀ c ∈ d.getName race.value1, isWord c = true)
    (hname2 : ∀ c ∈ d.getName race.value2, isWord c = true)
    (hplain1 : Plain reportInst d race.access1.instruction)
    (hplain2 : Plain reportInst d race.access2.instruction)
    (hno : readable reportInst d race = false) (hrest : AtRace rest) :
    findIter reg 0 (raceLines reportInst d race ++ rest) = findIter reg 0 rest := by
  have hcolon : ∀ {inst}, Plain reportInst d inst → ':' ∉ instructionLine reportInst d inst := by
    intro inst hplain
    cases reportInst with
    | false => simp [instructionLine]
    | true => simpa [instructionLine] using hplain.print rfl
  have hreads : ∀ t rest' captures, raceLines reportInst d race ++ rest = t ++ rest' →
      ¬ Reads reg t captures := by
    intro t rest' captures hs h
    obtain ⟨m, hm, rfl, -⟩ := reads_reg h
    rw [(readable_of_reads hm hname1 hname2 hplain1 hplain2 hs.symm).1] at hno
    cases hno
  have hid : 'P' ∉ Nat.toDigits 10 race.number := notMem_of_class rfl isDigit_toDigits
  have hword1 : ':' ∉ d.getName race.value1 := notMem_of_class rfl hname1
  have hword2 : ':' ∉ d.getName race.value2 := notMem_of_class rfl hname2
  rw [raceLines_append] at hreads ⊢
  rw [findIter_of_not_reads hreads, findIter_skip_text (by simp [hid]),
    findIter_skip_char (by decide), findIter_skip_colon (by simp [hword1, hword2]) (by simp),
    findIter_skip_access (by simp) hplain1.file]
  have hkind1 : ':' ∉ " ".toList ++ (loadOrStore race.access1.isStore ++ ("\n".toList ++
      instructionLine reportInst d race.access1.instruction)) := by
    simp [colon_notMem_loadOrStore, hcolon hplain1]
  have hkind2 : ':' ∉ " ".toList ++ (loadOrStore race.access2.isStore ++ ("\n".toList ++
      instructionLine reportInst d race.access2.instruction)) := by
    simp [colon_notMem_loadOrStore, hcolon hplain2]
  have hskip1 := @findIter_skip_access reportInst d race.access2 _ rest hkind1 hplain2.file
  have hskip2 := findIter_skip_end hkind2 hrest
  simp only [List.append_assoc] at hskip1 hskip2
  exact hskip1.trans hskip2

/-- A race that is read back is found as what has been written. -/
theorem findIter_readable (h : readable reportInst d race = true)
    (hplain1 : Plain reportInst d race.access1.instruction)
    (hplain2 : Plain reportInst d race.access2.instruction) :
    findIter reg 0 (raceLines reportInst d race ++ rest) =
      (raceTextOf d race).captures :: findIter reg 0 rest := by
  obtain ⟨rfl, hname1, hname2, -⟩ := readable_iff.mp h
  have hlines := @text_raceTextOf d race
  have hunique : ∀ t rest' captures, (raceTextOf d race).text ++ ("\n".toList ++ rest) =
      t ++ rest' → Reads reg t captures →
        captures = (raceTextOf d race).captures ∧ rest' = "\n".toList ++ rest := by
    intro t rest' captures hs hreads
    obtain ⟨m, hm, rfl, rfl⟩ := reads_reg hreads
    rw [← List.append_assoc, ← hlines] at hs
    exact (readable_of_reads hm hname1 hname2 hplain1 hplain2 hs.symm).2
  rw [hlines, List.append_assoc]
  exact (findIter_of_unique (reads_raceTextOf h) hunique).trans
    (congrArg _ (findIter_skip_char (by decide)))

end Passing

section Files
variable {reportInst : Bool} {d : Symbols} {races : List Race}

/-- The races that are found are those that are read back. -/
theorem findIter_racesFile
    (hnames : ∀ race ∈ races, (∀ c ∈ d.getName race.value1, isWord c = true) ∧
      ∀ c ∈ d.getName race.value2, isWord c = true)
    (hplain : ∀ race ∈ races, Plain reportInst d race.access1.instruction ∧
      Plain reportInst d race.access2.instruction) :
    findIter reg 0 (racesFile reportInst d races) =
      (races.filter (readable reportInst d)).map fun race => (raceTextOf d race).captures := by
  induction races with
  | nil => rfl
  | cons race races ih =>
    obtain ⟨⟨hname1, hname2⟩, hnames⟩ := List.forall_mem_cons.mp hnames
    obtain ⟨⟨hplain1, hplain2⟩, hplain⟩ := List.forall_mem_cons.mp hplain
    have hrest := ih hnames hplain
    rw [racesFile, List.flatMap_cons, ← racesFile]
    cases hread : readable reportInst d race with
    | true =>
      rw [findIter_readable hread hplain1 hplain2, hrest, List.filter_cons_of_pos hread]
      rfl
    | false =>
      rw [findIter_unreadable hname1 hname2 hplain1 hplain2 hread atRace_racesFile, hrest,
        List.filter_cons_of_neg (by simp [hread])]

/-- `addrace` takes a race to what the groups have read. -/
theorem parseRacer_eq {text : List Char} : parseRacer text = (findIter reg 0 text).map fun race =>
    (Nat.ofDigitChars 10 (groupOf race "line1") 0, groupOf race "var1",
      Nat.ofDigitChars 10 (groupOf race "line2") 0, groupOf race "var2") := by
  have hloop : ∀ (found : List Captures) (ret : List RaceTuple),
      found.foldl (fun ret race => addrace race ret) ret = ret ++ found.map fun race =>
        (Nat.ofDigitChars 10 (groupOf race "line1") 0, groupOf race "var1",
          Nat.ofDigitChars 10 (groupOf race "line2") 0, groupOf race "var2") := by
    intro found
    induction found with
    | nil => simp
    | cons race found ih =>
      intro ret
      rw [List.foldl_cons, ih, addrace]
      simp
  exact hloop _ []

/-- Of a file with plain names the reader gets just the races whose names it knows. -/
theorem parseRacer_racesFile
    (hnames : ∀ race ∈ races, (∀ c ∈ d.getName race.value1, isWord c = true) ∧
      ∀ c ∈ d.getName race.value2, isWord c = true)
    (hplain : ∀ race ∈ races, Plain reportInst d race.access1.instruction ∧
      Plain reportInst d race.access2.instruction) :
    parseRacer (racesFile reportInst d races) =
      (races.filter (readable reportInst d)).map (tupleOf d) := by
  rw [parseRacer_eq, findIter_racesFile hnames hplain, List.map_map]
  refine List.map_congr_left fun race _ => ?_
  simp [groupOf, RaceText.captures, raceTextOf, accessTextOf, tupleOf, List.lookup_cons]

/-- The variables of a race that has been read are words. -/
theorem isWord_of_mem_parseRacer {text : List Char} {race : RaceTuple}
    (h : race ∈ parseRacer text) :
    (∀ c ∈ race.2.1, isWord c = true) ∧ ∀ c ∈ race.2.2.2, isWord c = true := by
  rw [parseRacer_eq] at h
  obtain ⟨captures, hfound, rfl⟩ := List.mem_map.mp h
  obtain ⟨t, hreads⟩ := reads_of_mem_findIter hfound
  obtain ⟨m, hm, -, rfl⟩ := reads_reg hreads
  exact ⟨hm.var1, hm.var2⟩

/-- A race that is read back has no colon in its file names. -/
theorem plain_of_readableFile {inst : InstId} (h : readableFile (d.getFilename inst) = true) :
    Plain false d inst where
  file := by
    rw [← List.takeWhile_append_dropWhile (p := isSpace) (l := d.getFilename inst),
      List.mem_append, not_or]
    exact ⟨notMem_of_class rfl fun c hc => List.mem_takeWhile_imp hc,
      notMem_of_class rfl (List.all_eq_true.mp h)⟩
  print := nofun
  visible := nofun

/-- Where all names are known and `report-inst` is off, every race is read back; and in
files with plain names only there. -/
theorem parseRacer_eq_races (reportInst : Bool) (d : Symbols) (races : List Race) :
    ((∀ race ∈ races, readable reportInst d race = true) →
      parseRacer (racesFile reportInst d races) = races.map (tupleOf d)) ∧
    ((∀ race ∈ races, Plain reportInst d race.access1.instruction ∧
        Plain reportInst d race.access2.instruction) →
      parseRacer (racesFile reportInst d races) = races.map (tupleOf d) →
        ∀ race ∈ races, readable reportInst d race = true) := by
  constructor
  · intro hreadable
    have hnames : ∀ race ∈ races, (∀ c ∈ d.getName race.value1, isWord c = true) ∧
        ∀ c ∈ d.getName race.value2, isWord c = true := by
      intro race hrace
      obtain ⟨-, hname1, hname2, -⟩ := readable_iff.mp (hreadable race hrace)
      exact ⟨hname1, hname2⟩
    have hplain : ∀ race ∈ races, Plain reportInst d race.access1.instruction ∧
        Plain reportInst d race.access2.instruction := by
      intro race hrace
      obtain ⟨rfl, -, -, hfile1, hfile2⟩ := readable_iff.mp (hreadable race hrace)
      exact ⟨plain_of_readableFile hfile1, plain_of_readableFile hfile2⟩
    rw [parseRacer_racesFile hnames hplain, List.filter_eq_self.mpr hreadable]
  · intro hplain hparse
    have hnames : ∀ race ∈ races, (∀ c ∈ d.getName race.value1, isWord c = true) ∧
        ∀ c ∈ d.getName race.value2, isWord c = true := by
      intro race hrace
      have hmem : tupleOf d race ∈ parseRacer (racesFile reportInst d races) := by
        rw [hparse]
        exact List.mem_map_of_mem hrace
      exact isWord_of_mem_parseRacer hmem
    rw [parseRacer_racesFile hnames hplain] at hparse
    have hlength := congrArg List.length hparse
    rw [List.length_map, List.length_map] at hlength
    exact List.length_filter_eq_length_iff.mp hlength

end Files

/-- A store and a load of `counter`. -/
def counterRace : Race where
  number := 0
  value1 := .global "counter"
  value2 := .global "counter"
  access1 := ⟨true, true, ⟨"main", 0, 0⟩, ∅⟩
  access2 := ⟨false, true, ⟨"main", 0, 1⟩, ∅⟩

/-- Everything is in one file and called `counter`. -/
def symbolsIn (file : String) : Symbols where
  getName _ := "counter".toList
  getFilename _ := file.toList
  getLineNumber inst := 7 + inst.index
  print _ := "  store i32 1, i32* @counter".toList

theorem counter_readable : ∀ race ∈ [counterRace],
    readable false (symbolsIn "main.c") race = true := by
  intro race hrace
  rw [List.mem_singleton.mp hrace]
  rfl

theorem plain_symbolsIn {file : String} (h : ':' ∉ file.toList) (inst : InstId) :
    Plain false (symbolsIn file) inst := ⟨h, nofun, nofun⟩

theorem parseRacer_eq_races_counter :
    parseRacer (racesFile false (symbolsIn "main.c") [counterRace]) =
      [counterRace].map (tupleOf (symbolsIn "main.c")) ∧
    ∀ race ∈ [counterRace], readable false (symbolsIn "main.c") race = true := by
  obtain ⟨hread, hexact⟩ := parseRacer_eq_races false (symbolsIn "main.c") [counterRace]
  have hplain := fun inst => @plain_symbolsIn "main.c" (by decide) inst
  have hparse := hread counter_readable
  exact ⟨hparse, hexact (fun _ _ => ⟨hplain _, hplain _⟩) hparse⟩

/-- With a directory in the file name the race is not found. -/
theorem directory_not_read : ¬ ∀ reportInst d races,
    parseRacer (racesFile reportInst d races) = races.map (tupleOf d) := by
  intro hall
  have hplain := fun inst => @plain_symbolsIn "src/main.c" (by decide) inst
  have hnames : ∀ race ∈ [counterRace],
      (∀ c ∈ (symbolsIn "src/main.c").getName race.value1, isWord c = true) ∧
        ∀ c ∈ (symbolsIn "src/main.c").getName race.value2, isWord c = true := by
    intro race _
    have hword : "counter".toList.all isWord = true := rfl
    exact ⟨List.all_eq_true.mp hword, List.all_eq_true.mp hword⟩
  have hnone : [counterRace].filter (readable false (symbolsIn "src/main.c")) = [] := rfl
  have hparse := hall false (symbolsIn "src/main.c") [counterRace]
  rw [parseRacer_racesFile hnames fun _ _ => ⟨hplain _, hplain _⟩, hnone] at hparse
  cases hparse

end Lockout.Strator.RaceFile
