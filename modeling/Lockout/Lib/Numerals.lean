import Mathlib.Data.Nat.Notation
import Mathlib.Tactic.IntervalCases
import Lockout.Lib.TextStream

/-! # Numbers as text

Integers in decimal notation and addresses in hexadecimal notation, as streams write
and scan them. Both formats are round trips. Numbers are unbounded: on the values of `int`
and of `void*` the formats do what a stream does, and on a text whose number is none of
them, where a stream fails, they read it. -/

namespace Lockout.Lib.Numerals
open Lockout.Lib.TextStream

/-- The value of a digit, in any base up to 16. -/
def digitValue (c : Char) : Option Nat :=
  if '0' ≤ c ∧ c ≤ '9' then some (c.toNat - 48)
  else if 'a' ≤ c ∧ c ≤ 'f' then some (c.toNat - 87)
  else if 'A' ≤ c ∧ c ≤ 'F' then some (c.toNat - 55)
  else none

def digit (b : Nat) (c : Char) : Option Nat := (digitValue c).filter fun d => d < b

/-- Further digits after those that make up `acc`. -/
def scanDigits (b : Nat) : Nat → List Char → Nat × List Char
  | acc, [] => (acc, [])
  | acc, c :: cs => match digit b c with
    | some d => scanDigits b (acc * b + d) cs
    | none => (acc, c :: cs)

def scanNat (b : Nat) : List Char → Option (Nat × List Char)
  | [] => none
  | c :: cs => (digit b c).map fun d => scanDigits b d cs

def scanInt : List Char → Option (Int × List Char)
  | '-' :: cs => (scanNat 10 cs).map fun p => (-p.1, p.2)
  | '+' :: cs => (scanNat 10 cs).map fun p => (p.1, p.2)
  | cs => (scanNat 10 cs).map fun p => (p.1, p.2)

/-- `int` in decimal notation. -/
def decimal : Format Int where
  print i := if i < 0 then '-' :: Nat.toDigits 10 i.natAbs else Nat.toDigits 10 i.natAbs
  scan := scanInt

def scanAddress : List Char → Option (Nat × List Char)
  | '0' :: 'x' :: cs => scanNat 16 cs
  | cs => scanNat 16 cs

/-- `void*` in hexadecimal notation; the null pointer is a single zero. -/
def hexadecimal : Format Nat where
  print n := if n = 0 then ['0'] else '0' :: 'x' :: Nat.toDigits 16 n
  scan := scanAddress

section Digits
variable {b n d : Nat} {rest : List Char}

theorem digit_digitChar (hb : b ≤ 16) (hd : d < b) : digit b (Nat.digitChar d) = some d := by
  have hvalue : digitValue (Nat.digitChar d) = some d := by
    have hlt : d < 16 := by omega
    interval_cases d <;> rfl
  simp [digit, hvalue, hd]

theorem isSpace_digitChar (hd : d < 16) : isSpace (Nat.digitChar d) = false := by
  interval_cases d <;> rfl

theorem digit_eq_none {c : Char} (h : isSpace c = true) : digit b c = none := by
  have hvalue : digitValue c = none := by
    simp only [isSpace, Bool.or_eq_true, beq_iff_eq] at h
    have hsmall : c.toNat ≤ 32 := by
      rcases h with ((((rfl | rfl) | rfl) | rfl) | h) | h
      all_goals first | decide | omega
    have hnot : ∀ lo hi : Char, 32 < lo.toNat → ¬ (lo ≤ c ∧ c ≤ hi) := by
      intro lo hi hlo hle
      have : lo.toNat ≤ c.toNat := hle.1
      omega
    simp only [digitValue, hnot '0' '9' (by decide), hnot 'a' 'f' (by decide),
      hnot 'A' 'F' (by decide), if_false]
  simp [digit, hvalue]

theorem scanDigits_atBreak (h : AtBreak rest) : scanDigits b n rest = (n, rest) := by
  cases rest with
  | nil => rfl
  | cons c rest => rw [scanDigits, digit_eq_none (h c rfl)]

/-- The digits of `n` are scanned as `n`, whatever digits follow them. -/
theorem scanNat_toDigits_append (hb : 1 < b) (hb' : b ≤ 16) (n : Nat) (rest : List Char) :
    scanNat b (Nat.toDigits b n ++ rest) = some (scanDigits b n rest) := by
  induction n using Nat.strongRecOn generalizing rest with
  | _ n ih =>
    by_cases hn : n < b
    · rw [Nat.toDigits_of_lt_base hn, List.singleton_append, scanNat, digit_digitChar hb' hn]
      rfl
    · have hlt : n / b < n := Nat.div_lt_self (by omega) hb
      rw [Nat.toDigits_of_base_le hb (by omega), List.append_assoc, ih _ hlt,
        List.singleton_append, scanDigits, digit_digitChar hb' (Nat.mod_lt n (by omega))]
      dsimp only
      rw [Nat.div_add_mod']

theorem scanNat_toDigits (hb : 1 < b) (hb' : b ≤ 16) (h : AtBreak rest) :
    scanNat b (Nat.toDigits b n ++ rest) = some (n, rest) := by
  rw [scanNat_toDigits_append hb hb', scanDigits_atBreak h]

theorem isToken_toDigits (hb : 1 < b) (hb' : b ≤ 16) : IsToken (Nat.toDigits b n) := by
  refine ⟨Nat.toDigits_ne_nil, ?_⟩
  induction n using Nat.strongRecOn with
  | _ n ih =>
    intro c hc
    by_cases hn : n < b
    · rw [Nat.toDigits_of_lt_base hn, List.mem_singleton] at hc
      rw [hc]
      exact isSpace_digitChar (by omega)
    · rw [Nat.toDigits_of_base_le hb (by omega), List.mem_append, List.mem_singleton] at hc
      have hmod : n % b < b := Nat.mod_lt n (by omega)
      rcases hc with hc | rfl
      · exact ih _ (Nat.div_lt_self (by omega) hb) c hc
      · exact isSpace_digitChar (by omega)

/-- A digit is none of the signs. -/
theorem scanInt_toDigits (h : AtBreak rest) :
    scanInt (Nat.toDigits 10 n ++ rest) = some ((n : Int), rest) := by
  have hscan := scanNat_toDigits (b := 10) (n := n) (by decide) (by decide) h
  have hmem : ∀ c ∈ Nat.toDigits 10 n, c.isDigit = true := fun c hc =>
    Nat.isDigit_of_mem_toDigits (by decide) (by decide) hc
  obtain ⟨c, digits, hdigits⟩ := List.exists_cons_of_ne_nil (Nat.toDigits_ne_nil (n := n) (b := 10))
  have hc : c.isDigit = true := hmem c (by rw [hdigits]; exact List.mem_cons_self)
  rw [hdigits, List.cons_append] at hscan ⊢
  unfold scanInt
  split
  · rename_i heq
    rw [(List.cons.inj heq).1] at hc
    cases hc
  · rename_i heq
    rw [(List.cons.inj heq).1] at hc
    cases hc
  · rw [hscan]
    rfl

theorem scanAddress_toDigits (h : AtBreak rest) :
    scanAddress ('0' :: 'x' :: (Nat.toDigits 16 n ++ rest)) = some (n, rest) :=
  scanNat_toDigits (by decide) (by decide) h

theorem scanAddress_zero (h : AtBreak rest) : scanAddress ('0' :: rest) = some (0, rest) := by
  have hscan : scanNat 16 ('0' :: rest) = some (0, rest) :=
    scanNat_toDigits (n := 0) (by decide) (by decide) h
  unfold scanAddress
  split
  · rename_i cs heq
    have hx := h 'x' (by rw [(List.cons.inj heq).2]; rfl)
    cases hx
  · exact hscan

end Digits

theorem decimal_roundTrip : decimal.RoundTrip where
  token i := by
    have hdigits := isToken_toDigits (b := 10) (n := i.natAbs) (by decide) (by decide)
    unfold decimal
    dsimp only
    split
    · exact hdigits.cons rfl
    · exact hdigits
  scan_print i rest h := by
    unfold decimal
    dsimp only
    split
    · rename_i hneg
      rw [List.cons_append, scanInt, scanNat_toDigits (by decide) (by decide) h, Option.map_some]
      simp only [Option.some.injEq, Prod.mk.injEq, and_true]
      omega
    · rename_i hpos
      rw [scanInt_toDigits h]
      simp only [Option.some.injEq, Prod.mk.injEq, and_true]
      omega

theorem hexadecimal_roundTrip : hexadecimal.RoundTrip where
  token n := by
    unfold hexadecimal
    dsimp only
    split
    · exact ⟨by simp, by simp [isSpace]⟩
    · have hdigits := isToken_toDigits (b := 16) (n := n) (by decide) (by decide)
      exact (hdigits.cons rfl).cons rfl
  scan_print n rest h := by
    unfold hexadecimal
    dsimp only
    split
    · rename_i hzero
      rw [hzero]
      exact scanAddress_zero h
    · exact scanAddress_toDigits h

/-- The formats a stream has without manipulators, for numbers within its types. -/
def standard : Iostream := ⟨decimal, hexadecimal⟩

theorem standard_roundTrip : standard.RoundTrip := ⟨decimal_roundTrip, hexadecimal_roundTrip⟩

end Lockout.Lib.Numerals
