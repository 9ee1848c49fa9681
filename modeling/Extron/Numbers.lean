import Extron.Library.Numerals
import Extron.Printf

/-!
What `print_uint`, `print_int` and `print_hex` send, read back as a number. The texts
are the ones of `Printf`; here they denote the value that was printed
(`numbers_exact`).
-/
namespace Extron.Numbers
open Extron.Printf Extron.Numerals

/-- The value of a digit, decimal or hexadecimal. -/
def digitValue (c : UInt8) : Option Nat :=
  if 0x30 ≤ c ∧ c ≤ 0x39 then some (c.toNat - 0x30)
  else if 0x61 ≤ c ∧ c ≤ 0x66 then some (c.toNat - 0x61 + 10)
  else if 0x41 ≤ c ∧ c ≤ 0x46 then some (c.toNat - 0x41 + 10)
  else none

/-- A hexadecimal digit that is no capital letter. -/
def LowerHex (c : UInt8) : Prop := (0x30 ≤ c ∧ c ≤ 0x39) ∨ (0x61 ≤ c ∧ c ≤ 0x66)

instance (c : UInt8) : Decidable (LowerHex c) := inferInstanceAs (Decidable (_ ∨ _))

/-- The integer that a text denotes, with `'-'` before it if it is negative. -/
def integer (text : List UInt8) : Option Int :=
  if text.head? = some 0x2D then (value 10 digitValue text.tail).map fun n : Nat => -(n : Int)
  else (value 10 digitValue text).map fun n : Nat => (n : Int)

/-- The function returns from every state and sends this text, character by character. -/
def Sends (print : Out Unit) (color : UInt8) (text : List UInt8) : Prop :=
  ∀ p, print p = .ok () (p.emit .program color text)

theorem digitValue_digitChar {d : Nat} (small : d < 16) : digitValue (digitChar d) = some d := by
  have all : ∀ d < 16, digitValue (digitChar d) = some d := by decide
  exact all d small

theorem lowerHex_digitChar {d : Nat} (small : d < 16) : LowerHex (digitChar d) := by
  have all : ∀ d < 16, LowerHex (digitChar d) := by decide
  exact all d small

theorem reads_decimal : ∀ d < 10, digitValue (digitChar d) = some d := fun _ small => digitValue_digitChar (by omega)

theorem canonical_numeral (n : Nat) : Canonical 10 digitValue 0x30 n (numeral 10 n) := by
  rw [numeral]
  by_cases zero : n = 0
  · rw [if_pos zero, zero]
    exact canonical_zero reads_decimal (by decide)
  · rw [if_neg zero]
    exact canonical_digits reads_decimal (by decide) zero

/-- A numeral does not begin with a sign. -/
theorem numeral_unsigned (n : Nat) : (numeral 10 n).head? ≠ some 0x2D := by
  intro sign
  obtain ⟨rest, text⟩ := List.head?_eq_some_iff.mp sign
  have denoted := (canonical_numeral n).value
  rw [text, value_of_ne_nil (List.cons_ne_nil _ _)] at denoted
  cases denoted

theorem integer_signed (n : Int) : integer (signed n) = some n := by
  rw [signed, integer]
  by_cases negative : n < 0
  · rw [if_pos negative, List.head?_cons, if_pos rfl, List.tail_cons, (canonical_numeral _).value, Option.map_some]
    congr 1
    omega
  · rw [if_neg negative, if_neg (numeral_unsigned _), (canonical_numeral _).value, Option.map_some]
    congr 1
    omega

theorem hex_eq_places (n : Nat) : ∀ width, hex n width = places 16 digitChar n width
  | 0 => rfl
  | width + 1 => by rw [hex, places, hex_eq_places n width]

/-- Numbers are printed exactly: `print_uint` sends the canonical decimal numeral of any
    word, `print_int` a text that denotes the integer, also the least one, and
    `print_hex` as many lower-case digits as it was asked for, which denote the value
    modulo that power of 16. None of them overflows or writes past its buffer. -/
theorem numbers_exact (color : UInt8) :
    (∀ value : UInt64, ∃ text, Sends (print_uint value 10 color) color text ∧
      Canonical 10 digitValue 0x30 value.toNat text) ∧
    (∀ value : Int64, ∃ text, Sends (print_int value color) color text ∧ integer text = some value.toInt) ∧
    ∀ (value : UInt64) (width : Nat), 1 ≤ width → width ≤ 16 →
      ∃ text, Sends (print_hex value color width) color text ∧ text.length = width ∧ (∀ c ∈ text, LowerHex c) ∧
        Numerals.value 16 digitValue text = some (value.toNat % 16 ^ width) := by
  refine ⟨?_, ?_, ?_⟩
  · intro value
    exact ⟨_, print_uint_ok value color, canonical_numeral _⟩
  · intro value
    exact ⟨_, print_int_ok value color, integer_signed _⟩
  · intro value width wide fits
    have reads : ∀ d < 16, digitValue (digitChar d) = some d := fun _ small => digitValue_digitChar small
    refine ⟨_, fun p => print_hex_ok value color width p fits, ?_, ?_, ?_⟩
    · rw [hex_eq_places, length_places]
    · intro c member
      rw [hex_eq_places] at member
      obtain ⟨d, small, rfl⟩ := mem_places (by decide) member
      exact lowerHex_digitChar small
    · rw [hex_eq_places, value_places reads _ (by decide) wide]

/-- The least integer, and the low byte of a number. -/
theorem numbers_exact_least :
    (∃ text, Sends (print_int Int64.minValue 0x0F) 0x0F text ∧ integer text = some (-2 ^ 63)) ∧
      ∃ text, Sends (print_hex 0xBEEF 0x0F 2) 0x0F text ∧ text.length = 2 ∧ (∀ c ∈ text, LowerHex c) ∧
        Numerals.value 16 digitValue text = some 0xEF :=
  ⟨(numbers_exact 0x0F).2.1 Int64.minValue, (numbers_exact 0x0F).2.2 0xBEEF 2 (by decide) (by decide)⟩

end Extron.Numbers
