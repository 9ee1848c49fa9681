import Mathlib.Data.Nat.Digits.Lemmas
import Mathlib.Tactic

/-!
Numerals in a base, the highest digit first, over any characters. `value` reads a text
back; the digits of a number, and its lowest digits in a fixed width, read back as
the number (`canonical_digits`, `value_places`).
-/
namespace Extron.Numerals

variable {χ : Type}

/-- The number that a text denotes after digits that denote `n`, if all its
    characters are digits of the base. -/
def continued (base : Nat) (digit : χ → Option Nat) : Nat → List χ → Option Nat
  | n, [] => some n
  | n, c :: text => do
    let d ← digit c
    if d < base then continued base digit (base * n + d) text else none

/-- The number that a text denotes. -/
def value (base : Nat) (digit : χ → Option Nat) (text : List χ) : Option Nat :=
  if text.isEmpty then none else continued base digit 0 text

/-- The text denotes the number and has no leading zero. -/
structure Canonical (base : Nat) (digit : χ → Option Nat) (zero : χ) (n : Nat) (text : List χ) : Prop where
  value : value base digit text = some n
  leading : text.head? = some zero → text = [zero]

/-- The lowest `width` digits of a number. -/
def places (base : Nat) (char : Nat → χ) (n : Nat) : Nat → List χ
  | 0 => []
  | width + 1 => char (n / base ^ width % base) :: places base char n width

section
variable {base : Nat} {digit : χ → Option Nat} {char : Nat → χ}

theorem value_of_ne_nil {text : List χ} (nonempty : text ≠ []) : value base digit text = continued base digit 0 text := by
  rw [value, if_neg (by simpa using nonempty)]

theorem continued_cons {n d : Nat} {c : χ} (reads : digit c = some d) (small : d < base) (text : List χ) :
    continued base digit n (c :: text) = continued base digit (base * n + d) text := by
  rw [continued, reads]
  exact if_pos small

theorem continued_append (n : Nat) (first second : List χ) :
    continued base digit n (first ++ second) = (continued base digit n first).bind (continued base digit · second) := by
  induction first generalizing n with
  | nil => rfl
  | cons c first ih =>
    rw [List.cons_append, continued, continued]
    cases digit c with
    | none => rfl
    | some d =>
      by_cases small : d < base
      · simp only [Option.bind_eq_bind, Option.bind_some, if_pos small, ih]
      · simp only [Option.bind_eq_bind, Option.bind_some, if_neg small, Option.bind_none]

variable (reads : ∀ d < base, digit (char d) = some d)
include reads

/-- Digits, the lowest first, denote their sum by place once they are reversed. -/
theorem continued_reverse (n : Nat) {digits : List Nat} (small : ∀ d ∈ digits, d < base) :
    continued base digit n (digits.map char).reverse = some (Nat.ofDigits base digits + base ^ digits.length * n) := by
  induction digits with
  | nil => simp [continued]
  | cons d digits ih =>
    have lowest := small d List.mem_cons_self
    rw [List.map_cons, List.reverse_cons, continued_append, ih fun e member => small e (List.mem_cons_of_mem d member),
      Option.bind_some, continued_cons (reads d lowest) lowest, continued, Nat.ofDigits_cons, List.length_cons, pow_succ]
    congr 1
    ring

theorem canonical_zero (positive : 0 < base) : Canonical base digit (char 0) 0 [char 0] := by
  refine ⟨?_, fun _ => rfl⟩
  rw [value_of_ne_nil (List.cons_ne_nil _ _), continued_cons (reads 0 positive) positive, continued, Nat.mul_zero]

theorem canonical_digits (large : 1 < base) {n : Nat} (positive : n ≠ 0) :
    Canonical base digit (char 0) n ((Nat.digits base n).map char).reverse := by
  have small : ∀ d ∈ Nat.digits base n, d < base := fun d member => Nat.digits_lt_base large member
  have nonempty : Nat.digits base n ≠ [] := Nat.digits_ne_nil_iff_ne_zero.mpr positive
  constructor
  · rw [value_of_ne_nil (by simpa using nonempty), continued_reverse reads 0 small, Nat.ofDigits_digits, Nat.mul_zero, Nat.add_zero]
  · intro zero
    have last := Nat.getLast_digit_ne_zero base positive
    rw [List.head?_reverse, List.getLast?_map, List.getLast?_eq_getLast_of_ne_nil nonempty, Option.map_some,
      Option.some_inj] at zero
    -- the character of the highest digit is read as that digit
    have highest := reads _ (small _ (List.getLast_mem nonempty))
    rw [zero, reads 0 (by omega), Option.some_inj] at highest
    exact absurd highest.symm last

theorem continued_places (m n : Nat) (positive : 0 < base) :
    ∀ width, continued base digit m (places base char n width) = some (base ^ width * m + n % base ^ width)
  | 0 => by simp [continued, places, Nat.mod_one]
  | width + 1 => by
    have small : n / base ^ width % base < base := Nat.mod_lt _ positive
    rw [places, continued_cons (reads _ small) small, continued_places _ n positive width, Nat.mod_pow_succ, pow_succ]
    congr 1
    ring

theorem value_places (n : Nat) (positive : 0 < base) {width : Nat} (wide : 0 < width) :
    value base digit (places base char n width) = some (n % base ^ width) := by
  obtain ⟨width, rfl⟩ := Nat.exists_eq_add_one.mpr wide
  have nonempty : places base char n (width + 1) ≠ [] := List.cons_ne_nil _ _
  rw [value_of_ne_nil nonempty, continued_places reads 0 n positive, Nat.mul_zero, Nat.zero_add]

end

@[simp] theorem length_places (base : Nat) (char : Nat → χ) (n : Nat) : ∀ width, (places base char n width).length = width
  | 0 => rfl
  | width + 1 => by rw [places, List.length_cons, length_places base char n width]

theorem mem_places {base n : Nat} {char : Nat → χ} (positive : 0 < base) {c : χ} :
    ∀ {width}, c ∈ places base char n width → ∃ d < base, c = char d
  | 0, member => absurd member List.not_mem_nil
  | width + 1, member => by
    rcases List.mem_cons.mp member with rfl | rest
    · exact ⟨_, Nat.mod_lt _ positive, rfl⟩
    · exact mem_places positive rest

end Extron.Numerals
