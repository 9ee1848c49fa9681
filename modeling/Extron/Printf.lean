import Extron.Library.Outcomes
import Extron.Library.Words

/-!
The formatted output of `console.c`: `kvprintf` and the functions that it prints
numbers and strings with. What it does is the calls of `putc` that it makes and
the characters of the format that it looks at; both are recorded. The functions
that print have one lemma each, which says what they send (`puts_col_ok`,
`print_uint_ok`, `print_int_ok`, `print_hex_ok`).
-/
namespace Extron.Printf
open Extron.Outcomes
set_option linter.unusedSimpArgs false

/-- Where a character that goes to `putc` was taken from. -/
inductive Origin
  | format
  /-- An argument, or the text of `console.c` itself. -/
  | program
deriving DecidableEq, Repr

/-- A call of `putc`. -/
structure Sent where
  c : UInt8
  color : UInt8
  origin : Origin
deriving DecidableEq, Repr

structure Printer where
  /-- The calls of `putc` so far, the latest first. -/
  sent : List Sent
  /-- The indices `i` of the format for which `fmt[i]` was read, the latest first. -/
  looked : List Nat
  /-- How many arguments `va_arg` has taken. -/
  taken : Nat

/-- Why a printing function does not return. -/
inductive Stop
  /-- A signed operation whose result does not fit its type. -/
  | overflow
  /-- A write past the end of `buf`. -/
  | overrun
deriving DecidableEq, Repr

abbrev Out := EStateM Stop Printer

def putc (origin : Origin) (c color : UInt8) : Out Unit :=
  modify fun p => { p with sent := ⟨c, color, origin⟩ :: p.sent }

/-- `i++` on an `int` that is not negative. -/
def increment (i : Nat) : Out Nat := if i + 1 < 2 ^ 31 then pure (i + 1) else throw .overflow

/-- The result of a signed 64-bit operation. -/
def int64 (n : Int) : Out Int64 := if -2 ^ 63 ≤ n ∧ n < 2 ^ 63 then pure (.ofInt n) else throw .overflow

/-- No loop over an `int` that only grows makes more rounds. -/
def rounds : Nat := 2 ^ 31

/-- The characters at a pointer. -/
def chars (mem : UInt64 → UInt8) (s : UInt64) : Nat → UInt8 := fun i => mem (s + .ofNat i)

/-- A string literal. -/
def literal (text : List UInt8) : Nat → UInt8 := fun i => text.getD i 0

/-! ## The functions -/

def puts_loop (origin : Origin) (s : Nat → UInt8) (color : UInt8) : Nat → Nat → Out Unit
  | 0, _ => throw .overflow
  | fuel + 1, i =>
    if s i = 0 then pure ()
    else do
      putc origin (s i) color
      puts_loop origin s color fuel (← increment i)

def puts_col (origin : Origin) (s : Nat → UInt8) (color : UInt8) : Out Unit := puts_loop origin s color rounds 0

/-- `(digit < 10) ? ('0' + digit) : ('a' + digit - 10)` -/
def digit_char (digit : Int32) : UInt8 :=
  if digit < 10 then (0x30 + digit).toUInt32.toUInt8 else (0x61 + digit - 10).toUInt32.toUInt8

/-- `while (value > 0)`: the digits go to `buf`, the lowest first. -/
def digits_loop (base : UInt64) : Nat → UInt64 → (Nat → UInt8) → Nat → Out ((Nat → UInt8) × Nat)
  | 0, _, _, _ => throw .overrun
  | fuel + 1, value, buf, i =>
    if 0 < value then
      let digit := (value % base).toUInt32.toInt32
      if i < 32 then digits_loop base fuel (value / base) (Function.update buf i (digit_char digit)) (i + 1)
      else throw .overrun
    else pure (buf, i)

/-- `while (i--)` -/
def replay (buf : Nat → UInt8) (color : UInt8) : Nat → Out Unit
  | 0 => pure ()
  | i + 1 => do
    putc .program (buf i) color
    replay buf color i

def print_uint (value : UInt64) (base : Int32) (color : UInt8) : Out Unit :=
  if value = 0 then putc .program 0x30 color
  else do
    -- `buf` is not initialised, and `digits_loop_ok` holds of any contents
    let (buf, i) ← digits_loop base.toInt64.toUInt64 33 value (fun _ => 0) 0
    replay buf color i

def print_int (value : Int64) (color : UInt8) : Out Unit :=
  if value < 0 then do
    putc .program 0x2D color
    let next ← int64 (value.toInt + 1)
    let negated ← int64 (-next.toInt)
    print_uint (negated.toUInt64 + 1) 10 color
  else print_uint value.toUInt64 10 color

/-- `for (int i = width - 1; i >= 0; i--)` -/
def print_hex (value : UInt64) (color : UInt8) : Nat → Out Unit
  | 0 => pure ()
  | i + 1 => do
    let digit := ((value >>> .ofNat (i * 4)) &&& 0xF).toUInt32.toInt32
    putc .program (digit_char digit) color
    print_hex value color i

/-! ## What they send -/

/-- The printer after characters were sent one after the other. -/
def Printer.emit (p : Printer) (origin : Origin) (color : UInt8) (text : List UInt8) : Printer :=
  { p with sent := (text.map fun c => ⟨c, color, origin⟩).reverse ++ p.sent }

theorem Printer.emit_append (p : Printer) (origin : Origin) (color : UInt8) (text more : List UInt8) :
    (p.emit origin color text).emit origin color more = p.emit origin color (text ++ more) := by
  simp [emit]

theorem Printer.emit_cons (p : Printer) (origin : Origin) (color : UInt8) (c : UInt8) (text : List UInt8) :
    (p.emit origin color [c]).emit origin color text = p.emit origin color (c :: text) :=
  p.emit_append origin color [c] text

theorem putc_ok (origin : Origin) (c color : UInt8) (p : Printer) :
    putc origin c color p = .ok () (p.emit origin color [c]) := rfl

theorem increment_ok {i : Nat} (room : i + 1 < 2 ^ 31) (p : Printer) : increment i p = .ok (i + 1) p := by
  rw [increment, if_pos room]
  rfl

theorem post_increment {Q : Nat → Printer → Prop} {E : Stop → Printer → Prop} {i : Nat} {p : Printer}
    (next : i + 1 < 2 ^ 31 → Q (i + 1) p) (stops : ¬ i + 1 < 2 ^ 31 → E .overflow p) : Post Q E (increment i p) := by
  rw [increment]
  by_cases room : i + 1 < 2 ^ 31
  · rw [if_pos room]
    exact next room
  · rw [if_neg room]
    exact stops room

/-- The characters from index `i` on, up to the NUL. -/
def Spells (s : Nat → UInt8) : Nat → List UInt8 → Prop
  | i, [] => s i = 0
  | i, c :: text => s i = c ∧ c ≠ 0 ∧ Spells s (i + 1) text

@[simp] theorem spells_nil {s : Nat → UInt8} {i : Nat} : Spells s i [] ↔ s i = 0 := Iff.rfl

instance decidableSpells (s : Nat → UInt8) : ∀ (i : Nat) (text : List UInt8), Decidable (Spells s i text)
  | i, [] => inferInstanceAs (Decidable (s i = 0))
  | i, c :: text =>
    have := decidableSpells s (i + 1) text
    inferInstanceAs (Decidable (s i = c ∧ c ≠ 0 ∧ Spells s (i + 1) text))

theorem puts_loop_ok (origin : Origin) {s : Nat → UInt8} (color : UInt8) {text : List UInt8} :
    ∀ {fuel i : Nat} (p : Printer), Spells s i text → i + text.length < 2 ^ 31 → text.length < fuel →
      puts_loop origin s color fuel i p = .ok () (p.emit origin color text) := by
  induction text with
  | nil =>
    intro fuel i p spelled _ enough
    obtain ⟨more, rfl⟩ := Nat.exists_eq_add_of_lt enough
    rw [List.length_nil, Nat.zero_add, puts_loop, if_pos (spells_nil.mp spelled)]
    rfl
  | cons c text ih =>
    intro fuel i p spelled room enough
    obtain ⟨here, some, rest⟩ := spelled
    obtain ⟨more, rfl⟩ : ∃ more, fuel = more + 1 := ⟨fuel - 1, by omega⟩
    rw [List.length_cons] at room enough
    rw [puts_loop, if_neg (here ▸ some), here, bind_ok (putc_ok origin c color p),
      bind_ok (increment_ok (by omega) _), ih _ rest (by omega) (by omega), Printer.emit_cons]

theorem puts_col_ok (origin : Origin) {s : Nat → UInt8} (color : UInt8) {text : List UInt8} (spelled : Spells s 0 text)
    (room : text.length < 2 ^ 31) (p : Printer) : puts_col origin s color p = .ok () (p.emit origin color text) :=
  puts_loop_ok origin color p spelled (by omega) room

/-- A string that an `int` cannot index is not printed to its end. -/
theorem puts_loop_room (origin : Origin) {s : Nat → UInt8} (color : UInt8) {text : List UInt8} :
    ∀ {fuel i : Nat} (p : Printer), i < 2 ^ 31 → Spells s i text →
      Post (fun _ _ => i + text.length < 2 ^ 31) (fun _ _ => True) (puts_loop origin s color fuel i p) := by
  induction text with
  | nil =>
    intro fuel i p low spelled
    cases fuel with
    | zero => exact trivial
    | succ fuel =>
      rw [puts_loop, if_pos (spells_nil.mp spelled)]
      exact low
  | cons c text ih =>
    intro fuel i p low spelled
    obtain ⟨here, some, rest⟩ := spelled
    cases fuel with
    | zero => exact trivial
    | succ fuel =>
      rw [puts_loop, if_neg (here ▸ some), bind_ok (putc_ok origin (s i) color p)]
      apply post_bind
      apply post_increment
      · intro room
        apply (ih _ room rest).mono
        · intro _ _ total
          rw [List.length_cons]
          omega
        · exact fun _ _ _ => trivial
      · exact fun _ => trivial

/-- The character of a digit. -/
def digitChar (d : Nat) : UInt8 := if d < 10 then .ofNat (48 + d) else .ofNat (87 + d)

theorem digit_char_ofNat {d : Nat} (small : d < 16) : digit_char (.ofNat d) = digitChar d := by
  have all : ∀ d < 16, digit_char (.ofNat d) = digitChar d := by decide
  exact all d small

theorem toInt32_eq (v : UInt64) : v.toUInt32.toInt32 = .ofNat v.toNat := by
  have word : v.toUInt32 = .ofNat v.toNat := by
    apply UInt32.toNat_inj.mp
    rw [UInt64.toNat_toUInt32, UInt32.toNat_ofNat']
  rw [word]
  rfl

/-- The digits of a number, the highest first. -/
def numeral (base n : Nat) : List UInt8 := if n = 0 then [0x30] else ((Nat.digits base n).map digitChar).reverse

/-- The digits land above those already in the buffer, the lowest first. -/
theorem digits_loop_ok : ∀ (fuel : Nat) (value : UInt64) (buf : Nat → UInt8) (i : Nat) (p : Printer),
    (Nat.digits 10 value.toNat).length < fuel → i + (Nat.digits 10 value.toNat).length ≤ 32 →
      ∃ buf', digits_loop 10 fuel value buf i p = .ok (buf', i + (Nat.digits 10 value.toNat).length) p ∧
        (List.range (i + (Nat.digits 10 value.toNat).length)).map buf' =
          (List.range i).map buf ++ (Nat.digits 10 value.toNat).map digitChar := by
  intro fuel
  induction fuel with
  | zero => exact fun _ _ _ _ enough => absurd enough (Nat.not_lt_zero _)
  | succ fuel ih =>
    intro value buf i p enough room
    by_cases positive : 0 < value
    · have some : 0 < value.toNat := positive
      have step := Nat.digits_def' (b := 10) (by decide) some
      have quotient : (value / 10).toNat = value.toNat / 10 := by
        rw [UInt64.toNat_div]
        rfl
      have remainder : (value % 10).toNat = value.toNat % 10 := by
        rw [UInt64.toNat_mod]
        rfl
      have digit : digit_char (value % 10).toUInt32.toInt32 = digitChar (value.toNat % 10) := by
        rw [toInt32_eq, remainder, digit_char_ofNat (by omega)]
      rw [step, List.length_cons] at enough room
      obtain ⟨buf', ran, filled⟩ := ih (value / 10)
        (Function.update buf i (digit_char (value % 10).toUInt32.toInt32)) (i + 1) p
        (by rw [quotient]; omega) (by rw [quotient]; omega)
      rw [quotient] at ran filled
      rw [digits_loop, if_pos positive, step, List.length_cons]
      have within : i < 32 := by omega
      simp only [if_pos within, ran]
      refine ⟨buf', by congr 2; omega, ?_⟩
      have order : i + ((Nat.digits 10 (value.toNat / 10)).length + 1) =
        i + 1 + (Nat.digits 10 (value.toNat / 10)).length := by omega
      have kept : (List.range i).map (Function.update buf i (digit_char (value % 10).toUInt32.toInt32)) =
          (List.range i).map buf := by
        apply List.map_congr_left
        intro j below
        exact Function.update_of_ne (List.mem_range.mp below).ne _ _
      rw [order, filled, List.range_succ, List.map_append, kept, List.map_cons, List.map_nil, Function.update_self, digit,
        List.map_cons, List.append_assoc, List.singleton_append]
    · have zero : value.toNat = 0 := by
        have : ¬ 0 < value.toNat := positive
        omega
      rw [digits_loop, if_neg positive, zero]
      exact ⟨buf, rfl, by simp⟩

theorem replay_ok (buf : Nat → UInt8) (color : UInt8) :
    ∀ (i : Nat) (p : Printer), replay buf color i p = .ok () (p.emit .program color ((List.range i).map buf).reverse)
  | 0, p => rfl
  | i + 1, p => by
    rw [replay, bind_ok (putc_ok .program (buf i) color p), replay_ok buf color i, Printer.emit_cons, List.range_succ,
      List.map_append, List.reverse_append]
    rfl

/-- 64 bits have at most 20 decimal digits. -/
theorem digits_room (value : UInt64) : (Nat.digits 10 value.toNat).length ≤ 20 := by
  rw [Nat.digits_length_le_iff (by decide)]
  exact value.toNat_lt.trans (by norm_num)

theorem print_uint_ok (value : UInt64) (color : UInt8) (p : Printer) :
    print_uint value 10 color p = .ok () (p.emit .program color (numeral 10 value.toNat)) := by
  rw [print_uint, numeral]
  by_cases zero : value = 0
  · rw [if_pos zero, zero]
    rfl
  · have some : value.toNat ≠ 0 := fun none => zero (UInt64.toNat_inj.mp none)
    have few := digits_room value
    obtain ⟨buf, ran, filled⟩ := digits_loop_ok 33 value (fun _ => 0) 0 p (by omega) (by omega)
    have base : (Int32.toInt64 10).toUInt64 = 10 := rfl
    rw [if_neg zero, if_neg some, base, bind_ok ran]
    dsimp only
    rw [replay_ok, filled]
    rfl

/-- A sign and the digits of the absolute value. -/
def signed (n : Int) : List UInt8 := if n < 0 then 0x2D :: numeral 10 n.natAbs else numeral 10 n.natAbs

/-- The absolute value is taken without leaving 64 bits, also of the least number. -/
theorem print_int_ok (value : Int64) (color : UInt8) (p : Printer) :
    print_int value color p = .ok () (p.emit .program color (signed value.toInt)) := by
  have low := value.le_toInt
  have high := value.toInt_lt
  have sign : value < 0 ↔ value.toInt < 0 := Int64.lt_iff_toInt_lt
  have nonneg {v : Int64} (positive : 0 ≤ v.toInt) : 0 ≤ v := Int64.le_iff_toInt_le.mpr positive
  by_cases negative : value.toInt < 0
  · have next : int64 (value.toInt + 1) (p.emit .program color [0x2D]) =
        .ok (.ofInt (value.toInt + 1)) (p.emit .program color [0x2D]) := by
      rw [int64, if_pos (by omega)]
      rfl
    have nextValue : (Int64.ofInt (value.toInt + 1)).toInt = value.toInt + 1 := by
      rw [Int64.toInt_ofInt_of_le (by omega) (by omega)]
    have negated : int64 (-(Int64.ofInt (value.toInt + 1)).toInt) (p.emit .program color [0x2D]) =
        .ok (.ofInt (-(value.toInt + 1))) (p.emit .program color [0x2D]) := by
      rw [nextValue, int64, if_pos (by omega)]
      rfl
    have abs : ((Int64.ofInt (-(value.toInt + 1))).toUInt64 + 1).toNat = value.toInt.natAbs := by
      have positive : (Int64.ofInt (-(value.toInt + 1))).toInt = -(value.toInt + 1) := by
        rw [Int64.toInt_ofInt_of_le (by omega) (by omega)]
      have word : (Int64.ofInt (-(value.toInt + 1))).toUInt64.toNat = (-(value.toInt + 1)).toNat := by
        rw [Int64.toNat_toUInt64_of_le (nonneg (by omega)), Int64.toNatClampNeg, positive]
      rw [UInt64.toNat_add, word]
      simp only [UInt64.toNat_one]
      omega
    rw [print_int, if_pos (sign.mpr negative), bind_ok (putc_ok .program 0x2D color p), bind_ok next, bind_ok negated,
      print_uint_ok, abs, Printer.emit_cons, signed, if_pos negative]
  · have word : value.toUInt64.toNat = value.toInt.natAbs := by
      rw [Int64.toNat_toUInt64_of_le (nonneg (by omega)), Int64.toNatClampNeg]
      omega
    rw [print_int, if_neg (mt sign.mp negative), print_uint_ok, word, signed, if_neg negative]

/-- The lowest `width` hexadecimal digits, the highest first. -/
def hex (n : Nat) : Nat → List UInt8
  | 0 => []
  | width + 1 => digitChar (n / 16 ^ width % 16) :: hex n width

theorem print_hex_ok (value : UInt64) (color : UInt8) :
    ∀ (width : Nat) (p : Printer), width ≤ 16 →
      print_hex value color width p = .ok () (p.emit .program color (hex value.toNat width))
  | 0, p, _ => rfl
  | i + 1, p, room => by
    have shift : (UInt64.ofNat (i * 4)).toNat % 64 = i * 4 := by
      rw [UInt64.toNat_ofNat_of_lt' (lt_of_lt_of_le (show i * 4 < 2 ^ 6 by omega) (by decide)), Nat.mod_eq_of_lt (by omega)]
    have nibble : ((value >>> .ofNat (i * 4)) &&& 0xF).toNat = value.toNat / 16 ^ i % 16 := by
      rw [Words.shift_mask value _ _ (w := 4) shift rfl, Nat.mul_comm i 4, Nat.pow_mul]
      rfl
    have digit : digit_char ((value >>> .ofNat (i * 4)) &&& 0xF).toUInt32.toInt32 = digitChar (value.toNat / 16 ^ i % 16) := by
      rw [toInt32_eq, nibble, digit_char_ofNat (by omega)]
    simp only [print_hex]
    rw [digit, bind_ok (putc_ok _ _ _ _), print_hex_ok value color i _ (by omega), Printer.emit_cons, hex]

end Extron.Printf
