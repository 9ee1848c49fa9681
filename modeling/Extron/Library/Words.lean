import Mathlib.Tactic
import Mathlib.Data.Nat.Bitwise

/-!
Machine words as numbers. Masks, shifts and flag tests of 64-bit words and bytes,
each stated over the value of the word, so that address arithmetic reduces to
division and remainder by powers of two.
-/
namespace Extron.Words

/-- Keeping the bits from `l` to `h` of a number. -/
theorem land_field (n : Nat) {l h : Nat} (le : l ≤ h) :
    n &&& (2 ^ h - 2 ^ l) = n % 2 ^ h / 2 ^ l * 2 ^ l := by
  have mask : 2 ^ h - 2 ^ l = (2 ^ (h - l) - 1) * 2 ^ l := by
    rw [Nat.sub_mul, ← pow_add, Nat.sub_add_cancel le, Nat.one_mul]
  apply Nat.eq_of_testBit_eq
  intro i
  rw [Nat.testBit_and, mask, Nat.testBit_mul_two_pow, Nat.testBit_mul_two_pow,
    Nat.testBit_two_pow_sub_one, Nat.testBit_div_two_pow, Nat.testBit_mod_two_pow]
  by_cases low : l ≤ i
  · have back : i - l + l = i := Nat.sub_add_cancel low
    have within : (i - l < h - l) ↔ i < h := by omega
    simp [low, back, within, Bool.and_comm]
  · simp [low]

theorem and_low (x m : UInt64) {k : Nat} (mask : m.toNat = 2 ^ k - 1) : (x &&& m).toNat = x.toNat % 2 ^ k := by
  rw [UInt64.toNat_and, mask, Nat.and_two_pow_sub_one_eq_mod]

theorem and_field (x m : UInt64) {l h : Nat} (le : l ≤ h) (mask : m.toNat = 2 ^ h - 2 ^ l) :
    (x &&& m).toNat = x.toNat % 2 ^ h / 2 ^ l * 2 ^ l := by
  rw [UInt64.toNat_and, mask, land_field _ le]

/-- Clearing the low `k` bits rounds down to a multiple of `2 ^ k`. -/
theorem and_not_low (x m : UInt64) {k : Nat} (le : k ≤ 64) (mask : m.toNat = 2 ^ k - 1) :
    (x &&& ~~~m).toNat = x.toNat / 2 ^ k * 2 ^ k := by
  have high : (~~~m).toNat = 2 ^ 64 - 2 ^ k := by
    have small : 2 ^ k ≤ 2 ^ 64 := Nat.pow_le_pow_right (by decide) le
    have one : 1 ≤ 2 ^ k := Nat.one_le_two_pow
    rw [UInt64.toNat_not, mask, UInt64.size]
    omega
  rw [and_field x _ le high, Nat.mod_eq_of_lt x.toNat_lt]

theorem shift_mask (x s m : UInt64) {k w : Nat} (shift : s.toNat % 64 = k) (mask : m.toNat = 2 ^ w - 1) :
    ((x >>> s) &&& m).toNat = x.toNat / 2 ^ k % 2 ^ w := by
  rw [and_low _ _ mask, UInt64.toNat_shiftRight, shift, Nat.shiftRight_eq_div_pow]

/-- A one-bit mask tests that bit. -/
theorem and_flag (x m : UInt64) {k : Nat} (mask : m.toNat = 2 ^ k) : x &&& m ≠ 0 ↔ x.toNat.testBit k = true := by
  rw [ne_eq, ← UInt64.toNat_inj, UInt64.toNat_and, mask, Nat.and_two_pow]
  cases x.toNat.testBit k <;> simp

theorem or_and (a b c : UInt64) : (a ||| b) &&& c = (a &&& c) ||| (b &&& c) := by
  apply UInt64.toNat_inj.mp
  simp only [UInt64.toNat_and, UInt64.toNat_or]
  exact Nat.and_or_distrib_right a.toNat b.toNat c.toNat

theorem or_ne_zero_right (a : UInt64) {b : UInt64} (some : b ≠ 0) : a ||| b ≠ 0 := by
  intro zero
  have value : a.toNat ||| b.toNat = 0 := by simpa using congrArg UInt64.toNat zero
  exact some (UInt64.toNat_inj.mp (by simpa using (Nat.or_eq_zero_iff.mp value).2))

/-- The field above the low bits joins them. -/
theorem or_field (n k w : Nat) : n % 2 ^ k ||| (n / 2 ^ k % 2 ^ w) * 2 ^ k = n % 2 ^ (k + w) := by
  apply Nat.eq_of_testBit_eq
  intro i
  rw [Nat.testBit_or, Nat.testBit_mul_two_pow, Nat.testBit_mod_two_pow, Nat.testBit_mod_two_pow, Nat.testBit_mod_two_pow,
    Nat.testBit_div_two_pow]
  by_cases low : i < k
  · have within : i < k + w := by omega
    simp [low, within]
  · have above : k ≤ i := by omega
    have back : i - k + k = i := by omega
    have within : i - k < w ↔ i < k + w := by omega
    simp [low, above, back, within]

/-- A byte of a word, moved back to its place. -/
theorem byte_in_place (x k : UInt32) (room : k.toNat + 8 ≤ 32) :
    ((x >>> k).toUInt8.toUInt32 <<< k).toNat = x.toNat / 2 ^ k.toNat % 2 ^ 8 * 2 ^ k.toNat := by
  have small : k.toNat % 32 = k.toNat := Nat.mod_eq_of_lt (by omega)
  rw [UInt32.toNat_shiftLeft, UInt8.toNat_toUInt32, UInt32.toNat_toUInt8, UInt32.toNat_shiftRight, small,
    Nat.shiftRight_eq_div_pow, Nat.shiftLeft_eq]
  apply Nat.mod_eq_of_lt
  calc x.toNat / 2 ^ k.toNat % 2 ^ 8 * 2 ^ k.toNat
      < 2 ^ 8 * 2 ^ k.toNat := Nat.mul_lt_mul_of_pos_right (Nat.mod_lt _ (by decide)) (Nat.two_pow_pos _)
    _ ≤ 2 ^ 32 := by rw [← Nat.pow_add]; exact Nat.pow_le_pow_right (by decide) (by omega)

/-- The four bytes of a word put it together again. -/
theorem join_bytes (x : UInt32) : x.toUInt8.toUInt32 ||| (x >>> 8).toUInt8.toUInt32 <<< 8 |||
    (x >>> 16).toUInt8.toUInt32 <<< 16 ||| (x >>> 24).toUInt8.toUInt32 <<< 24 = x := by
  have first : x.toUInt8.toUInt32.toNat = x.toNat % 2 ^ 8 := by rw [UInt8.toNat_toUInt32, UInt32.toNat_toUInt8]
  have second : ((x >>> 8).toUInt8.toUInt32 <<< 8).toNat = x.toNat / 2 ^ 8 % 2 ^ 8 * 2 ^ 8 := byte_in_place x 8 (by decide)
  have third : ((x >>> 16).toUInt8.toUInt32 <<< 16).toNat = x.toNat / 2 ^ 16 % 2 ^ 8 * 2 ^ 16 :=
    byte_in_place x 16 (by decide)
  have fourth : ((x >>> 24).toUInt8.toUInt32 <<< 24).toNat = x.toNat / 2 ^ 24 % 2 ^ 8 * 2 ^ 24 :=
    byte_in_place x 24 (by decide)
  apply UInt32.toNat_inj.mp
  rw [UInt32.toNat_or, UInt32.toNat_or, UInt32.toNat_or, first, second, third, fourth, or_field x.toNat 8 8,
    or_field x.toNat 16 8, or_field x.toNat 24 8]
  exact Nat.mod_eq_of_lt x.toNat_lt

/-- The two halves of a word put it together again. -/
theorem join_halves (x : UInt64) : x.toUInt32.toUInt64 ||| (x >>> 32).toUInt32.toUInt64 <<< 32 = x := by
  have shift : (32 : UInt64).toNat % 64 = 32 := rfl
  have bound := x.toNat_lt
  have high : ((x >>> 32).toUInt32.toUInt64 <<< 32).toNat = x.toNat / 2 ^ 32 % 2 ^ 32 * 2 ^ 32 := by
    rw [UInt64.toNat_shiftLeft, UInt32.toNat_toUInt64, UInt64.toNat_toUInt32, UInt64.toNat_shiftRight, shift,
      Nat.shiftRight_eq_div_pow, Nat.shiftLeft_eq]
    omega
  apply UInt64.toNat_inj.mp
  rw [UInt64.toNat_or, high, UInt32.toNat_toUInt64, UInt64.toNat_toUInt32, or_field]
  exact Nat.mod_eq_of_lt bound

/-- The number of steps of one from `a` up to `b`, none when `b` is not above `a`. -/
def distance (a b : UInt64) : Nat := b.toNat - a.toNat

/-! ## Bits of bytes -/

theorem byte_bit (k : UInt8) (inside : k.toNat < 8) : ((1 : UInt8) <<< k).toNat = 2 ^ k.toNat := by
  rw [UInt8.toNat_shiftLeft, Nat.mod_eq_of_lt inside]
  simp only [UInt8.toNat_one, Nat.one_shiftLeft]
  exact Nat.mod_eq_of_lt (Nat.pow_lt_pow_right (by decide) inside)

theorem byte_set (b k : UInt8) (j : Nat) (inside : k.toNat < 8) :
    (b ||| (1 <<< k)).toNat.testBit j = (b.toNat.testBit j || decide (j = k.toNat)) := by
  rw [UInt8.toNat_or, Nat.testBit_or, byte_bit k inside, Nat.testBit_two_pow]
  simp [eq_comm]

theorem byte_clear (b k : UInt8) (j : Nat) (inside : k.toNat < 8) (bit : j < 8) :
    (b &&& ~~~(1 <<< k)).toNat.testBit j = (b.toNat.testBit j && decide (j ≠ k.toNat)) := by
  have flipped : (~~~((1 : UInt8) <<< k)).toNat.testBit j = decide (j ≠ k.toNat) := by
    rw [← UInt8.toNat_toBitVec, BitVec.testBit_toNat, UInt8.toBitVec_not, BitVec.getLsbD_not,
      ← BitVec.testBit_toNat, UInt8.toNat_toBitVec, byte_bit k inside, Nat.testBit_two_pow]
    simp [bit, eq_comm]
  rw [UInt8.toNat_and, Nat.testBit_and, flipped]

theorem byte_test (b k : UInt8) (inside : k.toNat < 8) : b &&& (1 <<< k) ≠ 0 ↔ b.toNat.testBit k.toNat = true := by
  rw [ne_eq, ← UInt8.toNat_inj, UInt8.toNat_and, byte_bit k inside, Nat.and_two_pow]
  cases b.toNat.testBit k.toNat <;> simp

end Extron.Words
