import Extron.Library.Words

/-!
Bitmaps stored in bytes. Bit `n` sits in the byte `place (n / 8)` of a store, at
position `n % 8`. Setting or clearing one bit leaves its neighbours in the byte
and every other byte as they were, as long as different bytes of the bitmap have
different places.
-/
namespace Extron.ByteBitmap
open Extron.Words
set_option linter.unusedSectionVars false

variable {A : Type} [DecidableEq A]

/-- Bit `n` of the bitmap is set. -/
def Bit (M : A → UInt8) (place : Nat → A) (n : Nat) : Prop := (M (place (n / 8))).toNat.testBit (n % 8) = true

instance (M : A → UInt8) (place : Nat → A) (n : Nat) : Decidable (Bit M place n) :=
  inferInstanceAs (Decidable (_ = true))

/-- The bytes `n / 8` and `m / 8` share a place only when they are the same byte. -/
def Apart (place : Nat → A) (n m : Nat) : Prop := place (n / 8) = place (m / 8) → n / 8 = m / 8

theorem bit_set {M : A → UInt8} {place : Nat → A} {n m : Nat} {k : UInt8} (position : k.toNat = n % 8)
    (apart : Apart place n m) :
    Bit (Function.update M (place (n / 8)) (M (place (n / 8)) ||| (1 <<< k))) place m ↔ m = n ∨ Bit M place m := by
  have inside : k.toNat < 8 := by omega
  unfold Bit
  by_cases same : place (m / 8) = place (n / 8)
  · have byte : n / 8 = m / 8 := apart same.symm
    have bit : m % 8 = k.toNat ↔ m = n := by omega
    rw [same, Function.update_self, byte_set _ _ _ inside, Bool.or_eq_true, decide_eq_true_eq, bit, or_comm]
  · rw [Function.update_of_ne same]
    have different : m ≠ n := fun equal => same (by rw [equal])
    simp [different]

theorem bit_clear {M : A → UInt8} {place : Nat → A} {n m : Nat} {k : UInt8} (position : k.toNat = n % 8)
    (apart : Apart place n m) :
    Bit (Function.update M (place (n / 8)) (M (place (n / 8)) &&& ~~~(1 <<< k))) place m ↔ m ≠ n ∧ Bit M place m := by
  have inside : k.toNat < 8 := by omega
  unfold Bit
  by_cases same : place (m / 8) = place (n / 8)
  · have byte : n / 8 = m / 8 := apart same.symm
    have bit : m % 8 ≠ k.toNat ↔ m ≠ n := by omega
    rw [same, Function.update_self, byte_clear _ _ _ inside (Nat.mod_lt _ (by decide)), Bool.and_eq_true,
      decide_eq_true_eq, bit, and_comm]
  · rw [Function.update_of_ne same]
    have different : m ≠ n := fun equal => same (by rw [equal])
    simp [different]

theorem bit_test {M : A → UInt8} {place : Nat → A} {n : Nat} {k : UInt8} (position : k.toNat = n % 8) :
    M (place (n / 8)) &&& (1 <<< k) ≠ 0 ↔ Bit M place n := by
  rw [byte_test _ _ (by omega), position, Bit]

/-- Bytes with the same eight bits are equal. -/
theorem byte_ext {b c : UInt8} (bits : ∀ j < 8, b.toNat.testBit j = c.toNat.testBit j) : b = c := by
  apply UInt8.toNat_inj.mp
  apply Nat.eq_of_testBit_eq
  intro j
  by_cases inside : j < 8
  · exact bits j inside
  · have high : ∀ d : UInt8, d.toNat.testBit j = false := fun d =>
      Nat.testBit_eq_false_of_lt (lt_of_lt_of_le d.toNat_lt (Nat.pow_le_pow_right (by decide) (by omega)))
    rw [high, high]

end Extron.ByteBitmap
