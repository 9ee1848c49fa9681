import Extron.HeapBytes
import Extron.Placing

/-!
`liballoc_memset` and `liballoc_memcpy`. The first fills a range of the heap with one
byte, the second copies a range to one that does not overlap it, four bytes at a time
and then one by one. Nothing else changes.
-/
namespace Extron.Liballoc
open Extron.Multiboot Extron.Regions Extron.Vmm Extron.OwnPages Extron.Startup
open Extron.Fields Extron.HeapBytes Extron.Outcomes Extron.Kheap

/-- The `n` bytes from `a` on were stored, and nothing else happened. -/
structure Filled (m m' : Machine) (a n : Nat) (value : Nat → Option UInt8) : Prop where
  same : m' = { m with ram := m'.ram }
  inside : ∀ i < n, bytes m' (a + i) = value i
  outside : ∀ x, x < a ∨ a + n ≤ x → bytes m' x = bytes m x

section
variable {s₀ : State} {sections : List Elf64Shdr} {m m' : Machine} {a b n k : Nat} {value : Nat → Option UInt8}

theorem Filled.none (m : Machine) (a : Nat) (value : Nat → Option UInt8) : Filled m m a 0 value :=
  ⟨rfl, fun _ below => absurd below (Nat.not_lt_zero _), fun _ _ => rfl⟩

theorem Filled.kernel (filled : Filled m m' a n value) : m'.kernel = m.kernel := by
  rw [filled.same]

/-- One range after the other. -/
theorem Filled.append {m'' : Machine} {others : Nat → Option UInt8} (first : Filled m m' a n value)
    (second : Filled m' m'' (a + n) k others) (agree : ∀ i < k, others i = value (n + i)) : Filled m m'' a (n + k) value := by
  refine ⟨?_, fun i below => ?_, fun x out => ?_⟩
  · rw [second.same, first.same]
  · by_cases early : i < n
    · rw [second.outside _ (by omega), first.inside i early]
    · obtain ⟨j, rfl⟩ : ∃ j, i = n + j := ⟨i - n, by omega⟩
      rw [← Nat.add_assoc, second.inside j (by omega), agree j (by omega)]
  · rw [second.outside x (by omega), first.outside x (by omega)]

/-- Bytes that could be accessed still can. -/
theorem Filled.spans {c d : Nat} (filled : Filled m m' a n value) (some : ∀ i < n, (value i).isSome) (spans : Spans (bytes m) c d) :
    Spans (bytes m') c d := by
  intro x low high
  by_cases inside : a ≤ x ∧ x < a + n
  · obtain ⟨i, rfl⟩ : ∃ i, x = a + i := ⟨x - a, by omega⟩
    rw [filled.inside i (by omega)]
    exact some i (by omega)
  · rw [filled.outside x (by omega)]
    exact spans x low high

theorem store8_filled {v : UInt8} (rest : AtRest s₀ sections m.kernel) (here : (bytes m a).isSome) :
    ∃ m', store8 (UInt64.ofNat a) v m = .ok () m' ∧ Filled m m' a 1 fun _ => some v := by
  refine ⟨_, store8_ok here, rfl, fun i below => ?_, fun x out => ?_⟩
  · obtain rfl : i = 0 := by omega
    rw [bytes_ram rest here, Nat.add_zero, Function.update_self]
  · rw [bytes_ram rest here, Function.update_of_ne (by omega)]

/-! ## `liballoc_memset` -/

/-- From the counter on the loop fills the rest. -/
theorem fill_ok {v : UInt8} {i rounds : Nat} (rest : AtRest s₀ sections m.kernel) (small : n < 2 ^ 32)
    (spans : Spans (bytes m) (a + i) (a + n)) (total : i + k = n) (enough : k < rounds) :
    ∃ m', liballoc_memset.fill (UInt64.ofNat a) v (UInt64.ofNat n) rounds (UInt32.ofNat i) m = .ok () m' ∧
      Filled m m' (a + i) k fun _ => some v := by
  induction k generalizing i rounds m with
  | zero =>
    obtain ⟨rounds, rfl⟩ : ∃ j, rounds = j + 1 := ⟨rounds - 1, by omega⟩
    have done : ¬ (UInt32.ofNat i).toUInt64 < UInt64.ofNat n := by
      rw [toUInt64_ofNat32 (by omega), UInt64.lt_iff_toNat_lt, toNat_ofNat64 (by omega), toNat_ofNat64 (by omega)]
      omega
    rw [liballoc_memset.fill, if_neg done]
    exact ⟨m, rfl, .none m (a + i) _⟩
  | succ k ih =>
    obtain ⟨rounds, rfl⟩ : ∃ j, rounds = j + 1 := ⟨rounds - 1, by omega⟩
    have more : (UInt32.ofNat i).toUInt64 < UInt64.ofNat n := by
      rw [toUInt64_ofNat32 (by omega), UInt64.lt_iff_toNat_lt, toNat_ofNat64 (by omega), toNat_ofNat64 (by omega)]
      omega
    have next : UInt32.ofNat i + 1 = UInt32.ofNat (i + 1) := (UInt32.ofNat_add i 1).symm
    obtain ⟨m₁, run, filled⟩ := store8_filled (v := v) rest (spans (a + i) le_rfl (by omega))
    have rest₁ : AtRest s₀ sections m₁.kernel := by
      rw [filled.kernel]
      exact rest
    have spans₁ : Spans (bytes m₁) (a + (i + 1)) (a + n) := filled.spans (by simp) (spans.mono (by omega) le_rfl)
    obtain ⟨m₂, ran, others⟩ := ih rest₁ spans₁ (by omega) (show k < rounds by omega)
    rw [liballoc_memset.fill, if_pos more, toUInt64_ofNat32 (by omega), ← UInt64.ofNat_add, bind_ok run, next]
    refine ⟨m₂, ran, ?_⟩
    rw [Nat.add_comm k 1]
    exact filled.append others fun _ _ => rfl

theorem liballoc_memset_ok {v : UInt8} (rest : AtRest s₀ sections m.kernel) (small : n < 2 ^ 32)
    (spans : Spans (bytes m) a (a + n)) :
    ∃ m', liballoc_memset (UInt64.ofNat a) v (UInt64.ofNat n) m = .ok (UInt64.ofNat a) m' ∧ Filled m m' a n fun _ => some v := by
  have enough : n < addresses := by
    rw [addresses]
    omega
  obtain ⟨m', run, filled⟩ := fill_ok (v := v) (i := 0) rest small spans (Nat.zero_add n) enough
  refine ⟨m', ?_, filled⟩
  rw [liballoc_memset]
  exact bind_ok run

/-! ## `liballoc_memcpy` -/

/-- A word is copied with its four bytes. -/
theorem word_ok (rest : AtRest s₀ sections m.kernel) (source : Spans (bytes m) b (b + 4)) (target : Spans (bytes m) a (a + 4)) :
    ∃ w m', load32 (UInt64.ofNat b) m = .ok w m ∧ store32 (UInt64.ofNat a) w m = .ok () m' ∧
      Filled m m' a 4 fun i => bytes m (b + i) := by
  obtain ⟨w, fetched⟩ := spans_fetch source
  have small := fetch_lt fetched
  have value : (UInt32.ofNat w).toNat = w := toNat_ofNat32 (by omega)
  obtain ⟨run, stored⟩ := store_ok (w := w) rest target
  refine ⟨UInt32.ofNat w, poke 4 a w m, load32_ok fetched, ?_, poke_eq 4 a w m, fun i below => ?_, fun x out => ?_⟩
  · rw [store32, value]
    exact run
  · rw [stored, deposit_fetch fetched below]
  · rw [stored, deposit_outside out]

theorem bytes_ok {rounds : Nat} (rest : AtRest s₀ sections m.kernel) (bound : n < 2 ^ 64) (source : Spans (bytes m) b (b + n))
    (target : Spans (bytes m) a (a + n)) (apart : a + n ≤ b ∨ b + n ≤ a) (enough : n < rounds) :
    ∃ m', liballoc_memcpy.bytes rounds (UInt64.ofNat a) (UInt64.ofNat b) (UInt64.ofNat n) m = .ok () m' ∧
      Filled m m' a n fun i => bytes m (b + i) := by
  induction n generalizing a b rounds m with
  | zero =>
    obtain ⟨rounds, rfl⟩ : ∃ j, rounds = j + 1 := ⟨rounds - 1, by omega⟩
    rw [liballoc_memcpy.bytes]
    exact ⟨m, rfl, .none m a _⟩
  | succ n ih =>
    obtain ⟨rounds, rfl⟩ : ∃ j, rounds = j + 1 := ⟨rounds - 1, by omega⟩
    have more : 0 < UInt64.ofNat (n + 1) := by
      rw [UInt64.lt_iff_toNat_lt, toNat_ofNat64 bound]
      exact Nat.succ_pos n
    have less : UInt64.ofNat (n + 1) - 1 = UInt64.ofNat n := sub_ofNat (k := 1) (by omega) bound
    obtain ⟨v, here⟩ := Option.isSome_iff_exists.mp (source b le_rfl (by omega))
    obtain ⟨m₁, run, filled⟩ := store8_filled (v := v) rest (target a le_rfl (by omega))
    have rest₁ : AtRest s₀ sections m₁.kernel := by
      rw [filled.kernel]
      exact rest
    have source₁ : Spans (bytes m₁) (b + 1) (b + 1 + n) := filled.spans (by simp) (source.mono (by omega) (by omega))
    have target₁ : Spans (bytes m₁) (a + 1) (a + 1 + n) := filled.spans (by simp) (target.mono (by omega) (by omega))
    obtain ⟨m₂, ran, others⟩ := ih rest₁ (by omega) source₁ target₁ (by omega) (show n < rounds by omega)
    rw [liballoc_memcpy.bytes, if_pos more, bind_ok (load8_ok here), bind_ok run, ofNat_succ, ofNat_succ, less]
    refine ⟨m₂, ran, ?_⟩
    rw [Nat.add_comm n 1]
    refine Filled.append ⟨filled.same, fun i below => ?_, filled.outside⟩ others fun i below => ?_
    · obtain rfl : i = 0 := by omega
      rw [filled.inside 0 below, Nat.add_zero, here]
    · rw [filled.outside _ (by omega), Nat.add_assoc]

theorem words_ok {rounds : Nat} (rest : AtRest s₀ sections m.kernel) (bound : n < 2 ^ 64) (source : Spans (bytes m) b (b + n))
    (target : Spans (bytes m) a (a + n)) (apart : a + n ≤ b ∨ b + n ≤ a) (enough : n < rounds) :
    ∃ m', liballoc_memcpy.words rounds (UInt64.ofNat a) (UInt64.ofNat b) (UInt64.ofNat n) m = .ok () m' ∧
      Filled m m' a n fun i => bytes m (b + i) := by
  induction n using Nat.strong_induction_on generalizing a b rounds m with
  | _ n ih =>
    obtain ⟨rounds, rfl⟩ : ∃ j, rounds = j + 1 := ⟨rounds - 1, by omega⟩
    have four : (4 ≤ UInt64.ofNat n) ↔ 4 ≤ n := by
      rw [UInt64.le_iff_toNat_le, toNat_ofNat64 bound]
      exact Iff.rfl
    rw [liballoc_memcpy.words]
    by_cases more : 4 ≤ n
    · obtain ⟨k, rfl⟩ : ∃ k, n = 4 + k := ⟨n - 4, by omega⟩
      have less : UInt64.ofNat (4 + k) - 4 = UInt64.ofNat k := by
        have difference := sub_ofNat (n := 4 + k) (k := 4) (by omega) bound
        rw [Nat.add_sub_cancel_left] at difference
        exact difference
      have next : ∀ x, UInt64.ofNat x + 4 = UInt64.ofNat (x + 4) := fun x => (UInt64.ofNat_add x 4).symm
      obtain ⟨w, m₁, loaded, run, filled⟩ := word_ok rest (source.mono le_rfl (by omega)) (target.mono le_rfl (by omega))
      have kept : ∀ {c d : Nat}, Spans (bytes m) c d → Spans (bytes m₁) c d :=
        filled.spans fun i below => source (b + i) (by omega) (by omega)
      have rest₁ : AtRest s₀ sections m₁.kernel := by
        rw [filled.kernel]
        exact rest
      have source₁ : Spans (bytes m₁) (b + 4) (b + 4 + k) := kept (source.mono (by omega) (by omega))
      have target₁ : Spans (bytes m₁) (a + 4) (a + 4 + k) := kept (target.mono (by omega) (by omega))
      obtain ⟨m₂, ran, others⟩ := ih k (by omega) rest₁ (by omega) source₁ target₁ (by omega) (show k < rounds by omega)
      refine ⟨m₂, ?_, filled.append others fun i below => ?_⟩
      · rw [if_pos (four.mpr more), bind_ok loaded, bind_ok run, next, next, less]
        exact ran
      · rw [filled.outside _ (by omega), Nat.add_assoc]
    · rw [if_neg (mt four.mp more)]
      exact bytes_ok rest bound source target apart (by rw [addresses]; omega)

/-- `liballoc_memcpy` copies what lies apart. -/
theorem liballoc_memcpy_ok (rest : AtRest s₀ sections m.kernel) (bound : n < 2 ^ 64) (source : Spans (bytes m) b (b + n))
    (target : Spans (bytes m) a (a + n)) (apart : a + n ≤ b ∨ b + n ≤ a) :
    ∃ m', liballoc_memcpy (UInt64.ofNat a) (UInt64.ofNat b) (UInt64.ofNat n) m = .ok (UInt64.ofNat a) m' ∧
      Filled m m' a n fun i => bytes m (b + i) := by
  obtain ⟨m', run, filled⟩ := words_ok rest bound source target apart (show n < addresses from bound)
  refine ⟨m', ?_, filled⟩
  rw [liballoc_memcpy]
  exact bind_ok run

end

end Extron.Liballoc
