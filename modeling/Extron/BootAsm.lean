import Extron.Mmu
import Extron.Library.Fields

/-!
`boot.asm`: from the loader's 32-bit entry to the call of `kernel_stage1`. The tables
that it builds map the first GiB of memory twice, at its own addresses and from
`KERNEL_VMA` on, and nothing else.
-/
namespace Extron.BootAsm
open Extron.Paging Extron.Fields Extron.Mmu Extron.Outcomes
set_option linter.unusedSimpArgs false

/-- Where the linker puts the uninitialised data of `boot.asm`. -/
structure Bss where
  p4_table : UInt64
  aligned : p4_table.toNat % 4096 = 0
  low : KERNEL_VMA.toNat + 0x100000 ≤ p4_table.toNat
  high : p4_table.toNat + 0x8008 ≤ KERNEL_VMA.toNat + ONE_GIB.toNat

namespace Bss

def p3_table (b : Bss) : UInt64 := b.p4_table + 4096
def p3_table_high (b : Bss) : UInt64 := b.p3_table + 4096
def p2_table (b : Bss) : UInt64 := b.p3_table_high + 4096
def boot_stack_top (b : Bss) : UInt64 := b.p2_table + 4096 + 16384
def mb2_ptr (b : Bss) : UInt64 := b.boot_stack_top

end Bss

/-- What the 32-bit code works on. -/
structure Cpu where
  eax : UInt32
  ebx : UInt32
  ecx : UInt32
  edx : UInt32
  esp : UInt32
  control : Control
  mem : Memory

abbrev Asm := EStateM Halt Cpu

/-- `x - KERNEL_VMA`, as 32-bit code has it. -/
def phys (x : UInt64) : UInt32 := (x - KERNEL_VMA).toUInt32

/-! ## Instructions -/

def mov_eax (v : UInt32) : Asm Unit := modify fun c => { c with eax := v }
def or_eax (v : UInt32) : Asm Unit := modify fun c => { c with eax := c.eax ||| v }
def store (a v : UInt32) : Asm Unit := modify fun c => { c with mem := deposit 4 a.toNat v.toNat c.mem }
def store_eax (a : UInt32) : Asm Unit := do store a (← get).eax

/-- `mul ecx` -/
def mul_ecx : Asm Unit := modify fun c =>
  { c with eax := (c.eax.toUInt64 * c.ecx.toUInt64).toUInt32, edx := ((c.eax.toUInt64 * c.ecx.toUInt64) >>> 32).toUInt32 }

/-- `call`, up to the return. -/
def call (back : UInt32) (body : Asm Unit) : Asm Unit := do
  modify fun c => { c with esp := c.esp - 4 }
  store (← get).esp back
  body
  modify fun c => { c with esp := c.esp + 4 }

/-- A write of the low half of a control register; the high half is zero. -/
def low (v : UInt32) : UInt64 := v.toUInt64

/-! ## The code -/

def map_p2 (b : Bss) : Nat → Asm Unit
  | 0 => throw .spin
  | rounds + 1 => do
    mov_eax 0x200000
    mul_ecx
    or_eax 0b10000011
    store_eax (phys b.p2_table + (← get).ecx * 8)
    modify fun c => { c with ecx := c.ecx + 1 }
    if (← get).ecx ≠ 512 then
      map_p2 b rounds

def setup_paging (b : Bss) : Asm Unit := do
  -- P4[0] -> P3
  mov_eax (phys b.p3_table)
  or_eax 0b11
  store_eax (phys b.p4_table)
  -- P3[0] -> P2
  mov_eax (phys b.p2_table)
  or_eax 0b11
  store_eax (phys b.p3_table)
  -- P4[511] -> P3_HIGH
  mov_eax (phys b.p3_table_high)
  or_eax 0b11
  store_eax (phys b.p4_table + 4088)
  -- P3_HIGH[510] -> P2
  mov_eax (phys b.p2_table)
  or_eax 0b11
  store_eax (phys b.p3_table_high + 4080)
  modify fun c => { c with ecx := 0 }
  map_p2 b 512

def enable_long_mode (b : Bss) : Asm Unit := do
  mov_eax (phys b.p4_table)
  modify fun c => { c with control := { c.control with cr3 := low c.eax } }
  mov_eax (← get).control.cr4.toUInt32
  or_eax ((1 : UInt32) <<< 5)
  modify fun c => { c with control := { c.control with cr4 := low c.eax } }
  modify fun c => { c with ecx := 0xC0000080 }
  -- rdmsr
  modify fun c => { c with eax := c.control.efer.toUInt32, edx := (c.control.efer >>> 32).toUInt32 }
  or_eax ((1 : UInt32) <<< 8 ||| (1 : UInt32) <<< 11)
  -- wrmsr
  modify fun c => { c with control := { c.control with efer := c.edx.toUInt64 <<< 32 ||| c.eax.toUInt64 } }
  mov_eax (← get).control.cr0.toUInt32
  or_eax ((1 : UInt32) <<< 31 ||| (1 : UInt32) <<< 0)
  modify fun c => { c with control := { c.control with cr0 := low c.eax } }

/-- The words of the page tables in memory. -/
def framesOf (M : Memory) : Frames := fun t i => UInt64.ofNat ((fetch M 8 (t.toNat + 8 * i.val)).getD 0)

/-- `mov r, [v]` once paging is on, for a `v` that 8 divides. -/
def load64 (v : UInt64) : Asm UInt64 := fun c =>
  match physicalOf c.control (framesOf c.mem) v with
  | some p => .ok (UInt64.ofNat ((fetch c.mem 8 p.toNat).getD 0)) c
  | none => .error (.fault v) c

/-- How `kernel_stage1` is called: its argument, and the stack that its return address
    is pushed to. -/
structure Entry where
  rdi : UInt64
  rsp : UInt64
deriving DecidableEq, Repr

/-- `_start`; the two calls push `back₁` and `back₂`. -/
def start (b : Bss) (back₁ back₂ : UInt32) : Asm Entry := do
  store (phys b.mb2_ptr) (← get).ebx
  modify fun c => { c with esp := phys b.boot_stack_top }
  call back₁ (setup_paging b)
  call back₂ (enable_long_mode b)
  let rsp := b.boot_stack_top
  let rdi ← load64 b.mb2_ptr
  return ⟨rdi, rsp⟩

/-! ## Addresses -/

section
variable {b : Bss} {c : Cpu} {n k : Nat}

/-- The physical address of the first table. -/
def Bss.base (b : Bss) : Nat := b.p4_table.toNat - KERNEL_VMA.toNat

theorem Bss.base_mod (b : Bss) : b.base % 4096 = 0 := by
  have := b.aligned
  have := b.low
  rw [Bss.base]
  simp only [toNat_KERNEL_VMA] at *
  omega

theorem Bss.base_lt (b : Bss) : b.base + 0x8008 ≤ 2 ^ 30 := by
  have := b.low
  have := b.high
  rw [Bss.base]
  simp only [toNat_KERNEL_VMA, toNat_ONE_GIB] at *
  omega

/-- An address that many bytes after the first table. -/
theorem toNat_after (x : UInt64) (inside : n ≤ 0x8000) (same : x = b.p4_table + UInt64.ofNat n) :
    x.toNat = KERNEL_VMA.toNat + (b.base + n) ∧ (phys x).toNat = b.base + n := by
  have := b.low
  have := b.high
  have offset : (UInt64.ofNat n).toNat = n := UInt64.toNat_ofNat_of_lt' (by norm_num; omega)
  have place : x.toNat = KERNEL_VMA.toNat + (b.base + n) := by
    rw [same, UInt64.toNat_add, offset, Bss.base]
    simp only [toNat_KERNEL_VMA, toNat_ONE_GIB] at *
    omega
  refine ⟨place, ?_⟩
  have small := b.base_lt
  rw [phys, UInt64.toNat_toUInt32, UInt64.toNat_sub, place]
  simp only [toNat_KERNEL_VMA]
  omega

theorem phys_p4 : (phys b.p4_table).toNat = b.base := by
  rw [(toNat_after (b := b) (n := 0) b.p4_table (by decide) (by simp)).2, Nat.add_zero]

theorem phys_p3 : (phys b.p3_table).toNat = b.base + 4096 := (toNat_after (n := 4096) _ (by decide) (by simp [Bss.p3_table])).2

theorem phys_high : (phys b.p3_table_high).toNat = b.base + 8192 :=
  (toNat_after (n := 8192) _ (by decide) (by simp [Bss.p3_table_high, Bss.p3_table, UInt64.add_assoc])).2

theorem phys_p2 : (phys b.p2_table).toNat = b.base + 12288 :=
  (toNat_after (n := 12288) _ (by decide) (by simp [Bss.p2_table, Bss.p3_table_high, Bss.p3_table, UInt64.add_assoc])).2

theorem stack_after : b.boot_stack_top = b.p4_table + UInt64.ofNat 0x8000 := by
  simp [Bss.boot_stack_top, Bss.p2_table, Bss.p3_table_high, Bss.p3_table, UInt64.add_assoc]

theorem phys_stack : (phys b.boot_stack_top).toNat = b.base + 0x8000 := (toNat_after (n := 0x8000) _ (by decide) stack_after).2

/-! ## The tables in memory -/

/-- The dword that round `k` of `map_p2` stores. -/
def p2Field (b : Bss) (k : Nat) : Field := ⟨b.base + 12288 + 8 * k, 4, k * 2 ^ 21 + 0x83⟩

/-- What `setup_paging` stores. -/
def tables (b : Bss) : List Field :=
  ⟨b.base, 4, b.base + 4096 + 3⟩ :: ⟨b.base + 4096, 4, b.base + 12288 + 3⟩ :: ⟨b.base + 4088, 4, b.base + 8192 + 3⟩ ::
    ⟨b.base + 8192 + 4080, 4, b.base + 12288 + 3⟩ :: (List.range' 0 512).map (p2Field b)

theorem or_low {a m : Nat} (size : Nat) (aligned : a % 2 ^ size = 0) (small : m < 2 ^ size) : a ||| m = a + m := by
  obtain ⟨q, rfl⟩ := Nat.dvd_of_mod_eq_zero aligned
  rw [← Nat.two_pow_add_eq_or_of_lt small]

theorem toNat_or {x y : UInt32} {a m : Nat} (size : Nat) (first : x.toNat = a) (second : y.toNat = m) (aligned : a % 2 ^ size = 0)
    (small : m < 2 ^ size) : (x ||| y).toNat = a + m := by
  rw [UInt32.toNat_or, first, second, or_low size aligned small]

/-- One round of `map_p2`. -/
theorem map_round (rounds : Nat) (inside : k < 512) (count : c.ecx = UInt32.ofNat k) : ∃ eax edx,
    map_p2 b (rounds + 1) c = (if k + 1 ≠ 512 then map_p2 b rounds else pure ())
      { c with eax := eax, edx := edx, ecx := UInt32.ofNat (k + 1), mem := (p2Field b k).store c.mem } := by
  have small := b.base_lt
  have counted : c.ecx.toNat = k := by
    rw [count, UInt32.toNat_ofNat']
    omega
  have product : ((0x200000 : UInt32).toUInt64 * c.ecx.toUInt64).toNat = k * 2 ^ 21 := by
    have size : (0x200000 : UInt32).toNat = 2 ^ 21 := rfl
    rw [UInt64.toNat_mul, UInt32.toNat_toUInt64, UInt32.toNat_toUInt64, counted, size]
    omega
  have value : (((0x200000 : UInt32).toUInt64 * c.ecx.toUInt64).toUInt32 ||| 0b10000011).toNat = k * 2 ^ 21 + 0x83 := by
    refine toNat_or 21 ?_ rfl (by omega) (by norm_num)
    rw [UInt64.toNat_toUInt32, product]
    omega
  have place : (phys b.p2_table + c.ecx * 8).toNat = b.base + 12288 + 8 * k := by
    have size : (8 : UInt32).toNat = 8 := rfl
    rw [UInt32.toNat_add, UInt32.toNat_mul, counted, phys_p2, size]
    omega
  have next : c.ecx + 1 = UInt32.ofNat (k + 1) := by
    rw [count, UInt32.ofNat_add]
    rfl
  have last : UInt32.ofNat (k + 1) ≠ 512 ↔ k + 1 ≠ 512 := by
    rw [Ne, ← UInt32.toNat_inj, UInt32.toNat_ofNat', Nat.mod_eq_of_lt (by omega)]
    rfl
  refine ⟨((0x200000 : UInt32).toUInt64 * c.ecx.toUInt64).toUInt32 ||| 0b10000011,
    (((0x200000 : UInt32).toUInt64 * c.ecx.toUInt64) >>> 32).toUInt32, ?_⟩
  simp only [map_p2, mov_eax, mul_ecx, or_eax, store_eax, store, modify_bind, get_bind, bind_assoc, place, value, next, last]
  rfl

theorem map_p2_ok : ∀ (rounds k : Nat) (c : Cpu), k + (rounds + 1) = 512 → c.ecx = UInt32.ofNat k →
    ∃ eax edx, map_p2 b (rounds + 1) c =
      .ok () { c with eax := eax, edx := edx, ecx := 512, mem := stores ((List.range' k (rounds + 1)).map (p2Field b)) c.mem } := by
  intro rounds
  induction rounds with
  | zero =>
    intro k c total count
    obtain ⟨eax, edx, run⟩ := map_round (b := b) 0 (by omega) count
    rw [if_neg (by omega)] at run
    have last : k + 1 = 512 := by omega
    rw [last] at run
    exact ⟨eax, edx, run⟩
  | succ rounds ih =>
    intro k c total count
    obtain ⟨eax, edx, run⟩ := map_round (b := b) (rounds + 1) (by omega) count
    obtain ⟨eax', edx', rest⟩ := ih (k + 1) { c with eax := eax, edx := edx, ecx := UInt32.ofNat (k + 1), mem := (p2Field b k).store c.mem }
      (by omega) rfl
    rw [if_pos (by omega), rest] at run
    exact ⟨eax', edx', run⟩

theorem toNat_or3 {x : UInt32} {a : Nat} (first : x.toNat = b.base + a) (aligned : a % 4096 = 0) :
    (x ||| 0b11).toNat = b.base + a + 3 := by
  have := b.base_mod
  exact toNat_or 12 first rfl (by omega) (by norm_num)

/-- The three instructions that write a table word. -/
theorem put_ok {x a : UInt32} {w n : Nat} {rest : Asm Unit} (value : (x ||| 0b11).toNat = w) (place : a.toNat = n) :
    (do
      mov_eax x
      or_eax 0b11
      store_eax a
      rest : Asm Unit) c = rest { c with eax := x ||| 0b11, mem := Field.store ⟨n, 4, w⟩ c.mem } := by
  rw [← value, ← place]
  rfl

theorem setup_paging_ok (c : Cpu) : ∃ eax edx,
    setup_paging b c = .ok () { c with eax := eax, edx := edx, ecx := 512, mem := stores (tables b) c.mem } := by
  have small := b.base_lt
  have p3 := toNat_or3 (phys_p3 (b := b)) (by decide)
  have p2 := toNat_or3 (phys_p2 (b := b)) (by decide)
  have high := toNat_or3 (phys_high (b := b)) (by decide)
  have last4 : (phys b.p4_table + 4088).toNat = b.base + 4088 := by
    have size : (4088 : UInt32).toNat = 4088 := rfl
    rw [UInt32.toNat_add, phys_p4, size]
    omega
  have last3 : (phys b.p3_table_high + 4080).toNat = b.base + 8192 + 4080 := by
    have size : (4080 : UInt32).toNat = 4080 := rfl
    rw [UInt32.toNat_add, phys_high, size]
    omega
  rw [setup_paging, put_ok p3 phys_p4, put_ok p2 phys_p3, put_ok high last4, put_ok p2 last3, modify_bind, tables, stores, stores,
    stores, stores]
  exact map_p2_ok 511 0 _ (by decide) rfl

/-- The word that many bytes after the first table. -/
def word (b : Bss) (o : Nat) : Nat :=
  if o = 0 then b.base + 4096 + 3
  else if o = 4096 then b.base + 12288 + 3
  else if o = 4088 then b.base + 8192 + 3
  else if o = 8192 + 4080 then b.base + 12288 + 3
  else if 12288 ≤ o then (o - 12288) / 8 * 2 ^ 21 + 0x83
  else 0

theorem mem_tables {f : Field} : f ∈ tables b ↔ ∃ o, o % 8 = 0 ∧ o < 16384 ∧ word b o ≠ 0 ∧ f = ⟨b.base + o, 4, word b o⟩ := by
  constructor
  · intro member
    simp only [tables, List.mem_cons, List.mem_map, List.mem_range'_1] at member
    rcases member with rfl | rfl | rfl | rfl | ⟨k, ⟨_, inside⟩, rfl⟩
    · exact ⟨0, by decide, by decide, by simp [word], by simp [word]⟩
    · exact ⟨4096, by decide, by decide, by simp [word], by simp [word]⟩
    · exact ⟨4088, by decide, by decide, by simp [word], by simp [word]⟩
    · exact ⟨8192 + 4080, by decide, by decide, by simp [word], by simp [word, Nat.add_assoc]⟩
    · have value : word b (12288 + 8 * k) = k * 2 ^ 21 + 0x83 := by
        rw [word, if_neg (by omega), if_neg (by omega), if_neg (by omega), if_neg (by omega), if_pos (by omega)]
        omega
      exact ⟨12288 + 8 * k, by omega, by omega, by rw [value]; omega, by rw [value, p2Field, Nat.add_assoc]⟩
  · rintro ⟨o, aligned, inside, some, rfl⟩
    rw [word] at some ⊢
    simp only [tables, List.mem_cons, List.mem_map, List.mem_range'_1]
    split at some
    · rename_i here
      subst here
      exact .inl (by simp)
    split at some
    · rename_i here
      subst here
      exact .inr (.inl (by simp))
    split at some
    · rename_i here
      subst here
      exact .inr (.inr (.inl (by simp)))
    split at some
    · rename_i here
      subst here
      exact .inr (.inr (.inr (.inl (by simp [Nat.add_assoc]))))
    split at some
    · refine .inr (.inr (.inr (.inr ⟨(o - 12288) / 8, ⟨by omega, by omega⟩, ?_⟩)))
      have place : b.base + 12288 + 8 * ((o - 12288) / 8) = b.base + o := by omega
      rw [p2Field, place, if_neg (by omega), if_neg (by omega), if_neg (by omega), if_neg (by omega), if_pos (by omega)]
    · exact absurd rfl some

theorem separate_tables : Separate (tables b) := by
  intro f inF g inG different
  obtain ⟨o, alignedF, _, _, rfl⟩ := mem_tables.mp inF
  obtain ⟨q, alignedG, _, _, rfl⟩ := mem_tables.mp inG
  have other : o ≠ q := fun same => different (same ▸ rfl)
  simp only [Field.Apart]
  omega

theorem word_lt {o : Nat} (inside : o < 16384) : word b o < 2 ^ 32 := by
  have := b.base_lt
  rw [word]
  split_ifs <;> omega

theorem fetch_zero {M : Memory} {a : Nat} (zero : ∀ x, a ≤ x → x < a + n → M x = some 0) : fetch M n a = some 0 := by
  induction n generalizing a with
  | zero => rfl
  | succ n ih =>
    rw [fetch, zero a le_rfl (by omega), ih fun x low high => zero x (by omega) (by omega)]
    rfl

/-- So many bytes of the data are zero. -/
def Blank (b : Bss) (size : Nat) (M : Memory) : Prop := ∀ x, b.base ≤ x → x < b.base + size → M x = some 0

/-- Every word of the tables is the one that was stored, or still zero. -/
theorem fetch_tables {M : Memory} {o : Nat} (blank : Blank b 16384 M) (aligned : o % 8 = 0) (inside : o < 16384) :
    fetch (stores (tables b) M) 8 (b.base + o) = some (word b o) := by
  have high : fetch (stores (tables b) M) 4 (b.base + o + 4) = some 0 := by
    refine fetch_zero fun x above below => ?_
    rw [stores_outside, blank x (by omega) (by omega)]
    intro f member
    obtain ⟨q, alignedQ, _, _, rfl⟩ := mem_tables.mp member
    dsimp only
    omega
  have low : fetch (stores (tables b) M) 4 (b.base + o) = some (word b o) := by
    by_cases some : word b o = 0
    · rw [some]
      refine fetch_zero fun x above below => ?_
      rw [stores_outside, blank x (by omega) (by omega)]
      intro f member
      obtain ⟨q, alignedQ, _, nonzero, rfl⟩ := mem_tables.mp member
      have other : o ≠ q := fun same => nonzero (same ▸ some)
      dsimp only
      omega
    · exact in_stores (f := ⟨b.base + o, 4, word b o⟩) separate_tables (mem_tables.mpr ⟨o, aligned, inside, some, rfl⟩) (word_lt inside)
  have both := fetch_append low high
  rwa [Nat.mul_zero, Nat.add_zero] at both

/-! ## Translation -/

/-- The memory has the tables. -/
def Mapped (b : Bss) (M : Memory) : Prop := ∀ o, o % 8 = 0 → o < 16384 → fetch M 8 (b.base + o) = some (word b o)

/-- What the tables map: the first GiB at its own addresses and from `KERNEL_VMA` on. -/
def earlyAddress (v : UInt64) : Option UInt64 :=
  if v < ONE_GIB then some v
  else if KERNEL_VMA ≤ v ∧ v - KERNEL_VMA < ONE_GIB then some (v - KERNEL_VMA)
  else none

theorem framesOf_mapped {M : Memory} (mapped : Mapped b M) {t : UInt64} (i : Fin 512) (k : Nat) (table : t.toNat = b.base + 4096 * k)
    (inside : k < 4) : framesOf M t i = UInt64.ofNat (word b (4096 * k + 8 * i.val)) := by
  have place : t.toNat + 8 * i.val = b.base + (4096 * k + 8 * i.val) := by omega
  rw [framesOf, place, mapped _ (by omega) (by omega)]
  rfl

variable {w : Nat} {mode : Control}

theorem present_absent : present mode (UInt64.ofNat 0) = none := if_neg fun both => both.1 (by decide)

theorem present_bit (x : UInt64) : x &&& PAGE_PRESENT ≠ 0 ↔ x.toNat % 2 = 1 := by
  rw [Words.and_flag x PAGE_PRESENT (k := 0) rfl, Nat.testBit_eq_decide_div_mod_eq, decide_eq_true_eq, Nat.pow_zero, Nat.div_one]

theorem huge_bit (x : UInt64) : x &&& PAGE_HUGE ≠ 0 ↔ x.toNat / 128 % 2 = 1 := by
  rw [Words.and_flag x PAGE_HUGE (k := 7) rfl, Nat.testBit_eq_decide_div_mod_eq, decide_eq_true_eq]

theorem present_here (long : LongMode mode) {x : UInt64} (here : x.toNat % 2 = 1) : present mode x = some x := by
  rw [present_eq long, if_pos ((present_bit x).mpr here)]

/-- A word that points to a table. -/
theorem present_table (long : LongMode mode) (aligned : w % 4096 = 0) (small : w < 2 ^ 30) :
    present mode (UInt64.ofNat (w + 3)) = some (UInt64.ofNat (w + 3)) ∧
      (UInt64.ofNat (w + 3) &&& PAGE_ADDR_MASK).toNat = w ∧ ¬ UInt64.ofNat (w + 3) &&& PAGE_HUGE ≠ 0 := by
  have value : (UInt64.ofNat (w + 3)).toNat = w + 3 := UInt64.toNat_ofNat_of_lt' (by norm_num; omega)
  refine ⟨present_here long (by omega), ?_, ?_⟩
  · rw [toNat_and_mask, value]
    omega
  · rw [huge_bit, value]
    omega

/-- The address in a large page. -/
theorem large_page {k : Nat} {v : UInt64} (long : LongMode mode) (small : k < 512) (here : v.toNat / 2 ^ 21 % 512 = k) :
    present mode (UInt64.ofNat (k * 2 ^ 21 + 0x83)) = some (UInt64.ofNat (k * 2 ^ 21 + 0x83)) ∧
      UInt64.ofNat (k * 2 ^ 21 + 0x83) &&& PAGE_HUGE ≠ 0 ∧
      ((UInt64.ofNat (k * 2 ^ 21 + 0x83) &&& 0x000FFFFFFFE00000) + (v &&& 0x1FFFFF)).toNat = v.toNat % 2 ^ 30 := by
  have value : (UInt64.ofNat (k * 2 ^ 21 + 0x83)).toNat = k * 2 ^ 21 + 0x83 := UInt64.toNat_ofNat_of_lt' (by norm_num; omega)
  refine ⟨present_here long (by omega), ?_, ?_⟩
  · rw [huge_bit, value]
    omega
  · rw [UInt64.toNat_add, Words.and_field _ _ (l := 21) (h := 52) (by decide) (by decide), Words.and_low _ _ (k := 21) (by decide), value]
    omega

theorem val_PML4 (v : UInt64) : (PML4_IDX v).val = v.toNat / 2 ^ 39 % 512 := by
  rw [PML4_IDX_eq, val_index, pageOf]
  omega

theorem val_PDPT (v : UInt64) : (PDPT_IDX v).val = v.toNat / 2 ^ 30 % 512 := by
  rw [PDPT_IDX_eq, val_index, pageOf]
  omega

theorem val_PD (v : UInt64) : (PD_IDX v).val = v.toNat / 2 ^ 21 % 512 := by
  rw [PD_IDX_eq, val_index, pageOf]
  omega

section
variable {M : Memory} (mapped : Mapped b M) (long : LongMode mode) (root : mode.cr3.toNat = b.base) {v : UInt64}
  (extended : SignExtended v)
include mapped root

theorem framesOf_root : framesOf M (mode.cr3 &&& PAGE_ADDR_MASK) (PML4_IDX v) = UInt64.ofNat (word b (8 * (PML4_IDX v).val)) := by
  have small := b.base_lt
  have aligned := b.base_mod
  have first : (mode.cr3 &&& PAGE_ADDR_MASK).toNat = b.base + 4096 * 0 := by
    rw [toNat_and_mask, root]
    omega
  rw [framesOf_mapped mapped _ 0 first (by decide), Nat.mul_zero, Nat.zero_add]

include extended

theorem translate_nowhere (first : word b (8 * (PML4_IDX v).val) = 0) : physicalOf mode (framesOf M) v = none := by
  rw [physicalOf, if_pos extended, framesOf_root mapped root, first, present_absent]
  rfl

include long

/-- The walk through one of the two tables that point to the shared one. -/
theorem translate_through (second : k = 1 ∨ k = 2) (first : word b (8 * (PML4_IDX v).val) = b.base + 4096 * k + 3)
    (third : word b (4096 * k + 8 * (PDPT_IDX v).val) = 0 ∨ word b (4096 * k + 8 * (PDPT_IDX v).val) = b.base + 12288 + 3) :
    physicalOf mode (framesOf M) v =
      if word b (4096 * k + 8 * (PDPT_IDX v).val) = 0 then none else some (UInt64.ofNat (v.toNat % 2 ^ 30)) := by
  have small := b.base_lt
  have aligned := b.base_mod
  obtain ⟨here, place, _⟩ := present_table (w := b.base + 4096 * k) long (by omega) (by omega)
  rw [physicalOf, if_pos extended, framesOf_root mapped root, first, here]
  simp only [Option.bind_eq_bind, Option.bind_some]
  rw [framesOf_mapped mapped _ k place (by omega)]
  rcases third with none | shared
  · rw [none, present_absent, if_pos rfl]
    rfl
  obtain ⟨here, place, flat⟩ := present_table (w := b.base + 12288) long (by omega) (by omega)
  have table : (UInt64.ofNat (b.base + 12288 + 3) &&& PAGE_ADDR_MASK).toNat = b.base + 4096 * 3 := by omega
  have row : word b (4096 * 3 + 8 * (PD_IDX v).val) = (PD_IDX v).val * 2 ^ 21 + 0x83 := by
    have := (PD_IDX v).isLt
    rw [word, if_neg (by omega), if_neg (by omega), if_neg (by omega), if_neg (by omega), if_pos (by omega)]
    omega
  obtain ⟨there, large, value⟩ := large_page (v := v) long (PD_IDX v).isLt (val_PD v).symm
  rw [shared, here, if_neg (by omega), Option.bind_some, if_neg flat, framesOf_mapped mapped _ 3 table (by decide), row, there,
    Option.bind_some, if_pos large]
  refine congrArg some (UInt64.toNat_inj.mp ?_)
  rw [value, UInt64.toNat_ofNat_of_lt' (by norm_num; omega)]

theorem translate_extended : physicalOf mode (framesOf M) v = earlyAddress v := by
  have small := b.base_lt
  have bound := v.toNat_lt
  have fourth := val_PML4 v
  have third := val_PDPT v
  have last := (PDPT_IDX v).isLt
  have upper : KERNEL_VMA ≤ v ↔ 2 ^ 64 - 2 ^ 31 ≤ v.toNat := UInt64.le_iff_toNat_le
  have offset (high : 2 ^ 64 - 2 ^ 31 ≤ v.toNat) : (v - KERNEL_VMA).toNat = v.toNat - (2 ^ 64 - 2 ^ 31) := by
    rw [UInt64.toNat_sub_of_le _ _ (upper.mpr high), toNat_KERNEL_VMA]
  simp only [earlyAddress, UInt64.lt_iff_toNat_lt, UInt64.le_iff_toNat_le, toNat_ONE_GIB, toNat_KERNEL_VMA]
  have halves := extended
  rw [SignExtended] at halves
  by_cases identity : (PML4_IDX v).val = 0
  · have first : word b (8 * (PML4_IDX v).val) = b.base + 4096 * 1 + 3 := by rw [identity, word, if_pos rfl]
    by_cases inside : (PDPT_IDX v).val = 0
    · have shared : word b (4096 * 1 + 8 * (PDPT_IDX v).val) = b.base + 12288 + 3 := by rw [inside, word, if_neg (by decide), if_pos rfl]
      rw [translate_through mapped long root extended (.inl rfl) first (.inr shared), if_neg (by omega), if_pos (by omega)]
      refine congrArg some (UInt64.toNat_inj.mp ?_)
      rw [UInt64.toNat_ofNat_of_lt' (by norm_num; omega)]
      omega
    · have none : word b (4096 * 1 + 8 * (PDPT_IDX v).val) = 0 := by
        rw [word, if_neg (by omega), if_neg (by omega), if_neg (by omega), if_neg (by omega), if_neg (by omega)]
      rw [translate_through mapped long root extended (.inl rfl) first (.inl none), if_pos none, if_neg (by omega), if_neg (by omega)]
  by_cases kernel : (PML4_IDX v).val = 511
  · have first : word b (8 * (PML4_IDX v).val) = b.base + 4096 * 2 + 3 := by
      rw [kernel, word, if_neg (by decide), if_neg (by decide), if_pos rfl]
    by_cases inside : (PDPT_IDX v).val = 510
    · have shared : word b (4096 * 2 + 8 * (PDPT_IDX v).val) = b.base + 12288 + 3 := by
        rw [inside, word, if_neg (by decide), if_neg (by decide), if_neg (by decide), if_pos rfl]
      have within := offset (by omega)
      rw [translate_through mapped long root extended (.inr rfl) first (.inr shared), if_neg (by omega), if_neg (by omega), if_pos (by omega)]
      refine congrArg some (UInt64.toNat_inj.mp ?_)
      rw [UInt64.toNat_ofNat_of_lt' (by norm_num; omega), within]
      omega
    · have none : word b (4096 * 2 + 8 * (PDPT_IDX v).val) = 0 := by
        rw [word, if_neg (by omega), if_neg (by omega), if_neg (by omega), if_neg (by omega), if_neg (by omega)]
      rw [translate_through mapped long root extended (.inr rfl) first (.inl none), if_pos none, if_neg (by omega), if_neg]
      rintro ⟨high, below⟩
      have within := offset high
      omega
  · have inside := (PML4_IDX v).isLt
    have first : word b (8 * (PML4_IDX v).val) = 0 := by
      rw [word, if_neg (by omega), if_neg (by omega), if_neg (by omega), if_neg (by omega), if_neg (by omega)]
    rw [translate_nowhere mapped root extended first, if_neg (by omega), if_neg (by omega)]

end

end

/-! ## The whole run -/

section
variable {b : Bss} {c : Cpu}

theorem low_flag {x y : UInt32} {m : UInt64} (bit : low y &&& m ≠ 0) : low (x ||| y) &&& m ≠ 0 := by
  rw [low, UInt32.toUInt64_or, Words.or_and]
  exact Words.or_ne_zero_right _ bit

theorem enable_long_mode_ok (c : Cpu) : ∃ eax ecx edx mode,
    enable_long_mode b c = .ok () { c with eax := eax, ecx := ecx, edx := edx, control := mode } ∧ LongMode mode ∧
      mode.cr3.toNat = b.base := by
  refine ⟨_, _, _, ⟨low (c.control.cr0.toUInt32 ||| ((1 : UInt32) <<< 31 ||| (1 : UInt32) <<< 0)), low (phys b.p4_table),
    low (c.control.cr4.toUInt32 ||| (1 : UInt32) <<< 5), (c.control.efer >>> 32).toUInt32.toUInt64 <<< 32 |||
      low (c.control.efer.toUInt32 ||| ((1 : UInt32) <<< 8 ||| (1 : UInt32) <<< 11))⟩, rfl, ⟨?_, ?_, ?_, ?_, ?_⟩, ?_⟩
  · exact low_flag (by decide)
  · exact low_flag (by decide)
  · exact low_flag (by decide)
  · rw [Words.or_and]
    exact Words.or_ne_zero_right _ (low_flag (by decide))
  · rw [Words.or_and]
    exact Words.or_ne_zero_right _ (low_flag (by decide))
  · exact (UInt32.toNat_toUInt64 _).trans phys_p4

theorem call_ok {back : UInt32} {body : Asm Unit} {c' : Cpu} {a : Nat} {M : Memory} (top : (c.esp - 4).toNat = a)
    (pushed : M = deposit 4 a back.toNat c.mem) (run : body { c with esp := c.esp - 4, mem := M } = .ok () c') :
    call back body c = .ok () { c' with esp := c'.esp + 4 } := by
  rw [pushed, ← top] at run
  exact bind_ok run

theorem earlyAddress_off {v : UInt64} (off : ¬ SignExtended v) : earlyAddress v = none := by
  rw [SignExtended, not_or] at off
  have lower : ¬ v < ONE_GIB := by
    rw [UInt64.lt_iff_toNat_lt, toNat_ONE_GIB]
    omega
  have upper : ¬ KERNEL_VMA ≤ v := by
    rw [UInt64.le_iff_toNat_le, toNat_KERNEL_VMA]
    omega
  rw [earlyAddress, if_neg lower, if_neg fun both => upper both.1]

theorem earlyAddress_kernel {v : UInt64} {n : Nat} (place : v.toNat = KERNEL_VMA.toNat + n) (inside : n < 2 ^ 30) :
    earlyAddress v = some (v - KERNEL_VMA) ∧ (v - KERNEL_VMA).toNat = n := by
  rw [toNat_KERNEL_VMA] at place
  have upper : KERNEL_VMA ≤ v := by
    rw [UInt64.le_iff_toNat_le, toNat_KERNEL_VMA]
    omega
  have offset : (v - KERNEL_VMA).toNat = n := by
    rw [UInt64.toNat_sub_of_le _ _ upper, toNat_KERNEL_VMA]
    omega
  have lower : ¬ v < ONE_GIB := by
    rw [UInt64.lt_iff_toNat_lt, toNat_ONE_GIB]
    omega
  have within : v - KERNEL_VMA < ONE_GIB := by
    rw [UInt64.lt_iff_toNat_lt, toNat_ONE_GIB]
    omega
  exact ⟨by rw [earlyAddress, if_neg lower, if_pos ⟨upper, within⟩], offset⟩

/-- All of the memory that the two tables of pages share, by its own address and from
    `KERNEL_VMA` on. -/
theorem translate_mapped {M : Memory} {mode : Control} (mapped : Mapped b M) (long : LongMode mode) (root : mode.cr3.toNat = b.base)
    (v : UInt64) : physicalOf mode (framesOf M) v = earlyAddress v := by
  by_cases extended : SignExtended v
  · exact translate_extended mapped long root extended
  · rw [translate_outside _ extended, earlyAddress_off extended]

theorem start_ok (b : Bss) (back₁ back₂ : UInt32) (c : Cpu) (blank : Blank b 0x8008 c.mem) :
    ∃ c', start b back₁ back₂ c = .ok ⟨c.ebx.toUInt64, b.boot_stack_top⟩ c' ∧ LongMode c'.control ∧ c'.control.cr3.toNat = b.base ∧
      Mapped b c'.mem ∧ ∀ x, x < b.base ∨ b.base + 0x8008 ≤ x → c'.mem x = c.mem x := by
  have small := b.base_lt
  have top : (phys b.boot_stack_top - 4).toNat = b.base + 0x7ffc := by
    have size : (4 : UInt32).toNat = 4 := rfl
    rw [UInt32.toNat_sub, phys_stack, size]
    omega
  -- the argument, and the return address of the first call
  obtain ⟨M₁, argument⟩ : ∃ M, M = deposit 4 (b.base + 0x8000) c.ebx.toNat c.mem := ⟨_, rfl⟩
  obtain ⟨M₂, pushed⟩ : ∃ M, M = deposit 4 (b.base + 0x7ffc) back₁.toNat M₁ := ⟨_, rfl⟩
  have blank₂ : Blank b 16384 M₂ := by
    intro x above below
    rw [pushed, argument, deposit_outside (by omega), deposit_outside (by omega), blank x above (by omega)]
  obtain ⟨eax, edx, built⟩ := setup_paging_ok (b := b) { c with esp := phys b.boot_stack_top - 4, mem := M₂ }
  have first := call_ok (c := { c with esp := phys b.boot_stack_top, mem := M₁ }) top pushed built
  dsimp only at first
  rw [UInt32.sub_add_cancel] at first
  obtain ⟨M₃, tabled⟩ : ∃ M, M = stores (tables b) M₂ := ⟨_, rfl⟩
  obtain ⟨M₄, returned⟩ : ∃ M, M = deposit 4 (b.base + 0x7ffc) back₂.toNat M₃ := ⟨_, rfl⟩
  rw [← tabled] at first
  obtain ⟨eax', ecx', edx', mode, switched, long, root⟩ := enable_long_mode_ok (b := b)
    { c with eax := eax, edx := edx, ecx := 512, esp := phys b.boot_stack_top - 4, mem := M₄ }
  have second := call_ok (c := { c with eax := eax, edx := edx, ecx := 512, esp := phys b.boot_stack_top, mem := M₃ }) top returned switched
  dsimp only at second
  rw [UInt32.sub_add_cancel] at second
  have outside {x : Nat} (out : x < b.base ∨ b.base + 16384 ≤ x) : M₃ x = M₂ x := by
    rw [tabled, stores_outside]
    intro f member
    obtain ⟨o, _, inside, _, rfl⟩ := mem_tables.mp member
    dsimp only
    omega
  have mapped : Mapped b M₄ := by
    intro o aligned inside
    rw [← fetch_tables blank₂ aligned inside, ← tabled]
    refine fetch_congr fun x low high => ?_
    rw [returned, deposit_outside (by omega)]
  have pointer : fetch M₄ 8 (b.base + 0x8000) = some c.ebx.toNat := by
    have low : fetch M₄ 4 (b.base + 0x8000) = some c.ebx.toNat := by
      have stored : fetch M₁ 4 (b.base + 0x8000) = some c.ebx.toNat := by
        have small : c.ebx.toNat < 256 ^ 4 := c.ebx.toNat_lt
        rw [argument, fetch_deposit, Nat.mod_eq_of_lt small]
      rw [← stored]
      refine fetch_congr fun x above below => ?_
      rw [returned, deposit_outside (by omega), outside (by omega), pushed, deposit_outside (by omega)]
    have high : fetch M₄ 4 (b.base + 0x8000 + 4) = some 0 := by
      refine fetch_zero fun x above below => ?_
      rw [returned, deposit_outside (by omega), outside (by omega), pushed, deposit_outside (by omega), argument,
        deposit_outside (by omega), blank x (by omega) (by omega)]
    have both := fetch_append low high
    rwa [Nat.mul_zero, Nat.add_zero] at both
  have argumentAt : load64 b.mb2_ptr { c with eax := eax', ecx := ecx', edx := edx', esp := phys b.boot_stack_top, control := mode, mem := M₄ } =
      .ok c.ebx.toUInt64 { c with eax := eax', ecx := ecx', edx := edx', esp := phys b.boot_stack_top, control := mode, mem := M₄ } := by
    obtain ⟨early, offset⟩ := earlyAddress_kernel (toNat_after (b := b) (n := 0x8000) _ (by decide) stack_after).1 (by omega)
    have value : UInt64.ofNat c.ebx.toNat = c.ebx.toUInt64 := by
      rw [← UInt64.toNat_inj, UInt32.toNat_toUInt64]
      exact UInt64.toNat_ofNat_of_lt' (c.ebx.toNat_lt.trans (by norm_num))
    rw [load64]
    dsimp only
    rw [Bss.mb2_ptr, translate_mapped mapped long root, early]
    dsimp only
    rw [offset, pointer, Option.getD_some, value]
  refine ⟨{ c with eax := eax', ecx := ecx', edx := edx', esp := phys b.boot_stack_top, control := mode, mem := M₄ }, ?_, long, root, mapped, ?_⟩
  · rw [start, get_bind, store, modify_bind, modify_bind, Bss.mb2_ptr, phys_stack]
    dsimp only
    rw [← argument, bind_ok first, bind_ok second]
    exact bind_ok argumentAt
  · intro x out
    dsimp only
    rw [returned, deposit_outside (by omega), outside (by omega), pushed, deposit_outside (by omega), argument,
      deposit_outside (by omega)]

end

/-- From the loader on, whatever is in the registers: once `boot.asm` calls the kernel, the
    processor is in long mode, the first GiB of memory is mapped at its own addresses and from
    `KERNEL_VMA` on, no other address is mapped, the argument is what the loader passed, and
    only the data of `boot.asm` has changed. -/
theorem start_hands_over (b : Bss) (back₁ back₂ : UInt32) (c : Cpu) (blank : Blank b 0x8008 c.mem) :
    ∃ c', start b back₁ back₂ c = .ok ⟨c.ebx.toUInt64, b.boot_stack_top⟩ c' ∧ LongMode c'.control ∧
      (∀ v, physicalOf c'.control (framesOf c'.mem) v = earlyAddress v) ∧
      ∀ x, x < b.base ∨ b.base + 0x8008 ≤ x → c'.mem x = c.mem x := by
  obtain ⟨c', run, long, root, mapped, kept⟩ := start_ok b back₁ back₂ c blank
  exact ⟨c', run, long, translate_mapped mapped long root, kept⟩

/-- A link of the kernel that puts the data of `boot.asm` at 2 MiB. -/
def smallBss : Bss := ⟨KERNEL_VMA + 0x200000, by decide, by decide, by decide⟩

/-- The processor as a loader leaves it, in memory full of zeros. -/
def smallCpu : Cpu := ⟨0x36D76289, 0x9500, 0, 0, 0, ⟨0x11, 0, 0, 0⟩, fun _ => some 0⟩

theorem start_hands_over_small : ∃ c', start smallBss 0x10000f 0x100014 smallCpu = .ok ⟨0x9500, smallBss.boot_stack_top⟩ c' ∧
    LongMode c'.control ∧ (∀ v, physicalOf c'.control (framesOf c'.mem) v = earlyAddress v) ∧
    ∀ x, x < smallBss.base ∨ smallBss.base + 0x8008 ≤ x → c'.mem x = smallCpu.mem x :=
  start_hands_over smallBss 0x10000f 0x100014 smallCpu fun _ _ _ => rfl

end Extron.BootAsm
