import Extron.Library.Words

/-!
`idt.c`: the table of interrupt gates as the kernel writes it, field by field, and as the
processor reads it, byte by byte. After `idt_init` seven vectors have a gate and every other
one is not present.
-/
namespace Extron.Idt
set_option linter.unusedSimpArgs false

/-- `struct idt_entry` -/
structure IdtEntry where
  offset_low : UInt16
  selector : UInt16
  ist : UInt8
  type_attr : UInt8
  offset_mid : UInt16
  offset_high : UInt32
  zero : UInt32
deriving DecidableEq, Repr

/-- The bytes of the packed structure. -/
def IdtEntry.byte (e : IdtEntry) : Nat → UInt8
  | 0 => e.offset_low.toUInt8
  | 1 => (e.offset_low >>> 8).toUInt8
  | 2 => e.selector.toUInt8
  | 3 => (e.selector >>> 8).toUInt8
  | 4 => e.ist
  | 5 => e.type_attr
  | 6 => e.offset_mid.toUInt8
  | 7 => (e.offset_mid >>> 8).toUInt8
  | 8 => e.offset_high.toUInt8
  | 9 => (e.offset_high >>> 8).toUInt8
  | 10 => (e.offset_high >>> 16).toUInt8
  | 11 => (e.offset_high >>> 24).toUInt8
  | 12 => e.zero.toUInt8
  | 13 => (e.zero >>> 8).toUInt8
  | 14 => (e.zero >>> 16).toUInt8
  | _ => (e.zero >>> 24).toUInt8

/-- `idt[256]` -/
abbrev Table := UInt8 → IdtEntry

/-- The addresses of the stubs of `isr.asm`. -/
structure Stubs where
  isr0 : UInt64
  isr6 : UInt64
  isr8 : UInt64
  isr13 : UInt64
  isr14 : UInt64
  irq0 : UInt64
  irq1 : UInt64
deriving DecidableEq, Repr

/-- `struct idt_ptr` -/
structure IdtPtr where
  limit : UInt16
  base : UInt64
deriving DecidableEq, Repr

/-! ## The functions -/

def idt_set_entry (n : UInt8) (handler : UInt64) (idt : Table) : Table :=
  let addr := handler
  Function.update idt n
    { offset_low := (addr &&& 0xFFFF).toUInt16
      offset_mid := ((addr >>> 16) &&& 0xFFFF).toUInt16
      offset_high := ((addr >>> 32) &&& 0xFFFFFFFF).toUInt32
      selector := 0x08
      ist := 0
      type_attr := 0x8E
      zero := 0 }

/-- `for (int i = 0; i < 256; i++)` -/
def clear (idt : Table) : Table :=
  (List.range 256).foldl (fun idt i => Function.update idt (UInt8.ofNat i) ⟨0, 0, 0, 0, 0, 0, 0⟩) idt

/-- The table, and what `lidt` loads for a table at this address. -/
def idt_init (stubs : Stubs) (address : UInt64) (idt : Table) : Table × IdtPtr :=
  let reg : IdtPtr := { limit := 256 * 16 - 1, base := address }
  let idt := clear idt
  let idt := idt_set_entry 0 stubs.isr0 idt
  let idt := idt_set_entry 6 stubs.isr6 idt
  let idt := idt_set_entry 8 stubs.isr8 idt
  let idt := idt_set_entry 13 stubs.isr13 idt
  let idt := idt_set_entry 14 stubs.isr14 idt
  let idt := idt_set_entry 32 stubs.irq0 idt
  let idt := idt_set_entry 33 stubs.irq1 idt
  (idt, reg)

/-! ## The processor -/

/-- A gate as the processor takes it. -/
structure Gate where
  offset : UInt64
  selector : UInt16
  ist : UInt8
deriving DecidableEq, Repr

/-- A number of bytes, the lowest first. -/
def number : List UInt8 → Nat
  | [] => 0
  | b :: bs => b.toNat + 256 * number bs

/-- The gate of a vector: present, and an interrupt gate of 64 bits. -/
def IdtPtr.gate (r : IdtPtr) (mem : UInt64 → UInt8) (n : UInt8) : Option Gate :=
  let byte (k : Nat) : UInt8 := mem (r.base + UInt64.ofNat (16 * n.toNat + k))
  if 16 * n.toNat + 15 ≤ r.limit.toNat ∧ byte 5 &&& 0x9F = 0x8E then
    some
      { offset := UInt64.ofNat (number [byte 0, byte 1, byte 6, byte 7, byte 8, byte 9, byte 10, byte 11])
        selector := UInt16.ofNat (number [byte 2, byte 3])
        ist := byte 4 &&& 7 }
  else none

/-- The table lies in memory at this address. -/
def Lies (mem : UInt64 → UInt8) (address : UInt64) (idt : Table) : Prop :=
  ∀ n k, k < 16 → mem (address + UInt64.ofNat (16 * n.toNat + k)) = (idt n).byte k

/-- The stub that a vector is to reach. -/
def Stubs.handler (stubs : Stubs) (n : UInt8) : Option UInt64 :=
  if n = 0 then some stubs.isr0
  else if n = 6 then some stubs.isr6
  else if n = 8 then some stubs.isr8
  else if n = 13 then some stubs.isr13
  else if n = 14 then some stubs.isr14
  else if n = 32 then some stubs.irq0
  else if n = 33 then some stubs.irq1
  else none

/-! ## The entries -/

section
variable {idt : Table} {n m : UInt8} {h : UInt64}

/-- After the loop every entry up to its counter is zero. -/
theorem clear_loop (k : Nat) (idt : Table) (n : UInt8) (below : n.toNat < k) :
    (List.range k).foldl (fun idt i => Function.update idt (UInt8.ofNat i) ⟨0, 0, 0, 0, 0, 0, 0⟩) idt n = ⟨0, 0, 0, 0, 0, 0, 0⟩ := by
  induction k with
  | zero => exact absurd below (Nat.not_lt_zero _)
  | succ k ih =>
    rw [List.range_succ, List.foldl_append, List.foldl_cons, List.foldl_nil]
    by_cases last : n = UInt8.ofNat k
    · rw [last, Function.update_self]
    · have other : n.toNat ≠ k := by
        rintro rfl
        exact last (UInt8.ofNat_toNat).symm
      rw [Function.update_of_ne last, ih (by omega)]

theorem clear_ok (idt : Table) (n : UInt8) : clear idt n = ⟨0, 0, 0, 0, 0, 0, 0⟩ := clear_loop 256 idt n n.toNat_lt

theorem idt_set_entry_other (idt : Table) (h : UInt64) (other : m ≠ n) : idt_set_entry n h idt m = idt m := Function.update_of_ne other _ _

theorem low_byte (x : UInt16) : x.toUInt8.toNat = x.toNat % 256 := UInt16.toNat_toUInt8 x

theorem high_byte (x : UInt16) : (x >>> 8).toUInt8.toNat = x.toNat / 256 := by
  have := x.toNat_lt
  have shift : (8 : UInt16).toNat % 16 = 8 := by decide
  rw [UInt16.toNat_toUInt8, UInt16.toNat_shiftRight, shift, Nat.shiftRight_eq_div_pow]
  omega

theorem byte_of_32 (x s : UInt32) {k : Nat} (shift : s.toNat % 32 = k) : (x >>> s).toUInt8.toNat = x.toNat / 2 ^ k % 256 := by
  rw [UInt32.toNat_toUInt8, UInt32.toNat_shiftRight, shift, Nat.shiftRight_eq_div_pow]

/-- The handler's address, put together again. -/
theorem number_offset (h : UInt64) (idt : Table) (n : UInt8) :
    UInt64.ofNat (number ([0, 1, 6, 7, 8, 9, 10, 11].map (idt_set_entry n h idt n).byte)) = h := by
  have bound := h.toNat_lt
  have low : (h &&& 0xFFFF).toUInt16.toNat = h.toNat % 2 ^ 16 := by
    rw [UInt64.toNat_toUInt16, Words.and_low h 0xFFFF (k := 16) (by decide), Nat.mod_mod]
  have mid : ((h >>> 16) &&& 0xFFFF).toUInt16.toNat = h.toNat / 2 ^ 16 % 2 ^ 16 := by
    rw [UInt64.toNat_toUInt16, Words.shift_mask h 16 0xFFFF (k := 16) (w := 16) (by decide) (by decide), Nat.mod_mod]
  have high : ((h >>> 32) &&& 0xFFFFFFFF).toUInt32.toNat = h.toNat / 2 ^ 32 := by
    rw [UInt64.toNat_toUInt32, Words.shift_mask h 32 0xFFFFFFFF (k := 32) (w := 32) (by decide) (by decide)]
    omega
  apply UInt64.toNat_inj.mp
  simp only [idt_set_entry, Function.update_self, List.map_cons, List.map_nil, IdtEntry.byte, number]
  rw [low_byte, high_byte, low_byte, high_byte, low, mid, UInt32.toNat_toUInt8, byte_of_32 _ 8 (k := 8) (by decide),
    byte_of_32 _ 16 (k := 16) (by decide), byte_of_32 _ 24 (k := 24) (by decide), high, UInt64.toNat_ofNat']
  omega

variable {mem : UInt64 → UInt8} {address : UInt64} {limit : UInt16}

/-- A vector that was set has its gate. -/
theorem gate_set (lies : Lies mem address idt) (here : idt n = idt_set_entry n h idt n) :
    IdtPtr.gate ⟨256 * 16 - 1, address⟩ mem n = some ⟨h, 0x08, 0⟩ := by
  have small := n.toNat_lt
  have inside : 16 * n.toNat + 15 ≤ (256 * 16 - 1 : UInt16).toNat := by
    have size : (256 * 16 - 1 : UInt16).toNat = 4095 := by decide
    omega
  have byte (k : Nat) (within : k < 16) : mem (address + UInt64.ofNat (16 * n.toNat + k)) = (idt_set_entry n h idt n).byte k := by
    rw [← here]
    exact lies n k within
  have offset := number_offset h idt n
  simp only [List.map_cons, List.map_nil] at offset
  simp only [IdtPtr.gate]
  rw [byte 0 (by decide), byte 1 (by decide), byte 2 (by decide), byte 3 (by decide), byte 4 (by decide), byte 5 (by decide),
    byte 6 (by decide), byte 7 (by decide), byte 8 (by decide), byte 9 (by decide), byte 10 (by decide), byte 11 (by decide), offset]
  have kind : (idt_set_entry n h idt n).byte 5 &&& 0x9F = 0x8E := by
    have type : (0x8E : UInt8) &&& 0x9F = 0x8E := by decide
    rw [idt_set_entry, Function.update_self]
    exact type
  rw [if_pos ⟨inside, kind⟩]
  simp [idt_set_entry, IdtEntry.byte, number]

/-- A vector whose entry is zero has none. -/
theorem gate_cleared (lies : Lies mem address idt) (here : idt n = ⟨0, 0, 0, 0, 0, 0, 0⟩) : IdtPtr.gate ⟨limit, address⟩ mem n = none := by
  have kind := lies n 5 (by decide)
  rw [here] at kind
  simp only [IdtPtr.gate]
  rw [kind, if_neg]
  rintro ⟨_, impossible⟩
  exact absurd impossible (by decide)

/-- The vectors that `idt_init` sets. -/
theorem idt_init_entry (stubs : Stubs) (address : UInt64) (idt : Table) (n : UInt8) :
    (idt_init stubs address idt).1 n = match stubs.handler n with
      | some h => idt_set_entry n h (idt_init stubs address idt).1 n
      | none => ⟨0, 0, 0, 0, 0, 0, 0⟩ := by
  have set (m : UInt8) (h : UInt64) (first second : Table) : idt_set_entry m h first m = idt_set_entry m h second m := by
    rw [idt_set_entry, idt_set_entry, Function.update_self, Function.update_self]
  -- the last entry that was set first
  simp only [idt_init, Stubs.handler]
  by_cases irq1 : n = 33
  · subst irq1
    exact set 33 _ _ _
  rw [idt_set_entry_other _ _ irq1]
  by_cases irq0 : n = 32
  · subst irq0
    exact set 32 _ _ _
  rw [idt_set_entry_other _ _ irq0]
  by_cases isr14 : n = 14
  · subst isr14
    exact set 14 _ _ _
  rw [idt_set_entry_other _ _ isr14]
  by_cases isr13 : n = 13
  · subst isr13
    exact set 13 _ _ _
  rw [idt_set_entry_other _ _ isr13]
  by_cases isr8 : n = 8
  · subst isr8
    exact set 8 _ _ _
  rw [idt_set_entry_other _ _ isr8]
  by_cases isr6 : n = 6
  · subst isr6
    exact set 6 _ _ _
  rw [idt_set_entry_other _ _ isr6]
  by_cases isr0 : n = 0
  · subst isr0
    exact set 0 _ _ _
  rw [idt_set_entry_other _ _ isr0, clear_ok]
  simp only [if_neg irq1, if_neg irq0, if_neg isr14, if_neg isr13, if_neg isr8, if_neg isr6, if_neg isr0]

end

/-- After `idt_init`, whatever the table held, the processor finds a gate to the stub of each
    of the seven vectors, in the kernel's code segment and on the same stack, and no other
    vector has a gate. -/
theorem idt_dispatches (stubs : Stubs) (address : UInt64) (idt : Table) (mem : UInt64 → UInt8)
    (lies : Lies mem address (idt_init stubs address idt).1) (n : UInt8) :
    (idt_init stubs address idt).2.gate mem n = (stubs.handler n).map fun h => ⟨h, 0x08, 0⟩ := by
  have entry := idt_init_entry stubs address idt n
  cases here : stubs.handler n with
  | some h =>
    rw [here] at entry
    exact gate_set lies entry
  | none =>
    rw [here] at entry
    exact gate_cleared lies entry

/-- Stubs one after the other in the first MiB of the kernel. -/
def smallStubs : Stubs :=
  ⟨0xFFFFFFFF80101000, 0xFFFFFFFF80101009, 0xFFFFFFFF80101012, 0xFFFFFFFF80101019, 0xFFFFFFFF80101020, 0xFFFFFFFF80101027,
    0xFFFFFFFF80101030⟩

/-- Memory with the table of `idt_init` from address 0 on. -/
def smallMemory (a : UInt64) : UInt8 :=
  ((idt_init smallStubs 0 fun _ => ⟨0, 0, 0, 0, 0, 0, 0⟩).1 (UInt8.ofNat (a.toNat / 16))).byte (a.toNat % 16)

/-- The table lies there. -/
theorem lies_small : Lies smallMemory 0 (idt_init smallStubs 0 fun _ => ⟨0, 0, 0, 0, 0, 0, 0⟩).1 := by
  intro n k inside
  have small := n.toNat_lt
  have place : (0 + UInt64.ofNat (16 * n.toNat + k)).toNat = 16 * n.toNat + k := by
    rw [UInt64.zero_add, UInt64.toNat_ofNat_of_lt' (by norm_num; omega)]
  have entry : (16 * n.toNat + k) / 16 = n.toNat := by omega
  have offset : (16 * n.toNat + k) % 16 = k := by omega
  rw [smallMemory, place, entry, offset, UInt8.ofNat_toNat]

theorem idt_dispatches_small :
    (idt_init smallStubs 0 fun _ => ⟨0, 0, 0, 0, 0, 0, 0⟩).2.gate smallMemory 14 = some ⟨0xFFFFFFFF80101020, 0x08, 0⟩ ∧
    (idt_init smallStubs 0 fun _ => ⟨0, 0, 0, 0, 0, 0, 0⟩).2.gate smallMemory 3 = none :=
  ⟨idt_dispatches smallStubs 0 _ smallMemory lies_small 14, idt_dispatches smallStubs 0 _ smallMemory lies_small 3⟩

end Extron.Idt
