import Extron.PageTables

/-!
`vmm.c`: the kernel heap, whose pages are handed out by a bitmap that lies in
virtual memory, and the kernel stack. A byte of the bitmap can be touched only
while its page is mapped. `kernel_stage1` is the part of the boot that sets up
memory.
-/
namespace Extron.Vmm
open Extron.Multiboot Extron.Pmm Extron.Paging Extron.Outcomes
set_option linter.unusedSimpArgs false

/-! ## The heap bitmap -/

/-- The page fault of `vmm_bitmap[k]` when its page is not mapped. -/
def touch (k : UInt64) : Kernel Unit := fun s =>
  if (leaf s.kernel_pml4 s (pageOf (VMM_BITMAP_VIRT_START + k))).isSome then .ok () s
  else .error (.fault (VMM_BITMAP_VIRT_START + k)) s

/-- `vmm_bitmap[k] = b` -/
def setByte (k : UInt64) (b : UInt8) (s : State) : State := { s with vmm_bitmap := Function.update s.vmm_bitmap k b }

def bitmap_set (i : UInt64) : Kernel Unit := do
  touch (i >>> 3)
  modify fun s => setByte (i >>> 3) (s.vmm_bitmap (i >>> 3) ||| (1 <<< (i &&& 7).toUInt8)) s

def bitmap_clear (i : UInt64) : Kernel Unit := do
  touch (i >>> 3)
  modify fun s => setByte (i >>> 3) (s.vmm_bitmap (i >>> 3) &&& ~~~(1 <<< (i &&& 7).toUInt8)) s

def bitmap_test (i : UInt64) : Kernel UInt8 := do
  touch (i >>> 3)
  let s ← get
  return s.vmm_bitmap (i >>> 3) &&& (1 <<< (i &&& 7).toUInt8)

/-! ## Pages with frames of their own -/

/-- Takes a frame and maps it: the body of three loops, which differ in their panics and
    in whether they look at the result of `kmap`. -/
def fill_page (v : UInt64) (noFrame : Panic) (notMapped : Option Panic) : Kernel Unit := do
  let p ← pmm_alloc_page
  if p = 0 then
    panic noFrame
  let res ← kmap v p (PAGE_PRESENT ||| PAGE_WRITE)
  match notMapped with
  | some call => if res ≠ 0 then panic call
  | none => return

def vmm_init : Kernel Unit := do
  let pages := (KERNEL_HEAP_BITMAP_SIZE + PAGE_SIZE - 1) / PAGE_SIZE
  times map_page 0 pages.toNat
  times clear_byte 0 KERNEL_HEAP_BITMAP_SIZE.toNat
where
  map_page (i : Nat) : Kernel Unit :=
    fill_page (VMM_BITMAP_VIRT_START + UInt64.ofNat i * PAGE_SIZE) .bitmapAlloc none
  clear_byte (i : Nat) : Kernel Unit := do
    touch (UInt64.ofNat i)
    modify (setByte (UInt64.ofNat i) 0)

def vmm_alloc_pages (n : UInt64) : Kernel UInt64 := do
  let total := KERNEL_HEAP_SIZE / PAGE_SIZE
  let s ← get
  let last := s.last_allocated_index
  match ← search (Words.distance last total) last 0 0 with
  | some start => take start
  | none =>
    match ← search last.toNat 0 0 0 with
    | some start => take start
    | none => panic .heapExhausted
where
  /-- One pass: the start of the first `n` clear bits in a row, where `found` bits up to
      `i` have been clear. -/
  search : Nat → UInt64 → UInt64 → UInt64 → Kernel (Option UInt64)
    | 0, _, _, _ => return none
    | rounds + 1, i, found, start => do
      if (← bitmap_test i) = 0 then
        let start := if found = 0 then i else start
        if found + 1 = n then
          return some start
        search rounds (i + 1) (found + 1) start
      else
        search rounds (i + 1) 0 start
  take (start : UInt64) : Kernel UInt64 := do
    times (take_page start) 0 n.toNat
    modify fun s => { s with last_allocated_index := start + n }
    return KERNEL_HEAP_START + start * PAGE_SIZE
  take_page (start : UInt64) (j : Nat) : Kernel Unit := do
    let idx := start + UInt64.ofNat j
    fill_page (KERNEL_HEAP_START + idx * PAGE_SIZE) .heapFrame (some .kmapFailed)
    bitmap_set idx

def vmm_free_pages (v n : UInt64) : Kernel Int32 := do
  if v < KERNEL_HEAP_START ∨ v + n * PAGE_SIZE > KERNEL_HEAP_START + KERNEL_HEAP_SIZE then
    return -1
  let start := (v - KERNEL_HEAP_START) / PAGE_SIZE
  times (free_page start) 0 n.toNat
  return 0
where
  free_page (start : UInt64) (i : Nat) : Kernel Unit := do
    free_frame (v + UInt64.ofNat i * PAGE_SIZE)
    bitmap_clear (start + UInt64.ofNat i)
  free_frame (addr : UInt64) : Kernel Unit := do
    let p ← kvirt_to_phys addr
    if p ≠ 0 then
      let _ ← kunmap addr
      record (.freeing p)
      pmm_free_page p
    else
      panic (.neverMapped addr)

def vmm_setup_stack : Kernel UInt64 := do
  let base := KERNEL_STACK_RANGE_START + KERNEL_STACK_GUARD
  for_pages (fun i => fill_page (base + i) .stackAlloc (some .stackMap)) KERNEL_STACK_SIZE addresses 0
  return base + KERNEL_STACK_SIZE

/-- The memory setup of `kernel_stage1`; its result is the top of the new stack. -/
def kernel_stage1 (image : Image) (mb2_addr : UInt64) : Kernel UInt64 := do
  init_pmm image mb2_addr
  init_paging mb2_addr
  vmm_init
  vmm_setup_stack

/-! ## Calls -/

/-- A call on the heap: at least one page to allocate, or a page-aligned range of the heap to free. -/
inductive HeapCall
  | vmm_alloc_pages (n : UInt64) (some : n ≠ 0)
  | vmm_free_pages (v n : UInt64) (aligned : v.toNat % 4096 = 0)
      (inside : Set.Ico v.toNat (v.toNat + 4096 * n.toNat) ⊆
        Set.Ico KERNEL_HEAP_START.toNat (KERNEL_HEAP_START.toNat + KERNEL_HEAP_SIZE.toNat))

def HeapCall.run : HeapCall → Kernel Unit
  | .vmm_alloc_pages n _ => do let _ ← Vmm.vmm_alloc_pages n
  | .vmm_free_pages v n _ _ => do let _ ← Vmm.vmm_free_pages v n

/-- Calls one after the other. -/
def runs : List HeapCall → Kernel Unit
  | [] => return
  | call :: rest => do
    call.run
    runs rest

theorem quiet_touch (k : UInt64) : Quiet (touch k) := by
  rintro s _ rfl
  rw [touch]
  split
  · exact rfl
  · exact rfl

/-! ## Bits -/

/-- Bit `i` of the heap bitmap is set. -/
def Taken (s : State) (i : UInt64) : Prop := s.vmm_bitmap (i >>> 3) &&& (1 <<< (i &&& 7).toUInt8) ≠ 0

instance (s : State) (i : UInt64) : Decidable (Taken s i) := inferInstanceAs (Decidable (_ ≠ _))

theorem bitmap_place (i : UInt64) : UInt64.ofNat (i.toNat / 8) = i >>> 3 := by
  apply UInt64.toNat_inj.mp
  have := i.toNat_lt
  rw [UInt64.toNat_ofNat', UInt64.toNat_shiftRight]
  simp [Nat.shiftRight_eq_div_pow]
  omega

theorem bitmap_position (i : UInt64) : ((i &&& 7).toUInt8).toNat = i.toNat % 8 := by
  have low : (i &&& 7).toNat = i.toNat % 2 ^ 3 := Words.and_low i 7 (by decide)
  rw [UInt64.toNat_toUInt8, low]
  omega

theorem bitmap_apart (i j : UInt64) : ByteBitmap.Apart UInt64.ofNat i.toNat j.toNat := by
  intro same
  have value := congrArg UInt64.toNat same
  have := i.toNat_lt
  have := j.toNat_lt
  rw [UInt64.toNat_ofNat', UInt64.toNat_ofNat'] at value
  omega

theorem taken_iff_bit (s : State) (i : UInt64) : Taken s i ↔ ByteBitmap.Bit s.vmm_bitmap UInt64.ofNat i.toNat := by
  rw [← ByteBitmap.bit_test (bitmap_position i), bitmap_place]
  rfl

/-- The state once bit `i` is set. -/
def taken (i : UInt64) (s : State) : State := setByte (i >>> 3) (s.vmm_bitmap (i >>> 3) ||| (1 <<< (i &&& 7).toUInt8)) s

/-- The state once bit `i` is cleared. -/
def untaken (i : UInt64) (s : State) : State := setByte (i >>> 3) (s.vmm_bitmap (i >>> 3) &&& ~~~(1 <<< (i &&& 7).toUInt8)) s

theorem taken_set (s : State) (i j : UInt64) : Taken (taken i s) j ↔ j = i ∨ Taken s j := by
  have changed := ByteBitmap.bit_set (M := s.vmm_bitmap) (bitmap_position i) (bitmap_apart i j)
  rw [UInt64.toNat_inj, ← taken_iff_bit, bitmap_place] at changed
  rw [← changed, taken_iff_bit]
  rfl

theorem taken_clear (s : State) (i j : UInt64) : Taken (untaken i s) j ↔ j ≠ i ∧ Taken s j := by
  have changed := ByteBitmap.bit_clear (M := s.vmm_bitmap) (bitmap_position i) (bitmap_apart i j)
  rw [ne_eq, UInt64.toNat_inj, ← taken_iff_bit, bitmap_place] at changed
  rw [ne_eq, ← changed, taken_iff_bit]
  rfl

end Extron.Vmm
