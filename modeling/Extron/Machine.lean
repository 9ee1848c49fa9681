import Extron.Library.RadixTree
import Extron.Library.ByteBitmap
import Extron.Library.Outcomes

/-!
The machine state that the memory manager works on: the globals of `pmm.c`,
`paging.c` and `vmm.c`, and the memory they reach. The bytes of the multiboot2
block and of the frame bitmap, the words of the page-table frames, and the bytes
of the heap bitmap are three stores. Kernel functions are computations that
change this state and either return or halt.
-/
namespace Extron
open Extron.RadixTree

def PAGE_SIZE : UInt64 := 4096
def ONE_GIB : UInt64 := 0x40000000
def KERNEL_VMA : UInt64 := 0xFFFFFFFF80000000
def NEW_HDDM : UInt64 := 0xFFFF800000000000
def VMM_BITMAP_VIRT_START : UInt64 := 0xFFFFBF0000000000
def KERNEL_HEAP_START : UInt64 := 0xFFFFC00000000000
def KERNEL_HEAP_SIZE : UInt64 := 128 * 1024 * 1024 * 1024
def KERNEL_HEAP_BITMAP_SIZE : UInt64 := ((KERNEL_HEAP_SIZE / PAGE_SIZE) + 7) / 8
def KERNEL_STACK_RANGE_START : UInt64 := 0xFFFFD00000000000
def KERNEL_STACK_SIZE : UInt64 := 4 * 1024 * 1024
def KERNEL_STACK_GUARD : UInt64 := 4096

@[simp] theorem toNat_PAGE_SIZE : PAGE_SIZE.toNat = 4096 := rfl
@[simp] theorem toNat_ONE_GIB : ONE_GIB.toNat = 2 ^ 30 := rfl
@[simp] theorem toNat_KERNEL_VMA : KERNEL_VMA.toNat = 2 ^ 64 - 2 ^ 31 := rfl
@[simp] theorem toNat_NEW_HDDM : NEW_HDDM.toNat = 2 ^ 64 - 2 ^ 47 := rfl
@[simp] theorem toNat_VMM_BITMAP_VIRT_START : VMM_BITMAP_VIRT_START.toNat = 0xFFFFBF0000000000 := rfl
@[simp] theorem toNat_KERNEL_HEAP_START : KERNEL_HEAP_START.toNat = 0xFFFFC00000000000 := rfl
@[simp] theorem toNat_KERNEL_HEAP_SIZE : KERNEL_HEAP_SIZE.toNat = 2 ^ 37 := rfl
@[simp] theorem toNat_KERNEL_HEAP_BITMAP_SIZE : KERNEL_HEAP_BITMAP_SIZE.toNat = 2 ^ 22 := rfl
@[simp] theorem toNat_KERNEL_STACK_SIZE : KERNEL_STACK_SIZE.toNat = 2 ^ 22 := rfl

/-- A page table has 512 words. -/
instance neZero_words : NeZero 512 := ⟨by decide⟩

/-- The calls of `panic`, with the arguments that they print. -/
inductive Panic
  /-- `"GRUB Loaded its data at : %lx > %lx"` -/
  | grubAboveGib (mb2_addr : UInt64)
  /-- `"Bitmap Allocation Exceeds 1GB initially mapped memory"` -/
  | bitmapAboveGib
  /-- `"PMM: Out of memory!"` -/
  | outOfMemory
  /-- `"PMM: Tried to free an unaligned address: 0x%lx"` -/
  | unalignedFree (addr : UInt64)
  /-- `"PMM: Double free or freeing unallocated page at 0x%lx"` -/
  | doubleFree (addr : UInt64)
  /-- `"Paging: ELF sections not found"` -/
  | elfNotFound
  /-- `"Kernel ELF mapping failed for virt %p (res: %d)"` -/
  | elfMapping (v : UInt64) (res : Int32)
  /-- `"Page table alloc failed"` -/
  | tableAlloc
  /-- `"HHDM mapping failed"` -/
  | hhdmMapping
  /-- `"VMM: bitmap alloc fail"` -/
  | bitmapAlloc
  /-- `"VMM: out of physical memory"` -/
  | heapFrame
  /-- `"VMM: kmap failed"` -/
  | kmapFailed
  /-- `"VMM: kernel heap exhausted"` -/
  | heapExhausted
  /-- `"VMM: Tried to free virtual address that was never mapped: %p\n"` -/
  | neverMapped (addr : UInt64)
  /-- `"VMM: stack alloc fail"` -/
  | stackAlloc
  /-- `"VMM: stack map fail"` -/
  | stackMap
deriving DecidableEq, Repr

/-- Why the kernel stopped. -/
inductive Halt
  /-- `panic` halts the machine. -/
  | panic (call : Panic)
  /-- A page fault on a virtual address that no present entry maps. -/
  | fault (addr : UInt64)
  /-- A loop that does not end. -/
  | spin
deriving DecidableEq, Repr

/-- What the processor and the callers of `paging.c` can observe, in order. -/
inductive Event
  /-- Every word of a page-table frame is set to zero. -/
  | zero (table : UInt64)
  /-- A word of a page-table frame is written. -/
  | store (table : UInt64) (index : Fin 512) (word : UInt64)
  /-- `invlpg` -/
  | invlpg (virt : UInt64)
  /-- A write to CR3. -/
  | cr3 (phys : UInt64)
  /-- `map_page` returns. -/
  | mapped (pml4 virt : UInt64) (res : Int32)
  /-- `unmap_page` returns. -/
  | unmapped (pml4 virt : UInt64) (res : Int32)
  /-- `vmm_free_pages` calls `pmm_free_page`. -/
  | freeing (phys : UInt64)
deriving DecidableEq, Repr

structure State where
  /-- Physical memory by byte: the multiboot2 block and the frame bitmap. -/
  mem : UInt64 → UInt8
  /-- Physical memory by frame: the 512 words of each page table. -/
  frames : UInt64 → Fin 512 → UInt64
  /-- `global_phys_mem_info.bmp_phys`, a pointer to the frame bitmap. -/
  bmp_phys : UInt64
  /-- `global_phys_mem_info.total_mem` -/
  total_mem : UInt64
  g_hhdm_offset : UInt64
  kernel_pml4 : UInt64
  /-- The bytes from `VMM_BITMAP_VIRT_START` on. -/
  vmm_bitmap : UInt64 → UInt8
  last_allocated_index : UInt64
  /-- The events so far, the latest first. -/
  journal : List Event

/-- A kernel function. -/
abbrev Kernel := EStateM Halt State

def panic {α : Type} (call : Panic) : Kernel α := throw (.panic call)

@[simp] theorem run_panic {α : Type} (call : Panic) (s : State) :
    (panic call : Kernel α) s = .error (.panic call) s := rfl

@[simp] theorem panic_bind {α β : Type} (call : Panic) (f : α → Kernel β) (s : State) :
    (panic call >>= f) s = .error (.panic call) s := rfl

def record (event : Event) : Kernel Unit := modify fun s => { s with journal := event :: s.journal }

/-- The byte at a pointer into the window that `phys_to_virt` opens on physical memory. -/
def State.byte (s : State) (va : UInt64) : UInt8 := s.mem (va - s.g_hhdm_offset)

/-- Writes the byte at such a pointer. -/
def State.setByte (s : State) (va : UInt64) (b : UInt8) : State :=
  { s with mem := Function.update s.mem (va - s.g_hhdm_offset) b }

/-- The 32-bit word at a pointer, lowest byte first. -/
def State.read32 (s : State) (va : UInt64) : UInt32 :=
  (s.byte va).toUInt32 ||| (s.byte (va + 1)).toUInt32 <<< 8 |||
    (s.byte (va + 2)).toUInt32 <<< 16 ||| (s.byte (va + 3)).toUInt32 <<< 24

/-- The 64-bit word at a pointer, lowest byte first. -/
def State.read64 (s : State) (va : UInt64) : UInt64 :=
  (s.read32 va).toUInt64 ||| (s.read32 (va + 4)).toUInt64 <<< 32

/-- Dereferencing a frame through `phys_to_virt`. Until `g_hhdm_offset` is set the
    page tables of `boot.asm` are in use, which map only the first GiB. -/
def deref (p : UInt64) : Kernel Unit := fun s =>
  if s.g_hhdm_offset = 0 ∧ ONE_GIB ≤ p then .error (.fault p) s else .ok () s

def align_up (x a : UInt64) : UInt64 := (x + a - 1) &&& ~~~(a - 1)
def align_down (x a : UInt64) : UInt64 := x &&& ~~~(a - 1)

theorem toNat_align_down (x : UInt64) : (align_down x PAGE_SIZE).toNat = x.toNat / 4096 * 4096 := by
  have mask : (PAGE_SIZE - 1).toNat = 2 ^ 12 - 1 := by decide
  rw [align_down, Words.and_not_low x _ (by decide) mask]
  norm_num

theorem toNat_align_up (x : UInt64) (room : x.toNat + 4095 < 2 ^ 64) :
    (align_up x PAGE_SIZE).toNat = (x.toNat + 4095) / 4096 * 4096 := by
  have mask : (PAGE_SIZE - 1).toNat = 2 ^ 12 - 1 := by decide
  have sum : (x + PAGE_SIZE - 1).toNat = x.toNat + 4095 := by
    simp only [UInt64.toNat_sub, UInt64.toNat_add, toNat_PAGE_SIZE, UInt64.toNat_one]
    omega
  rw [align_up, Words.and_not_low _ _ (by decide) mask, sum]
  norm_num

end Extron
