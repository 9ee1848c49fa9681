import Extron.KernelMap
import Extron.Vmm

/-!
The virtual memory layout of `vmm.h` by page number. The pages of the heap bitmap,
of the heap and of the stack are three intervals that lie in slots of the root of
their own, apart from each other and from the pages that `init_paging` maps.
-/
namespace Extron.Regions
open Extron.Multiboot Extron.Pmm Extron.Paging Extron.KernelMap
set_option linter.unusedSimpArgs false

/-- The pages of a region that starts at a page boundary. -/
def region (first bytes : UInt64) : Set Nat := Set.Ico (pageOf first) (pageOf first + bytes.toNat / 4096)

def bitmapPages : Set Nat := region VMM_BITMAP_VIRT_START KERNEL_HEAP_BITMAP_SIZE
def heapPages : Set Nat := region KERNEL_HEAP_START KERNEL_HEAP_SIZE
def stackPages : Set Nat := region (KERNEL_STACK_RANGE_START + KERNEL_STACK_GUARD) KERNEL_STACK_SIZE

/-- The pages that get frames of their own. -/
def ownPages : Set Nat := bitmapPages ∪ heapPages ∪ stackPages

def bitmapPage (i : Nat) : Nat := 0xBF0000000 + i
def heapPage (i : Nat) : Nat := 0xC00000000 + i
def stackPage (i : Nat) : Nat := 0xD00000001 + i

theorem mem_bitmapPages {n : Nat} : n ∈ bitmapPages ↔ 0xBF0000000 ≤ n ∧ n < 0xBF0000000 + 2 ^ 10 := Iff.rfl
theorem mem_heapPages {n : Nat} : n ∈ heapPages ↔ 0xC00000000 ≤ n ∧ n < 0xC00000000 + 2 ^ 25 := Iff.rfl
theorem mem_stackPages {n : Nat} : n ∈ stackPages ↔ 0xD00000001 ≤ n ∧ n < 0xD00000001 + 2 ^ 10 := Iff.rfl

theorem mem_heapPages_iff {n : Nat} : n ∈ heapPages ↔ ∃ i : UInt64, i.toNat < 2 ^ 25 ∧ n = heapPage i.toNat := by
  rw [mem_heapPages]
  constructor
  · intro inside
    have index : (UInt64.ofNat (n - 0xC00000000)).toNat = n - 0xC00000000 := by
      rw [UInt64.toNat_ofNat']
      omega
    exact ⟨UInt64.ofNat (n - 0xC00000000), by omega, by rw [index, heapPage]; omega⟩
  · rintro ⟨i, small, rfl⟩
    rw [heapPage]
    omega

/-- A page of a region lies at a byte of the region, and the other way round. -/
theorem mem_region {first bytes v : UInt64} (high : 2 ^ 64 - 2 ^ 47 ≤ first.toNat) (aligned : first.toNat % 4096 = 0)
    (whole : bytes.toNat % 4096 = 0) (room : first.toNat + bytes.toNat ≤ 2 ^ 64) (canonical : Canonical v) :
    pageOf v ∈ region first bytes ↔ first.toNat ≤ v.toNat ∧ v.toNat < first.toNat + bytes.toNat := by
  obtain ⟨edge, half⟩ := canonical
  have small := v.toNat_lt
  rw [region, Set.mem_Ico, pageOf, pageOf]
  omega

theorem pageOf_add (first : UInt64) {v : UInt64} {i : Nat} (high : 2 ^ 64 - 2 ^ 47 ≤ first.toNat) (aligned : first.toNat % 4096 = 0)
    (value : v.toNat = first.toNat + 4096 * i) : pageOf v = pageOf first + i := by
  have small := v.toNat_lt
  rw [pageOf, pageOf]
  omega

theorem toNat_add_pages {first : UInt64} {i : UInt64} (room : first.toNat + 4096 * i.toNat < 2 ^ 64) :
    (first + i * PAGE_SIZE).toNat = first.toNat + 4096 * i.toNat := by
  rw [UInt64.toNat_add, UInt64.toNat_mul, toNat_PAGE_SIZE]
  omega

theorem bitmap_address {i : Nat} (inside : i < 2 ^ 10) :
    pageOf (VMM_BITMAP_VIRT_START + UInt64.ofNat i * PAGE_SIZE) = bitmapPage i := by
  have index : (UInt64.ofNat i).toNat = i := by
    rw [UInt64.toNat_ofNat']
    omega
  rw [pageOf_add VMM_BITMAP_VIRT_START (i := i) (by simp) (by simp)]
  · rfl
  · rw [toNat_add_pages]
    · rw [index]
    · rw [index, toNat_VMM_BITMAP_VIRT_START]
      omega

theorem heap_address {i : UInt64} (inside : i.toNat < 2 ^ 25) :
    (KERNEL_HEAP_START + i * PAGE_SIZE).toNat = KERNEL_HEAP_START.toNat + 4096 * i.toNat ∧
      pageOf (KERNEL_HEAP_START + i * PAGE_SIZE) = heapPage i.toNat := by
  have value : (KERNEL_HEAP_START + i * PAGE_SIZE).toNat = KERNEL_HEAP_START.toNat + 4096 * i.toNat := by
    rw [toNat_add_pages]
    rw [toNat_KERNEL_HEAP_START]
    omega
  refine ⟨value, ?_⟩
  rw [pageOf_add KERNEL_HEAP_START (by simp) (by simp) value]
  rfl

theorem stack_address {i : UInt64} (inside : i < KERNEL_STACK_SIZE) (aligned : i.toNat % 4096 = 0) :
    pageOf (KERNEL_STACK_RANGE_START + KERNEL_STACK_GUARD + i) = stackPage (i.toNat / 4096) := by
  have base : (KERNEL_STACK_RANGE_START + KERNEL_STACK_GUARD).toNat = 0xFFFFD00000001000 := rfl
  rw [UInt64.lt_iff_toNat_lt, toNat_KERNEL_STACK_SIZE] at inside
  rw [pageOf_add (KERNEL_STACK_RANGE_START + KERNEL_STACK_GUARD) (i := i.toNat / 4096) (by simp [base])
    (by simp [base])]
  · rfl
  · rw [UInt64.toNat_add, base]
    omega

/-- A byte of the heap bitmap lies in a page of the bitmap. -/
theorem byte_address {k : UInt64} (inside : k.toNat < 2 ^ 22) : pageOf (VMM_BITMAP_VIRT_START + k) ∈ bitmapPages := by
  have value : (VMM_BITMAP_VIRT_START + k).toNat = 0xFFFFBF0000000000 + k.toNat := by
    rw [UInt64.toNat_add, toNat_VMM_BITMAP_VIRT_START]
    omega
  rw [mem_bitmapPages, pageOf, value]
  omega

theorem ownPages_lt {n : Nat} (own : n ∈ ownPages) : 0xBF0000000 ≤ n ∧ n < 0xD00000401 := by
  rcases own with (bitmap | heap) | stack
  · rw [mem_bitmapPages] at bitmap
    omega
  · rw [mem_heapPages] at heap
    omega
  · rw [mem_stackPages] at stack
    omega

/-- `init_paging` maps no page between the start of the heap bitmap and the end of the stack. -/
theorem bootPage_none {sections : List Elf64Shdr} {total_mem : UInt64} (inKernel : InKernel sections)
    (small : total_mem.toNat < 2 ^ 45) {n : Nat} (low : 0xBF0000000 ≤ n) (high : n < 0xD00000401) :
    bootPage sections total_mem n = none := by
  by_contra mapped
  have place := page_of_boot inKernel (by omega) mapped
  omega

/-- The pages with frames of their own are apart from those of `init_paging`. -/
theorem apart_ownPages {sections : List Elf64Shdr} {total_mem : UInt64} (inKernel : InKernel sections)
    (small : total_mem.toNat < 2 ^ 45) : Apart sections total_mem ownPages := by
  intro n own
  obtain ⟨low, high⟩ := ownPages_lt own
  exact ⟨by omega, bootPage_none inKernel small low high⟩

end Extron.Regions
