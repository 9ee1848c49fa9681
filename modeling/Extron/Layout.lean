import Extron.Agreement

/-!
The layout of the kernel's address space. After a boot every mapped page lies in one
of five regions, whatever calls on the heap follow. The bitmap and the stack stay
mapped, the guard page below the stack never is, and no call of `map_page` fails.
-/
namespace Extron.Layout
open Extron.Multiboot Extron.Format Extron.Pmm Extron.InitPmm Extron.FreeSet Extron.Paging Extron.AddressSpace
open Extron.BootJobs Extron.KernelMap Extron.Regions Extron.Vmm Extron.OwnPages Extron.Startup Extron.Heap
open Extron.Agreement Extron.Outcomes
set_option linter.unusedSimpArgs false

inductive Region
  | kernel
  | hhdm
  | bitmap
  | heap
  | stack
deriving DecidableEq, Repr

/-- The address lies in the region. -/
def Region.Has (sections : List Elf64Shdr) (total_mem v : UInt64) : Region → Prop
  | .kernel => KernelPage sections v
  | .hhdm => NEW_HDDM.toNat ≤ v.toNat ∧ v.toNat < NEW_HDDM.toNat + total_mem.toNat
  | .bitmap => VMM_BITMAP_VIRT_START.toNat ≤ v.toNat ∧
      v.toNat < VMM_BITMAP_VIRT_START.toNat + KERNEL_HEAP_BITMAP_SIZE.toNat
  | .heap => KERNEL_HEAP_START.toNat ≤ v.toNat ∧ v.toNat < KERNEL_HEAP_START.toNat + KERNEL_HEAP_SIZE.toNat
  | .stack => (KERNEL_STACK_RANGE_START + KERNEL_STACK_GUARD).toNat ≤ v.toNat ∧
      v.toNat < (KERNEL_STACK_RANGE_START + KERNEL_STACK_GUARD).toNat + KERNEL_STACK_SIZE.toNat

/-- No call of `map_page` so far returned anything but 0. -/
def NoneFails (s : State) : Prop := ∀ pml4 v res, .mapped pml4 v res ∈ s.journal → res = 0

/-- The layout that every state keeps. -/
structure WellLaid (sections : List Elf64Shdr) (s : State) : Prop where
  region : ∀ v, Canonical v → (leaf s.kernel_pml4 s (pageOf v)).isSome → ∃! r : Region, r.Has sections s.total_mem v
  guard : leaf s.kernel_pml4 s (pageOf KERNEL_STACK_RANGE_START) = none
  bitmap : ∀ v, Canonical v → Region.bitmap.Has sections s.total_mem v → (leaf s.kernel_pml4 s (pageOf v)).isSome
  stack : ∀ v, Canonical v → Region.stack.Has sections s.total_mem v → (leaf s.kernel_pml4 s (pageOf v)).isSome
  fine : NoneFails s

section
variable {sections : List Elf64Shdr} {total_mem v : UInt64} {s₀ s : State}

def Region.low : Region → Nat
  | .kernel => 2 ^ 64 - 2 ^ 31
  | .hhdm => 2 ^ 64 - 2 ^ 47
  | .bitmap => 0xFFFFBF0000000000
  | .heap => 0xFFFFC00000000000
  | .stack => 0xFFFFD00000001000

def Region.high : Region → Nat
  | .kernel => 2 ^ 64 - 2 ^ 31 + 2 ^ 30
  | .hhdm => 2 ^ 64 - 2 ^ 47 + 2 ^ 45
  | .bitmap => 0xFFFFBF0000000000 + 2 ^ 22
  | .heap => 0xFFFFC00000000000 + 2 ^ 37
  | .stack => 0xFFFFD00000001000 + 2 ^ 22

theorem Region.bounds (inKernel : InKernel sections) (small : total_mem.toNat < 2 ^ 45) {r : Region}
    (here : r.Has sections total_mem v) : r.low ≤ v.toNat ∧ v.toNat < r.high := by
  cases r with
  | kernel => exact kernelPage_bounds inKernel here
  | hhdm =>
    obtain ⟨above, below⟩ := here
    rw [toNat_NEW_HDDM] at above below
    exact ⟨above, by simp only [Region.high]; omega⟩
  | bitmap => exact here
  | heap => exact here
  | stack => exact here

/-- No two regions meet. -/
theorem Region.apart (inKernel : InKernel sections) (small : total_mem.toNat < 2 ^ 45) {r t : Region}
    (first : r.Has sections total_mem v) (second : t.Has sections total_mem v) : r = t := by
  have firstBounds := Region.bounds inKernel small first
  have secondBounds := Region.bounds inKernel small second
  cases r <;> cases t <;> first
    | rfl
    | simp only [Region.low, Region.high] at firstBounds secondBounds
      omega

theorem mem_bitmapPages_iff (canonical : Canonical v) :
    pageOf v ∈ bitmapPages ↔ Region.bitmap.Has sections total_mem v :=
  mem_region (by simp) (by simp) (by simp) (by simp) canonical

theorem mem_heapPages_iff_has (canonical : Canonical v) : pageOf v ∈ heapPages ↔ Region.heap.Has sections total_mem v :=
  mem_region (by simp) (by simp) (by simp) (by simp) canonical

theorem mem_stackPages_iff (canonical : Canonical v) : pageOf v ∈ stackPages ↔ Region.stack.Has sections total_mem v :=
  mem_region (by decide) (by decide) (by simp) (by decide) canonical

theorem noneFails_of_start (start : s₀.journal = []) (none : NoneFailed s₀ s) : NoneFails s := by
  intro pml4 v res member
  rcases none pml4 v res member with zero | old
  · exact zero
  · rw [start] at old
    cases old

theorem wellLaid_of_rest (inKernel : InKernel sections) (small : s₀.total_mem.toNat < 2 ^ 45) (start : s₀.journal = [])
    (rest : AtRest s₀ sections s) : WellLaid sections s := by
  have total := rest.core.ledger.total
  refine ⟨?_, ?_, ?_, ?_, noneFails_of_start start rest.core.none⟩
  · intro v canonical mapped
    rw [total]
    suffices ∃ r : Region, r.Has sections s₀.total_mem v by
      obtain ⟨r, here⟩ := this
      exact ⟨r, here, fun t there => Region.apart inKernel small there here⟩
    by_cases own : pageOf v ∈ ownPages
    · rcases own with (bitmap | heap) | stack
      · exact ⟨.bitmap, (mem_bitmapPages_iff canonical).mp bitmap⟩
      · exact ⟨.heap, (mem_heapPages_iff_has canonical).mp heap⟩
      · exact ⟨.stack, (mem_stackPages_iff canonical).mp stack⟩
    · obtain ⟨w, here⟩ := Option.isSome_iff_exists.mp mapped
      have frame := rest.core.fixed _ (pageOf_lt v) own
      rw [frameOf_of_leaf here, bootPage, addrOf_pageOf canonical, bootFrame] at frame
      split at frame
      · rename_i kernel
        exact ⟨.kernel, kernel⟩
      · split at frame
        · rename_i direct
          have stop := toNat_align_down s₀.total_mem
          obtain ⟨above, below⟩ := direct
          rw [UInt64.le_iff_toNat_le] at above
          rw [UInt64.lt_iff_toNat_lt, UInt64.toNat_sub_of_le _ _ (UInt64.le_iff_toNat_le.mpr above)] at below
          exact ⟨.hhdm, above, by omega⟩
        · cases frame
  · have page : pageOf KERNEL_STACK_RANGE_START = 0xD00000000 := by decide
    have outside : pageOf KERNEL_STACK_RANGE_START ∉ ownPages := by
      rw [page, ownPages, Set.mem_union, Set.mem_union, mem_bitmapPages, mem_heapPages, mem_stackPages]
      omega
    have frame := rest.core.fixed _ (pageOf_lt _) outside
    rw [bootPage_none inKernel small (by omega) (by omega)] at frame
    exact frameOf_eq_none.mp frame
  · intro v canonical here
    have member := (mem_bitmapPages_iff canonical).mpr here
    exact (rest.core.filled _ (.inl (.inl member))).mpr (.inl (.inl member))
  · intro v canonical here
    have member := (mem_stackPages_iff canonical).mpr here
    exact (rest.core.filled _ (.inr member)).mpr (.inl (.inr member))

theorem noneFails_of_stops {e : Halt} (start : s₀.journal = []) (stops : RunStops s₀ sections e s) : NoneFails s := by
  cases stops with
  | starved starved => exact noneFails_of_start start starved.2.2
  | exhausted rest => exact noneFails_of_start start rest.core.none
  | neverMapped addr rest => exact noneFails_of_start start rest.core.none

end

end Extron.Layout
