import Extron.BootAsm

/-!
The change from the tables of `boot.asm` to those of `init_paging`. The write of CR3 moves
nothing that the kernel runs on: every address of its loaded sections is translated as
before, the window of `phys_to_virt` opens at `NEW_HDDM`, and the map of the first GiB at
its own addresses is gone.
-/
namespace Extron.Handover
open Extron.Paging Extron.Mmu Extron.BootAsm Extron.KernelMap Extron.Accounting Extron.Outcomes Extron.AddressSpace
open Extron.Pmm Extron.InitPmm Extron.Multiboot Extron.Format Extron.FreeSet Extron.BootJobs Extron.Fields
set_option linter.unusedSimpArgs false

/-- What every address is translated to once `init_paging` is done. -/
def kernelAddress (sections : List Elf64Shdr) (total_mem v : UInt64) : Option UInt64 :=
  if KernelPage sections (align_down v PAGE_SIZE) then earlyAddress v
  else if DirectPage total_mem (align_down v PAGE_SIZE) then some (v - NEW_HDDM)
  else none

section
variable {s₀ s : State} {sections : List Elf64Shdr} {own : Set Nat} {v : UInt64}

theorem addrOf_page (extended : SignExtended v) : addrOf (pageOf v) = align_down v PAGE_SIZE := by
  have down := toNat_align_down v
  rw [SignExtended] at extended
  have canonical : Canonical (align_down v PAGE_SIZE) := ⟨by omega, by omega⟩
  have same : pageOf v = pageOf (align_down v PAGE_SIZE) := by
    rw [pageOf, pageOf]
    omega
  rw [same, addrOf_pageOf canonical]

theorem add_offset {x : UInt64} (low : x ≤ align_down v PAGE_SIZE) : align_down v PAGE_SIZE - x + (v &&& 0xFFF) = v - x := by
  have down := toNat_align_down v
  rw [UInt64.le_iff_toNat_le] at low
  have above : x ≤ v := by
    rw [UInt64.le_iff_toNat_le]
    omega
  have bound := v.toNat_lt
  apply UInt64.toNat_inj.mp
  rw [UInt64.toNat_add, UInt64.toNat_sub_of_le _ _ (UInt64.le_iff_toNat_le.mpr low), UInt64.toNat_sub_of_le _ _ above,
    Words.and_low v 0xFFF (k := 12) (by decide)]
  omega

theorem kernelAddress_off (inKernel : InKernel sections) (total_mem : UInt64) (off : ¬ SignExtended v) :
    kernelAddress sections total_mem v = none := by
  have down := toNat_align_down v
  rw [SignExtended] at off
  have kernel : ¬ KernelPage sections (align_down v PAGE_SIZE) := by
    intro here
    have := kernelPage_bounds inKernel here
    omega
  have direct : ¬ DirectPage total_mem (align_down v PAGE_SIZE) := by
    rintro ⟨low, _⟩
    rw [UInt64.le_iff_toNat_le, toNat_NEW_HDDM] at low
    omega
  rw [kernelAddress, if_neg kernel, if_neg direct]

/-- The root is the frame of a table, and CR3 holds it unchanged. -/
theorem root_mask (paged : Paged s₀ sections own s) (memory : s₀.total_mem.toNat ≤ 2 ^ 52) :
    s.kernel_pml4 &&& PAGE_ADDR_MASK = s.kernel_pml4 := by
  have held : Holds s.kernel_pml4 own ∅ s (.table []) (addr_to_idx s.kernel_pml4) := ⟨by simp, _, rfl, rfl⟩
  obtain ⟨_, _, address, inside⟩ := frame_of_free memory (paged.ledger.accounts.usable held)
  have aligned := paged.ledger.tree.aligned
  rw [addr_to_idx, UInt64.toNat_div, toNat_PAGE_SIZE] at inside
  exact mask_of_frame aligned (by omega)

theorem translate_paged (paged : Paged s₀ sections own s) (inKernel : InKernel sections) (small : s₀.total_mem.toNat < 2 ^ 45) {c : Control}
    (long : LongMode c) (loaded : c.cr3 = s.kernel_pml4) (v : UInt64) :
    physicalOf c s.frames v = kernelAddress sections s₀.total_mem v := by
  by_cases extended : SignExtended v
  · have shape := paged.ledger.tree.toShape
    have root : c.cr3 &&& PAGE_ADDR_MASK = s.kernel_pml4 := by rw [loaded, root_mask paged (by omega)]
    rw [translate_of_frame long shape root extended, paged.frames _ (pageOf_lt v), bootPage, addrOf_page extended, bootFrame, kernelAddress]
    by_cases kernel : KernelPage sections (align_down v PAGE_SIZE)
    · obtain ⟨low, high⟩ := kernelPage_bounds inKernel kernel
      have down := toNat_align_down v
      have low' : KERNEL_VMA ≤ align_down v PAGE_SIZE := by
        rw [UInt64.le_iff_toNat_le, toNat_KERNEL_VMA]
        exact low
      obtain ⟨early, _⟩ := earlyAddress_kernel (v := v) (n := v.toNat - KERNEL_VMA.toNat)
        (by rw [toNat_KERNEL_VMA]; omega) (by rw [toNat_KERNEL_VMA]; omega)
      rw [if_pos kernel, if_pos kernel, Option.map_some, add_offset low', early]
    · rw [if_neg kernel, if_neg kernel]
      by_cases direct : DirectPage s₀.total_mem (align_down v PAGE_SIZE)
      · rw [if_pos direct, if_pos direct, Option.map_some, add_offset direct.1]
      · rw [if_neg direct, if_neg direct, Option.map_none]
  · rw [translate_outside _ extended, kernelAddress_off inKernel _ extended]

end

end Extron.Handover
