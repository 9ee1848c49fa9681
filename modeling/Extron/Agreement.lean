import Extron.Heap

/-!
The agreement of the three structures of the memory manager: the heap bitmap, the
page tables and the frame bitmap. After a boot every run of calls on the heap keeps
them in step, so that no call finds a page mapped that its bit shows as free, or
frees a frame that is not taken.
-/
namespace Extron.Agreement
open Extron.Multiboot Extron.Format Extron.Pmm Extron.InitPmm Extron.FreeSet Extron.Paging Extron.AddressSpace Extron.Accounting
open Extron.BootJobs Extron.KernelMap Extron.Regions Extron.Vmm Extron.OwnPages Extron.Startup Extron.Heap Extron.Outcomes
set_option linter.unusedSimpArgs false

/-- The structures agree, where `s₀` is the state that `init_pmm` left. -/
structure Agree (s₀ s : State) : Prop where
  /-- A bit is set exactly when its page is mapped. -/
  bits : ∀ i : UInt64, i < KERNEL_HEAP_SIZE / PAGE_SIZE →
    (Taken s i ↔ (leaf s.kernel_pml4 s (pageOf (KERNEL_HEAP_START + i * PAGE_SIZE))).isSome)
  /-- No two heap pages have the same frame. -/
  distinct : ∀ n ∈ heapPages, ∀ m ∈ heapPages, ∀ f, frameOf s.kernel_pml4 s n = some f →
    frameOf s.kernel_pml4 s m = some f → n = m
  marked : ∀ n ∈ heapPages, ∀ f, frameOf s.kernel_pml4 s n = some f → Marked s (addr_to_idx f)
  notTable : ∀ n ∈ heapPages, ∀ f, frameOf s.kernel_pml4 s n = some f → ∀ q, q.length ≤ 3 →
    table s.kernel_pml4 s q ≠ some f
  notBacking : ∀ n ∈ heapPages, ∀ f, frameOf s.kernel_pml4 s n = some f → ∀ m ∈ bitmapPages ∪ stackPages,
    frameOf s.kernel_pml4 s m ≠ some f
  /-- The frames were free after `init_pmm`. -/
  notReserved : ∀ n ∈ heapPages, ∀ f, frameOf s.kernel_pml4 s n = some f → Free s₀ (addr_to_idx f)
  cursor : s.last_allocated_index ≤ KERNEL_HEAP_SIZE / PAGE_SIZE

/-- The reasons for which a call on the heap can stop. -/
def HeapHalt (e : Halt) : Prop :=
  e = .panic .outOfMemory ∨ e = .panic .heapExhausted ∨ ∃ addr, e = .panic (.neverMapped addr)

section
variable {s₀ s : State} {sections : List Elf64Shdr}

theorem toNat_heap_pages : (KERNEL_HEAP_SIZE / PAGE_SIZE).toNat = 2 ^ 25 := by decide

theorem agree_of_rest (rest : AtRest s₀ sections s) : Agree s₀ s := by
  have ledger := rest.core.ledger
  have own : ∀ {n}, n ∈ heapPages → n ∈ ownPages := fun heap => .inl (.inr heap)
  refine ⟨?_, ?_, ?_, ?_, ?_, ?_, ?_⟩
  · intro i inside
    rw [UInt64.lt_iff_toNat_lt, toNat_heap_pages] at inside
    rw [(heap_address inside).2, mapped_iff_taken rest.core inside]
  · intro n hn m hm f here there
    exact ledger.page_distinct (own hn) (own hm) here there
  · intro n hn f here
    exact ledger.page_marked (own hn) here
  · intro n hn f here q short
    exact ledger.page_not_table (own hn) here short
  · intro n hn f here m other there
    have mine : m ∈ ownPages := other.elim (fun bitmap => .inl (.inl bitmap)) (fun stack => .inr stack)
    have same := ledger.page_distinct (own hn) mine here there
    subst same
    rw [Set.mem_union, mem_bitmapPages, mem_stackPages] at other
    rw [mem_heapPages] at hn
    omega
  · intro n hn f here
    exact ledger.page_free_start (own hn) here
  · rw [UInt64.le_iff_toNat_le, toNat_heap_pages]
    exact rest.cursor

theorem heapHalt_of_stops {e : Halt} (stops : RunStops s₀ sections e s) : HeapHalt e := by
  cases stops with
  | starved starved => exact .inl starved.1
  | exhausted => exact .inr (.inl rfl)
  | neverMapped addr => exact .inr (.inr ⟨addr, rfl⟩)

end

/-- After a boot that completes, the structures agree in every state that calls on the
    heap reach, and these calls stop for none but the three reasons: `map_page` finds no
    page of the heap mapped already, and `pmm_free_page` accepts every frame. -/
theorem heap_agreement {image : Image} {mb2_addr : UInt64} {boot : State} {tags : List Tag} (on : PowerOn boot)
    (block : Block boot mb2_addr tags) (inKernel : ∀ sections, elfOf tags = some sections → InKernel sections) :
    Post (fun _ s => ∃ s₀, init_pmm image mb2_addr boot = .ok () s₀ ∧
        ∀ calls, Post (fun _ s' => Agree s₀ s') (fun e _ => HeapHalt e) (runs calls s))
      (fun _ _ => True) (kernel_stage1 image mb2_addr boot) := by
  refine (kernel_stage1_booted on block inKernel).mono ?_ (fun _ _ _ => trivial)
  rintro _ s ⟨s₀, sections, done, _, _, booted⟩
  refine ⟨s₀, done, fun calls => ?_⟩
  refine (runs_post booted.rest calls).mono ?_ ?_
  · rintro _ s' ⟨rest, _⟩
    exact agree_of_rest rest
  · intro e s' stops
    exact heapHalt_of_stops stops

-- else elaboration runs the boot
attribute [local irreducible] kernel_stage1 in
theorem heap_agreement_small : Post (fun _ s => ∃ s₀, init_pmm smallImage 0x200000 smallBoot = .ok () s₀ ∧
    ∀ calls, Post (fun _ s' => Agree s₀ s') (fun e _ => HeapHalt e) (runs calls s))
    (fun _ _ => True) (kernel_stage1 smallImage 0x200000 smallBoot) :=
  heap_agreement powerOn_small block_small (fun _ found => linked_small found)

end Extron.Agreement
