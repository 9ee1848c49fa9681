import Extron.BootSupply
import Extron.Leaks
import Extron.NextFit

/-!
What `vmm_alloc_pages` misses. Its two passes look at the bits from the cursor on and
at those before it, each with a count of its own, so that it finds a gap exactly when
one lies on one side of the cursor. The sole gap can lie across.
-/
namespace Extron.Completeness
open Extron.RadixTree Extron.Multiboot Extron.Format Extron.Pmm Extron.InitPmm Extron.FreeSet Extron.Paging
open Extron.Accounting Extron.BootJobs Extron.BootMap Extron.EarlyTables Extron.KernelMap Extron.Regions Extron.Vmm
open Extron.OwnPages Extron.Startup Extron.Heap Extron.Supply Extron.Leaks Extron.NextFit Extron.BootSupply Extron.Outcomes
set_option linter.unusedSimpArgs false

/-- The heap counts as exhausted only when it has no `n` clear bits in a row. -/
def Complete (s : State) (n : UInt64) : Prop :=
  ∀ s', vmm_alloc_pages n s = .error (.panic .heapExhausted) s' → ∀ b, ¬ Gap s n.toNat 0 (2 ^ 25) b

/-- If there are `n` clear bits in a row, some are on one side of the cursor. -/
def OneSided (s : State) (n : UInt64) : Prop :=
  (∃ b, Gap s n.toNat 0 (2 ^ 25) b) →
    ∃ b, Gap s n.toNat 0 s.last_allocated_index.toNat b ∨ Gap s n.toNat s.last_allocated_index.toNat (2 ^ 25) b

section
variable {s : State} {n : UInt64}

theorem gap_of_nextFit {a : UInt64} (fit : NextFit s n.toNat a) :
    Gap s n.toNat 0 s.last_allocated_index.toNat a.toNat ∨ Gap s n.toNat s.last_allocated_index.toNat (2 ^ 25) a.toNat := by
  rcases fit with after | ⟨_, before⟩
  · exact .inr after.toGap
  · exact .inl before.toGap

/-- A gap across the cursor is missed. -/
theorem missed (ready : Ready s) (some : n ≠ 0) (after : ∀ b, ¬ Gap s n.toNat s.last_allocated_index.toNat (2 ^ 25) b)
    (before : ∀ b, ¬ Gap s n.toNat 0 s.last_allocated_index.toNat b) :
    vmm_alloc_pages n s = .error (.panic .heapExhausted) s := by
  have stops : Post (fun _ _ => False) (fun e s' => e = .panic .heapExhausted ∧ s' = s) (vmm_alloc_pages n s) := by
    refine post_vmm_alloc_pages ready.touchable ready.cursor some (fun a fit _ => ?_) (fun _ _ => ⟨rfl, rfl⟩)
    rcases gap_of_nextFit fit with left | right
    · exact absurd left (before _)
    · exact absurd right (after _)
  cases ran : vmm_alloc_pages n s with
  | ok v s' => exact (stops.of_ok ran).elim
  | error e s' =>
    obtain ⟨rfl, rfl⟩ := stops.of_error ran
    rfl

/-- A gap on one side of the cursor is not. -/
theorem not_missed (ready : Ready s) (some : n ≠ 0) {b : Nat}
    (side : Gap s n.toNat 0 s.last_allocated_index.toNat b ∨ Gap s n.toNat s.last_allocated_index.toNat (2 ^ 25) b) :
    Post (fun _ _ => True) (fun e _ => e ≠ .panic .heapExhausted) (vmm_alloc_pages n s) := by
  refine post_vmm_alloc_pages ready.touchable ready.cursor some (fun a _ gap => ?_) (fun after before => ?_)
  · refine (place_post ready gap).mono (fun _ _ _ => trivial) ?_
    rintro _ _ ⟨rfl, _⟩ impossible
    cases impossible
  · rcases side with left | right
    · exact absurd left (before b)
    · exact absurd right (after b)

theorem complete_iff (ready : Ready s) (some : n ≠ 0) : Complete s n ↔ OneSided s n := by
  constructor
  · rintro complete ⟨b, gap⟩
    by_contra none
    simp only [not_exists, not_or] at none
    exact complete _ (missed ready some (fun c => (none c).2) (fun c => (none c).1)) b gap
  · intro oneSided s' ran b gap
    obtain ⟨c, side⟩ := oneSided ⟨b, gap⟩
    exact (not_missed ready some side).of_error ran rfl

end

/-- The completeness of `vmm_alloc_pages`, exactly: in every state that calls on the heap
    reach after a boot, a request is refused only for want of a gap if and only if no
    gap at all fits it or one that fits lies on one side of the cursor. -/
theorem complete_iff_one_sided {image : Image} {mb2_addr : UInt64} {boot : State} {tags : List Tag} (on : PowerOn boot)
    (block : Block boot mb2_addr tags) (inKernel : ∀ sections, elfOf tags = some sections → InKernel sections) :
    Post (fun _ start => ∀ calls s, runs calls start = .ok () s → ∀ n, n ≠ 0 → (Complete s n ↔ OneSided s n))
      (fun _ _ => True) (kernel_stage1 image mb2_addr boot) := by
  refine (kernel_stage1_booted on block inKernel).mono ?_ (fun _ _ _ => trivial)
  rintro _ start ⟨s₀, sections, _, _, _, booted⟩ calls s ran n some
  exact complete_iff (ready_of_rest ((runs_post booted.rest calls).of_ok ran).1) some

-- else elaboration runs the boot
attribute [local irreducible] kernel_stage1 in
theorem complete_iff_one_sided_small :
    Post (fun _ start => ∀ calls s, runs calls start = .ok () s → ∀ n, n ≠ 0 → (Complete s n ↔ OneSided s n))
      (fun _ _ => True) (kernel_stage1 smallImage 0x200000 smallBoot) :=
  complete_iff_one_sided powerOn_small block_small fun _ found => linked_small found

/-! ## A gap across the cursor -/

section
variable {s₀ start s : State} {sections : List Elf64Shdr} {n : UInt64}

-- membership in the paths is not to be evaluated
attribute [local irreducible] heapPaths

theorem gapPaths_heap {a k : Nat} (room : a + k ≤ 2 ^ 25) : gapPaths a k ⊆ heapPaths := by
  intro q member
  obtain ⟨nonempty, j, inside, along⟩ := mem_gapPaths.mp member
  exact mem_heapPaths.mpr ⟨nonempty, short_gapPaths q member, heapPage j, heapPage_mem (by omega), along⟩

/-- Besides the pages an allocation takes at most as many frames as the heap has tables. -/
theorem framesNeeded_le {a k : Nat} (room : a + k ≤ 2 ^ 25) : framesNeeded s k a ≤ k + (1 + 128 + 65536) :=
  Nat.add_le_add_left ((Finset.card_filter_le _ _).trans ((Finset.card_le_card (gapPaths_heap room)).trans card_heapPaths)) _

/-- An empty heap with the cursor at its start serves a request from there. -/
theorem first_pages (rest : AtRest s₀ sections s) (empty : ∀ i : UInt64, i.toNat < 2 ^ 25 → ¬ Taken s i)
    (cursor : s.last_allocated_index = 0) (some : n ≠ 0) (room : n.toNat ≤ 2 ^ 25)
    (enough : n.toNat + (1 + 128 + 65536) ≤ (freeFrames s).card) :
    ∃ s', vmm_alloc_pages n s = .ok (KERNEL_HEAP_START + 0 * PAGE_SIZE) s' ∧ Allocated s₀ sections n 0 s s' := by
  have zero : s.last_allocated_index.toNat = 0 := by rw [cursor]; rfl
  have gap : Gap s n.toNat s.last_allocated_index.toNat (2 ^ 25) 0 := by
    refine ⟨by omega, by omega, fun j _ below => empty j (by omega)⟩
  have start : ∀ {a : UInt64}, NextFit s n.toNat a → a = 0 := by
    rintro a (first | ⟨none, _⟩)
    · have least := first.first 0 gap
      exact UInt64.toNat_inj.mp (Nat.le_zero.mp least)
    · exact absurd gap (none 0)
  have served : Post (fun v s' => v = KERNEL_HEAP_START + 0 * PAGE_SIZE ∧ Allocated s₀ sections n 0 s s') (fun _ _ => False)
      (vmm_alloc_pages n s) := by
    refine post_vmm_alloc_pages (touchable_of_rest rest) rest.cursor some (fun a fit here => ?_) (fun none _ => none 0 gap)
    rw [start fit] at here ⊢
    refine ((take_post rest here).and (place_post (ready_of_rest rest) here)).mono (fun _ _ both => both.1) ?_
    rintro e s' ⟨_, _, few⟩
    have most : framesNeeded s n.toNat (0 : UInt64).toNat ≤ _ := framesNeeded_le (by simpa using room)
    omega
  obtain ⟨v, s', ran, rfl, allocated⟩ := served.returns
  exact ⟨s', ran, allocated⟩

/-- Allocating the first pages and freeing them again leaves an empty heap with the
    cursor after them. -/
theorem first_pages_undone (rest : AtRest s₀ sections s) (empty : ∀ i : UInt64, i.toNat < 2 ^ 25 → ¬ Taken s i)
    (cursor : s.last_allocated_index = 0) (some : n ≠ 0) (room : n.toNat ≤ 2 ^ 25)
    (enough : n.toNat + (1 + 128 + 65536) ≤ (freeFrames s).card) :
    ∃ v s₁ r s₂, vmm_alloc_pages n s = .ok v s₁ ∧ vmm_free_pages KERNEL_HEAP_START n s₁ = .ok r s₂ ∧
      (∀ i : UInt64, i.toNat < 2 ^ 25 → ¬ Taken s₂ i) ∧ s₂.last_allocated_index = n := by
  obtain ⟨s₁, alloc, allocated⟩ := first_pages rest empty cursor some room enough
  have base : KERNEL_HEAP_START + 0 * PAGE_SIZE = KERNEL_HEAP_START := rfl
  obtain ⟨s₂, free, freeing⟩ := free_allocated allocated
  rw [base] at free
  refine ⟨_, s₁, _, s₂, alloc, free, fun i inside => ?_, ?_⟩
  · rw [bits_undone allocated freeing]
    exact empty i inside
  · rw [freeing.cursor, allocated.cursor, UInt64.zero_add]

theorem card_free_add_used (s : State) : (freeFrames s).card + (usedFrames s).card = (below (addr_to_idx s.total_mem)).card := by
  have free : freeFrames s = (below (addr_to_idx s.total_mem)).filter fun i => ¬ Marked s i := by
    ext i
    rw [mem_freeFrames, Finset.mem_filter, mem_below]
    exact Iff.rfl
  rw [free, usedFrames, Nat.add_comm]
  exact Finset.card_filter_add_card_filter_not _

/-- With an empty heap, all frames that were free after the boot are free but for the
    tables of the heap. -/
theorem free_of_empty (booted : Booted s₀ sections start) (rest : AtRest s₀ sections s) (within : Within heapPages start s)
    (empty : ∀ i : UInt64, i.toNat < 2 ^ 25 → ¬ Taken s i) :
    (freeFrames start).card ≤ (freeFrames s).card + (1 + 128 + 65536) := by
  have none : (takenBits s).card = 0 := by
    rw [Finset.card_eq_zero, Finset.eq_empty_iff_forall_notMem]
    intro i member
    obtain ⟨inside, taken⟩ := mem_takenBits.mp member
    exact empty i inside taken
  have total : s.total_mem = start.total_mem := rest.core.ledger.total.trans booted.rest.core.ledger.total.symm
  have used := card_usedFrames booted rest within
  have tables := card_heapTables s
  have before := card_free_add_used start
  have after := card_free_add_used s
  rw [total] at after
  omega

end

/-! ## A machine with 128 GiB -/

/-- The paths below the root that lead to the first GiB of the kernel. -/
def kernelPaths : Finset (List (Fin 512)) :=
  {[511], [511, 510]} ∪ Finset.univ.image fun b => [511, 510, b]

theorem dir_kernel {n : Nat} (low : 2 ^ 36 - 2 ^ 19 ≤ n) (high : n < 2 ^ 36 - 2 ^ 18) :
    dir n = [511, 510, Fin.ofNat 512 (n / 512)] := by
  simp only [dir, List.cons.injEq, and_true]
  refine ⟨?_, ?_, ?_⟩
  · apply Fin.ext
    rw [val_index]
    norm_num
    omega
  · apply Fin.ext
    rw [val_index]
    norm_num
    omega
  · apply Fin.ext
    rw [val_index, Fin.val_ofNat]
    norm_num

theorem mem_kernelPaths {n : Nat} (low : 2 ^ 36 - 2 ^ 19 ≤ n) (high : n < 2 ^ 36 - 2 ^ 18) (q : List (Fin 512)) (nonempty : q ≠ [])
    (along : q <+: dir n) : q ∈ kernelPaths := by
  have path := (prefix_dir_iff.mp along).resolve_left nonempty
  rw [dir_kernel low high] at path
  rcases path with rfl | rfl | rfl
  · exact Finset.mem_union_left _ (Finset.mem_insert_self _ _)
  · exact Finset.mem_union_left _ (Finset.mem_insert_of_mem (Finset.mem_singleton_self _))
  · exact Finset.mem_union_right _ (Finset.mem_image_of_mem _ (Finset.mem_univ _))

theorem card_kernelPaths : kernelPaths.card ≤ 2 + 512 := by
  refine (Finset.card_union_le _ _).trans (Nat.add_le_add Finset.card_le_two ?_)
  exact Finset.card_image_le.trans (by rw [Finset.card_univ, Fintype.card_fin])

section
variable {sections : List Elf64Shdr} {total_mem : UInt64}

-- membership in the paths is not to be evaluated
attribute [local irreducible] kernelPaths slotPaths

/-- Memory of at most 128 GiB lies in the first quarter of the slot of the direct map. -/
theorem path_boot (inKernel : InKernel sections) (small : total_mem.toNat ≤ 2 ^ 37) {q : List (Fin 512)}
    (path : q ∈ pathsOf (bootRequests sections total_mem)) :
    q ∈ insert [] (kernelPaths ∪ slotPaths (Fin.ofNat 512 256)) := by
  rw [Finset.mem_insert, Finset.mem_union]
  by_cases nonempty : q = []
  · exact .inl nonempty
  obtain ⟨r, member, along⟩ := (mem_pathsOf.mp path).resolve_left nonempty
  have frame := (meets_boot inKernel (by omega) member).frame
  have hn : r.page < 2 ^ 36 := pageOf_lt _
  rcases page_of_boot inKernel hn (by rw [frame]; simp) with ⟨low, high⟩ | ⟨low, high⟩
  · exact .inr (.inl (mem_kernelPaths low high q nonempty along))
  · have short := along.length_le
    have page : r.page = 256 * 2 ^ 27 + (r.page - 2 ^ 35) := by omega
    rw [page] at along
    exact .inr (.inr (mem_slotPaths.mpr ⟨nonempty, by simpa using short, _, by omega, along⟩))

/-- So the tables of `init_paging` are few. -/
theorem tablesNeeded_le (inKernel : InKernel sections) (small : total_mem.toNat ≤ 2 ^ 37) :
    tablesNeeded (some sections) total_mem ≤ 1 + (2 + 512 + (1 + 128 + 65536)) := by
  rw [tablesNeeded, settled_boot inKernel (by omega)]
  refine (Finset.card_le_card fun _ path => path_boot inKernel small path).trans ((Finset.card_insert_le _ _).trans ?_)
  rw [Nat.add_comm]
  exact Nat.add_le_add_left ((Finset.card_union_le _ _).trans (Nat.add_le_add card_kernelPaths (card_slotPaths _))) _

end

/-- 128 GiB of available memory and one section of the kernel. -/
def bigTags : List Tag :=
  [.mmap [⟨0, 0x2000000000, 1⟩], .elf [⟨SHF_ALLOC, KERNEL_VMA + 0x100000, 0x1000⟩]]

def bigBytes : List UInt8 :=
  le32 144 ++ le32 0 ++
  (le32 6 ++ le32 40 ++ le32 24 ++ le32 0 ++ le64 0 ++ le64 0x2000000000 ++ le32 1 ++ le32 0) ++
  (le32 9 ++ le32 84 ++ le32 1 ++ le32 64 ++ le32 0 ++ le64 0 ++ le64 SHF_ALLOC ++ le64 (KERNEL_VMA + 0x100000) ++ le64 0 ++
    le64 0x1000 ++ le64 0 ++ le64 0 ++ le64 0 ++ le32 0) ++
  (le32 0 ++ le32 8)

def bigBoot : State := loaded bigBytes 0x200000

theorem powerOn_big : PowerOn bigBoot := ⟨rfl, rfl, rfl, rfl⟩

theorem block_big : Block bigBoot 0x200000 bigTags := by decide +kernel

theorem init_pmm_big : ∃ s, init_pmm smallImage 0x200000 bigBoot = .ok () s ∧ s.total_mem = 0x2000000000 ∧
    s.bmp_phys = 0x201000 ∧ bitmap_size_bytes s = 0x400000 := by
  obtain ⟨s, done, total, start, size⟩ := init_pmm_accepts smallImage powerOn_big block_big (by decide) (by decide +kernel)
  exact ⟨s, done, total.trans (by decide +kernel), start.trans (by decide +kernel), size.trans (by decide +kernel)⟩

/-- Everything above the bitmap is free. -/
theorem free_big {s : State} (done : init_pmm smallImage 0x200000 bigBoot = .ok () s) {i : UInt64}
    (above : 0x601 ≤ i.toNat) (inside : i.toNat < 2 ^ 25) : Free s i := by
  obtain ⟨s', done', _, start, size⟩ := init_pmm_big
  rw [done] at done'
  cases done'
  have entry : (⟨0, 0x2000000000, 1⟩ : Entry) ∈ entriesOf bigTags := by decide
  have stop : Entry.stop ⟨0, 0x2000000000, 1⟩ = 0x2000000000 := rfl
  have top : s.bmp_phys.toNat + (bitmap_size_bytes s).toNat = 0x601000 := by rw [start, size]; rfl
  exact free_above_bitmap powerOn_big block_big (by decide +kernel) (fun _ impossible => by cases impossible) done entry rfl
    (Nat.zero_le _) (by omega) (by omega)

/-- A set with all indices between two bounds has as many. -/
theorem card_between {A : Finset UInt64} {lo hi : Nat} (small : hi ≤ 2 ^ 64) (all : ∀ i : UInt64, lo ≤ i.toNat → i.toNat < hi → i ∈ A) :
    hi - lo ≤ A.card := by
  have index : ∀ k, k < hi → (UInt64.ofNat k).toNat = k := by
    intro k inside
    rw [UInt64.toNat_ofNat']
    omega
  rw [← Nat.card_Ico]
  refine Finset.card_le_card_of_injOn UInt64.ofNat ?_ ?_
  · intro k member
    obtain ⟨low, high⟩ := Finset.mem_Ico.mp member
    exact all _ (by rw [index k high]; exact low) (by rw [index k high]; exact high)
  · intro j memberJ k memberK same
    have values := congrArg UInt64.toNat same
    rw [index j (Finset.mem_Ico.mp memberJ).2, index k (Finset.mem_Ico.mp memberK).2] at values
    exact values

/-- The boot leaves all but 512 MiB of the 128 GiB free. -/
theorem booted_big : ∃ v start s₀ sections, kernel_stage1 smallImage 0x200000 bigBoot = .ok v start ∧
    Booted s₀ sections start ∧ start.last_allocated_index = 0 ∧ 2 ^ 25 - 2 ^ 17 ≤ (freeFrames start).card := by
  obtain ⟨s, done, total, _, _⟩ := init_pmm_big
  have elf : elfOf bigTags = some [⟨SHF_ALLOC, KERNEL_VMA + 0x100000, 0x1000⟩] := rfl
  have small : s.total_mem.toNat ≤ 2 ^ 37 := by rw [total]; decide
  have tables := tablesNeeded_le inKernel_small small
  rw [← elf] at tables
  have low : 2 ^ 18 - 0x601 ≤ lowFree s := by
    refine card_between (by decide) fun i above inside => ?_
    rw [Finset.mem_filter, mem_indices (by decide)]
    exact ⟨inside, free_big done above (by omega)⟩
  have free : 2 ^ 25 - 0x601 ≤ (freeFrames s).card :=
    card_between (by decide) fun i above inside => mem_freeFrames.mpr (free_big done above inside)
  obtain ⟨v, start, boots, booted, cursor, left⟩ :=
    kernel_stage1_ok powerOn_big block_big done elf inKernel_small (by omega) (by omega)
  exact ⟨v, start, s, _, boots, booted, cursor, by omega⟩

-- else elaboration runs the boot
attribute [local irreducible] kernel_stage1 in
/-- On this machine 64 GiB of the heap are allocated and freed again. A request for one
    page more then finds the heap exhausted, all of whose bits are clear. -/
theorem gap_across_cursor : PowerOn bigBoot ∧ Block bigBoot 0x200000 bigTags ∧
    (∀ sections, elfOf bigTags = some sections → InKernel sections) ∧
    ∃ v start calls s, kernel_stage1 smallImage 0x200000 bigBoot = .ok v start ∧ runs calls start = .ok () s ∧
      s.last_allocated_index = 0x1000000 ∧ framesNeeded s (0x1000001 : UInt64).toNat 0 ≤ (freeFrames s).card ∧
      vmm_alloc_pages 0x1000001 s = .error (.panic .heapExhausted) s ∧ (∀ i : UInt64, i.toNat < 2 ^ 25 → ¬ Taken s i) ∧
      ¬ Complete s 0x1000001 := by
  refine ⟨powerOn_big, block_big, fun _ found => Option.some.inj found ▸ inKernel_small, ?_⟩
  obtain ⟨v, start, s₀, sections, boots, booted, cursor, free⟩ := booted_big
  have half : (0x1000000 : UInt64).toNat = 2 ^ 24 := rfl
  have more : (0x1000001 : UInt64).toNat = 2 ^ 24 + 1 := rfl
  obtain ⟨_, mid, _, s, alloc, release, empty, moved⟩ :=
    first_pages_undone (n := 0x1000000) booted.rest booted.unused cursor (by decide) (by omega) (by omega)
  have inside : Set.Ico KERNEL_HEAP_START.toNat (KERNEL_HEAP_START.toNat + 4096 * (0x1000000 : UInt64).toNat) ⊆
      Set.Ico KERNEL_HEAP_START.toNat (KERNEL_HEAP_START.toNat + KERNEL_HEAP_SIZE.toNat) :=
    Set.Ico_subset_Ico_right (by decide)
  have ran : runs [.vmm_alloc_pages 0x1000000 (by decide), .vmm_free_pages KERNEL_HEAP_START 0x1000000 (by decide) inside]
      start = .ok () s := by
    have first : HeapCall.run (.vmm_alloc_pages 0x1000000 (by decide)) start = .ok () mid := bind_ok alloc
    have second : HeapCall.run (.vmm_free_pages KERNEL_HEAP_START 0x1000000 (by decide) inside) mid = .ok () s := bind_ok release
    exact (bind_ok first).trans (bind_ok second)
  obtain ⟨rest, within⟩ := (runs_post booted.rest _).of_ok ran
  have position : s.last_allocated_index.toNat = 2 ^ 24 := by rw [moved]; rfl
  have gap : Gap s (0x1000001 : UInt64).toNat 0 (2 ^ 25) 0 := ⟨le_rfl, by omega, fun j _ below => empty j (by omega)⟩
  have exhausted : vmm_alloc_pages 0x1000001 s = .error (.panic .heapExhausted) s := by
    refine missed (ready_of_rest rest) (by decide) ?_ ?_
    · rintro b ⟨low, high, _⟩
      omega
    · rintro b ⟨low, high, _⟩
      omega
  refine ⟨v, start, _, s, boots, ran, moved, ?_, exhausted, empty, fun complete => complete s exhausted 0 gap⟩
  have needed := framesNeeded_le (s := s) (a := 0) (k := (0x1000001 : UInt64).toNat) (by omega)
  have left := free_of_empty booted rest within empty
  omega

end Extron.Completeness
