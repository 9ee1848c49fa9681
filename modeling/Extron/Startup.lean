import Extron.OwnPages

/-!
The state in which `kernel_stage1` leaves the memory manager: the pages of the heap
bitmap and of the stack have frames of their own, every bit of the heap is clear,
and the heap has no page tables yet.
-/
namespace Extron.Startup
open Extron.RadixTree Extron.Multiboot Extron.Format Extron.Pmm Extron.InitPmm Extron.FreeSet Extron.Paging
open Extron.AddressSpace Extron.Accounting Extron.BootJobs Extron.BootMap Extron.KernelMap Extron.Regions Extron.Vmm
open Extron.OwnPages Extron.Outcomes
set_option linter.unusedSimpArgs false

/-! ## Bits and the cursor -/

/-- The state with another heap bitmap and another cursor. -/
def aside (bits : UInt64 → UInt8) (cursor : UInt64) (s : State) : State :=
  { s with vmm_bitmap := bits, last_allocated_index := cursor }

section
variable {s₀ s : State} {sections : List Elf64Shdr} {filled : Set Nat} {bits : UInt64 → UInt8} {cursor : UInt64}

theorem ledger_aside {root : UInt64} {own : Set Nat} {held : Set UInt64} (ledger : Ledger s₀ root own held s) :
    Ledger s₀ root own held (aside bits cursor s) := by
  have tree := ledger.tree
  exact ⟨⟨⟨tree.aligned, tree.memory, tree.unshared, tree.used, tree.flat, tree.zeroTaken⟩, tree.nonzero⟩, ledger.total,
    ledger.zero, ledger.bounded, ledger.accounts⟩

theorem core_aside (core : Core s₀ sections filled s) : Core s₀ sections filled (aside bits cursor s) :=
  ⟨ledger_aside core.ledger, core.offset, core.fixed, core.filled, core.none⟩

theorem within_aside {pages : Set Nat} : Within pages s (aside bits cursor s) := .of_frames rfl rfl

/-- A byte of the heap bitmap can be touched when its page is mapped. -/
theorem touch_ok (core : Core s₀ sections filled s) (mapped : bitmapPages ⊆ filled) {k : UInt64} (inside : k.toNat < 2 ^ 22) :
    touch k s = .ok () s := by
  have page := byte_address inside
  rw [touch, if_pos ((core.filled _ (.inl (.inl page))).mpr (mapped page))]

end

/-! ## Page loops -/

/-- What one round of a page loop carries from `k` to `k + 1`, the loop carries to its end. -/
theorem post_for_pages {body : UInt64 → Kernel Unit} {stop : UInt64} {pages : Nat} (Inv : Nat → State → Prop)
    {E : Halt → State → Prop} (whole : stop.toNat = 4096 * pages) (room : stop.toNat + 4096 ≤ 2 ^ 64)
    (round : ∀ k s, k < pages → Inv k s → Post (fun _ => Inv (k + 1)) E (body (UInt64.ofNat (4096 * k)) s)) :
    ∀ rounds k s, k ≤ pages → pages - k < rounds → Inv k s →
      Post (fun _ => Inv pages) E (for_pages body stop rounds (UInt64.ofNat (4096 * k)) s) := by
  intro rounds
  induction rounds with
  | zero =>
    intro k s below enough
    omega
  | succ rounds ih =>
    intro k s below enough here
    have value : (UInt64.ofNat (4096 * k)).toNat = 4096 * k := by
      rw [UInt64.toNat_ofNat']
      omega
    rw [for_pages]
    by_cases more : k < pages
    · have inside : UInt64.ofNat (4096 * k) < stop := by
        rw [UInt64.lt_iff_toNat_lt, value]
        omega
      have next : UInt64.ofNat (4096 * k) + PAGE_SIZE = UInt64.ofNat (4096 * (k + 1)) := by
        apply UInt64.toNat_inj.mp
        rw [UInt64.toNat_add, value, toNat_PAGE_SIZE, UInt64.toNat_ofNat']
        omega
      rw [if_pos inside, next]
      apply post_bind
      exact (round k s more here).mono (fun _ mid after => ih (k + 1) mid (by omega) (by omega) after) (fun _ _ stop => stop)
    · have past : ¬ UInt64.ofNat (4096 * k) < stop := by
        rw [UInt64.lt_iff_toNat_lt, value]
        omega
      have done : k = pages := by omega
      rw [if_neg past]
      exact done ▸ here

/-! ## `vmm_init` -/

section
variable {s₀ s : State} {sections : List Elf64Shdr}

theorem Ico_succ (first k : Nat) : Set.Ico first (first + (k + 1)) = insert (first + k) (Set.Ico first (first + k)) := by
  ext n
  simp only [Set.mem_Ico, Set.mem_insert_iff]
  omega

/-- The loop that maps the heap bitmap, after `k` rounds. -/
structure BitmapMapped (s₀ : State) (sections : List Elf64Shdr) (start : State) (k : Nat) (s : State) : Prop where
  core : Core s₀ sections (Set.Ico (bitmapPage 0) (bitmapPage 0 + k)) s
  within : Within bitmapPages start s
  cursor : s.last_allocated_index = start.last_allocated_index

/-- The loop that clears the heap bitmap, after `k` rounds. -/
structure BitmapCleared (s₀ : State) (sections : List Elf64Shdr) (start : State) (k : Nat) (s : State) : Prop where
  core : Core s₀ sections bitmapPages s
  within : Within bitmapPages start s
  cursor : s.last_allocated_index = start.last_allocated_index
  clear : ∀ j < k, s.vmm_bitmap (UInt64.ofNat j) = 0

theorem map_bitmap_round {start : State} {k : Nat} (inside : k < 2 ^ 10) (here : BitmapMapped s₀ sections start k s) :
    Post (fun _ => BitmapMapped s₀ sections start (k + 1)) (Starved s₀) (vmm_init.map_page k s) := by
  have page := bitmap_address inside
  have own : bitmapPage k ∈ bitmapPages := by
    rw [mem_bitmapPages, bitmapPage]
    omega
  refine (core_fill here.core ?_ ?_).mono ?_ (fun _ _ starved => starved)
  · rw [page]
    exact .inl (.inl own)
  · rw [page, Set.mem_Ico, bitmapPage, bitmapPage]
    omega
  · rintro _ s' ⟨core, within, kept⟩
    rw [page] at core within
    refine ⟨?_, here.within.trans (within.mono (Set.singleton_subset_iff.mpr own)), ?_⟩
    · rw [Ico_succ]
      exact core
    · rw [kept.rest]
      exact here.cursor

theorem clear_byte_round {start : State} {k : Nat} (inside : k < 2 ^ 22) (here : BitmapCleared s₀ sections start k s) :
    Post (fun _ => BitmapCleared s₀ sections start (k + 1)) (Starved s₀) (vmm_init.clear_byte k s) := by
  have byte : (UInt64.ofNat k).toNat = k := by
    rw [UInt64.toNat_ofNat']
    omega
  rw [vmm_init.clear_byte, bind_ok (touch_ok here.core subset_rfl (by omega))]
  refine ⟨core_aside here.core, here.within.trans within_aside, here.cursor, ?_⟩
  intro j below
  by_cases last : j = k
  · subst last
    exact Function.update_self _ _ _
  · have other : UInt64.ofNat j ≠ UInt64.ofNat k := by
      intro same
      have value := congrArg UInt64.toNat same
      rw [UInt64.toNat_ofNat', byte] at value
      omega
    have old := here.clear j (by omega)
    rw [← old]
    exact Function.update_of_ne other _ _

/-- `vmm_init` maps the heap bitmap and clears it, unless frames run out. -/
theorem vmm_init_post (core : Core s₀ sections ∅ s) :
    Post (fun _ => BitmapCleared s₀ sections s (2 ^ 22)) (Starved s₀) (vmm_init s) := by
  have pages : ((KERNEL_HEAP_BITMAP_SIZE + PAGE_SIZE - 1) / PAGE_SIZE).toNat = 2 ^ 10 := by decide
  have bytes : KERNEL_HEAP_BITMAP_SIZE.toNat = 2 ^ 22 := rfl
  rw [vmm_init]
  simp only [pages, bytes]
  apply post_bind
  refine (post_times (BitmapMapped s₀ sections s) (2 ^ 10) (fun k _ inside here => map_bitmap_round inside here) (2 ^ 10)
    0 s rfl ?_).mono ?_ (fun _ _ starved => starved)
  · refine ⟨core.congr ?_, .refl s, rfl⟩
    simp
  · intro _ mid here
    have whole : Core s₀ sections bitmapPages mid := here.core
    exact post_times (BitmapCleared s₀ sections s) (2 ^ 22) (fun k _ inside here => clear_byte_round inside here) (2 ^ 22)
      0 mid rfl ⟨whole, here.within, here.cursor, by simp⟩

/-! ## `vmm_setup_stack` -/

/-- The loop that maps the stack, after `k` rounds. -/
structure StackMapped (s₀ : State) (sections : List Elf64Shdr) (start : State) (k : Nat) (s : State) : Prop where
  core : Core s₀ sections (bitmapPages ∪ Set.Ico (stackPage 0) (stackPage 0 + k)) s
  within : Within stackPages start s
  cursor : s.last_allocated_index = start.last_allocated_index
  bits : s.vmm_bitmap = start.vmm_bitmap

theorem pageOf_stack {k : Nat} (inside : k < 2 ^ 10) :
    pageOf (KERNEL_STACK_RANGE_START + KERNEL_STACK_GUARD + UInt64.ofNat (4096 * k)) = stackPage k := by
  have offset : (UInt64.ofNat (4096 * k)).toNat = 4096 * k := by
    rw [UInt64.toNat_ofNat']
    omega
  have page := stack_address (i := UInt64.ofNat (4096 * k)) (by
    rw [UInt64.lt_iff_toNat_lt, offset, toNat_KERNEL_STACK_SIZE]
    omega) (by omega)
  rw [page, offset, Nat.mul_div_cancel_left _ (by decide)]

theorem map_stack_round {start : State} {k : Nat} (inside : k < 2 ^ 10) (here : StackMapped s₀ sections start k s) :
    Post (fun _ => StackMapped s₀ sections start (k + 1)) (Starved s₀)
      (fill_page (KERNEL_STACK_RANGE_START + KERNEL_STACK_GUARD + UInt64.ofNat (4096 * k)) .stackAlloc (some .stackMap) s) := by
  have page := pageOf_stack inside
  have own : stackPage k ∈ stackPages := by
    rw [mem_stackPages, stackPage]
    omega
  refine (core_fill here.core ?_ ?_).mono ?_ (fun _ _ starved => starved)
  · rw [page]
    exact .inr own
  · rw [page, Set.mem_union, mem_bitmapPages, Set.mem_Ico, stackPage, stackPage]
    omega
  · rintro _ s' ⟨core, within, kept⟩
    rw [page] at core within
    refine ⟨?_, here.within.trans (within.mono (Set.singleton_subset_iff.mpr own)), ?_, ?_⟩
    · rw [Ico_succ, Set.union_insert]
      exact core
    · rw [kept.rest]
      exact here.cursor
    · rw [kept.rest]
      exact here.bits

theorem vmm_setup_stack_post (core : Core s₀ sections bitmapPages s) :
    Post (fun _ => StackMapped s₀ sections s (2 ^ 10)) (Starved s₀) (vmm_setup_stack s) := by
  rw [vmm_setup_stack]
  apply post_bind
  refine (post_for_pages (StackMapped s₀ sections s) (by simp : _ = 4096 * 2 ^ 10) (by simp)
    (fun k _ inside here => map_stack_round inside here) addresses 0 s (by decide) (by simp [addresses]) ?_).mono
    (fun _ _ here => here) (fun _ _ starved => starved)
  refine ⟨?_, .refl s, rfl, rfl⟩
  simpa using core

end

/-! ## At rest -/

/-- The heap pages whose bit is set. -/
def takenPages (s : State) : Set Nat := {n | ∃ i : UInt64, i.toNat < 2 ^ 25 ∧ Taken s i ∧ n = heapPage i.toNat}

/-- The memory manager between two calls: the pages of the bitmap and of the stack have
    frames, and so have exactly the heap pages whose bit is set. -/
structure AtRest (s₀ : State) (sections : List Elf64Shdr) (s : State) : Prop where
  core : Core s₀ sections (bitmapPages ∪ stackPages ∪ takenPages s) s
  cursor : s.last_allocated_index.toNat ≤ 2 ^ 25

/-- The state when `kernel_stage1` has set up memory. -/
structure Booted (s₀ : State) (sections : List Elf64Shdr) (s : State) : Prop where
  rest : AtRest s₀ sections s
  unused : ∀ i : UInt64, i.toNat < 2 ^ 25 → ¬ Taken s i
  heapless : ∀ q t, q ≠ [] → q.length ≤ 3 → table s.kernel_pml4 s q = some t → ∀ n ∈ heapPages, ¬ q <+: dir n

section
variable {s₀ s : State} {sections : List Elf64Shdr}

/-- A page whose directory starts like that of another lies under the same word of the root. -/
theorem same_slot {q : List (Fin 512)} {n m : Nat} (nonempty : q ≠ []) (first : q <+: dir n) (second : q <+: dir m)
    (hn : n < 2 ^ 36) (hm : m < 2 ^ 36) : n / 2 ^ 27 = m / 2 ^ 27 := by
  obtain ⟨i, rest, rfl⟩ := List.exists_cons_of_ne_nil nonempty
  have one : i = index 3 n := (List.cons_prefix_cons.mp first).1
  have two : i = index 3 m := (List.cons_prefix_cons.mp second).1
  have same := congrArg Fin.val (one.symm.trans two)
  rw [val_index, val_index] at same
  norm_num at same
  omega

theorem slot_heap {n : Nat} (heap : n ∈ heapPages) : n / 2 ^ 27 = 384 := by
  rw [mem_heapPages] at heap
  omega

/-- The pages of `init_paging` lie in the slots of the direct map and of the kernel. -/
theorem slot_boot {total_mem : UInt64} (inKernel : InKernel sections) (small : total_mem.toNat < 2 ^ 45) {n : Nat}
    (hn : n < 2 ^ 36) (mapped : bootPage sections total_mem n ≠ none) : n / 2 ^ 27 ≠ 384 := by
  have place := page_of_boot inKernel hn mapped
  omega

theorem taken_clear_bytes (clear : ∀ j < 2 ^ 22, s.vmm_bitmap (UInt64.ofNat j) = 0) {i : UInt64} (inside : i.toNat < 2 ^ 25) :
    ¬ Taken s i := by
  rw [taken_iff_bit, ByteBitmap.Bit, clear _ (by omega)]
  simp

theorem core_of_paged (apart : Apart sections s₀.total_mem ownPages) (paged : Paged s₀ sections ownPages s) :
    Core s₀ sections ∅ s := by
  refine ⟨paged.ledger, paged.offset, fun n hn _ => paged.frames n hn, ?_, paged.none⟩
  intro n own
  have unmapped := paged.frames n (apart n own).1
  rw [(apart n own).2, frameOf_eq_none] at unmapped
  simp [unmapped]

/-- When `init_paging` is done, the rest of the boot stops only for want of a frame. -/
theorem booted_of_paged (inKernel : InKernel sections) (small : s₀.total_mem.toNat < 2 ^ 45)
    (start : s₀.last_allocated_index = 0) (paged : Paged s₀ sections ownPages s) :
    Post (fun _ => Booted s₀ sections) (Starved s₀) ((vmm_init >>= fun _ => vmm_setup_stack) s) := by
  have apart := apart_ownPages inKernel small
  apply post_bind
  refine (vmm_init_post (core_of_paged apart paged)).mono ?_ (fun _ _ starved => starved)
  intro _ mid cleared
  refine (vmm_setup_stack_post cleared.core).mono ?_ (fun _ _ starved => starved)
  intro _ s' stacked
  have empty : ∀ i : UInt64, i.toNat < 2 ^ 25 → ¬ Taken s' i := by
    intro i inside
    apply taken_clear_bytes _ inside
    rw [stacked.bits]
    exact cleared.clear
  have none : takenPages s' = ∅ := by
    ext n
    simp only [takenPages, Set.mem_ofPred_eq, Set.mem_empty_iff_false, iff_false]
    rintro ⟨i, inside, taken, _⟩
    exact empty i inside taken
  refine ⟨⟨?_, ?_⟩, empty, ?_⟩
  · rw [none, Set.union_empty]
    exact stacked.core
  · rw [stacked.cursor, cleared.cursor, paged.cursor, start]
    simp
  · have within : Within (bitmapPages ∪ stackPages) s s' :=
      (cleared.within.mono Set.subset_union_left).trans (stacked.within.mono Set.subset_union_right)
    intro q t nonempty short here n heap along
    have slot := slot_heap heap
    have hn : n < 2 ^ 36 := by
      rw [mem_heapPages] at heap
      omega
    rw [within.root] at here
    rcases within.only q t short here with old | ⟨m, region, other⟩
    · have path := (paged.paths q short).mp (by rw [old]; rfl)
      rcases mem_pathsOf.mp path with top | ⟨r, member, other⟩
      · exact nonempty top
      · have frame := (meets_boot inKernel small member).frame
        have hm : r.page < 2 ^ 36 := pageOf_lt _
        refine slot_boot inKernel small hm (by rw [frame]; simp) ?_
        rw [same_slot nonempty other along hm hn, slot]
    · have hm := (apart m (region.elim (fun bitmap => .inl (.inl bitmap)) (fun stack => .inr stack))).1
      have same := same_slot nonempty other along hm hn
      rcases region with bitmap | stack
      · rw [mem_bitmapPages] at bitmap
        omega
      · rw [mem_stackPages] at stack
        omega

end

/-! ## The boot -/

section
variable {image : Image} {mb2_addr : UInt64} {boot s : State} {tags : List Tag} {sections : List Elf64Shdr}

/-- A boot whose `init_pmm` accepted the block completes unless no frame is left or a
    table is out of reach. -/
theorem kernel_stage1_post (on : PowerOn boot) (block : Block boot mb2_addr tags)
    (done : init_pmm image mb2_addr boot = .ok () s) (found : elfOf tags = some sections) (inKernel : InKernel sections) :
    Post (fun _ => Booted s sections) Stops (kernel_stage1 image mb2_addr boot) := by
  have accepted := init_pmm_accepted done
  have start : s.last_allocated_index = 0 := by
    rw [accepted.rest]
    exact on.cursor
  rw [kernel_stage1, bind_ok done]
  apply post_bind
  refine (init_paging_paged ownPages on block done found inKernel (apart_ownPages inKernel accepted.total)).mono ?_
    (fun _ _ stops => stops)
  intro _ mid paged
  refine (booted_of_paged inKernel accepted.total start paged).mono (fun _ _ booted => booted) ?_
  rintro e s' ⟨rfl, full, _⟩
  exact .inl ⟨rfl, full⟩

/-- Every boot that completes leaves the booted state. -/
theorem kernel_stage1_booted (on : PowerOn boot) (block : Block boot mb2_addr tags)
    (inKernel : ∀ sections, elfOf tags = some sections → InKernel sections) :
    Post (fun _ s => ∃ s₀ sections, init_pmm image mb2_addr boot = .ok () s₀ ∧ elfOf tags = some sections ∧
        InKernel sections ∧ Booted s₀ sections s) (fun _ _ => True) (kernel_stage1 image mb2_addr boot) := by
  cases done : init_pmm image mb2_addr boot with
  | error e s =>
    rw [kernel_stage1, bind_error done]
    trivial
  | ok _ s₀ =>
    cases found : elfOf tags with
    | some sections =>
      refine (kernel_stage1_post on block done found (inKernel sections found)).mono ?_ (fun _ _ _ => trivial)
      intro _ s booted
      exact ⟨s₀, sections, rfl, rfl, inKernel sections found, booted⟩
    | none =>
      rw [kernel_stage1, bind_ok done]
      apply post_bind
      exact (init_paging_without_elf on block done found).mono (fun _ _ impossible => impossible.elim) (fun _ _ _ => trivial)

end

end Extron.Startup
