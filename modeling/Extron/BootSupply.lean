import Extron.Startup
import Extron.Supply

/-!
A boot with frames enough completes. `init_paging` uses one frame for each table that
its pages need, and none of it stops when the first GiB has so many; the pages of the
heap bitmap and of the stack use one frame each and those of their tables.
-/
namespace Extron.BootSupply
open Extron.RadixTree Extron.Multiboot Extron.Format Extron.Pmm Extron.InitPmm Extron.FreeSet Extron.Paging
open Extron.AddressSpace Extron.Accounting Extron.BootJobs Extron.BootMap Extron.EarlyTables Extron.KernelMap Extron.Regions
open Extron.Vmm Extron.OwnPages Extron.Startup Extron.Supply Extron.Outcomes
set_option linter.unusedSimpArgs false

/-! ## `init_paging` -/

section
variable {image : Image} {mb2_addr : UInt64} {boot s : State} {tags : List Tag} {sections : List Elf64Shdr}

/-- `init_paging` returns when the first GiB has a free frame for every table. -/
theorem init_paging_ok (own : Set Nat) (on : PowerOn boot) (block : Block boot mb2_addr tags)
    (done : init_pmm image mb2_addr boot = .ok () s) (found : elfOf tags = some sections) (inKernel : InKernel sections)
    (apart : Apart sections s.total_mem own) (fits : tablesNeeded (elfOf tags) s.total_mem ≤ lowFree s) :
    ∃ s', init_paging mb2_addr s = .ok () s' ∧ Paged s sections own s' := by
  have accepted := init_pmm_accepted done
  have memory : s.total_mem.toNat ≤ 2 ^ 52 := by
    have := accepted.total
    omega
  have readable := readable_of_done on block done
  have zero : ¬ Free s 0 := fun free => free.2 (accepted.low 0 (by decide))
  have some := tablesNeeded_pos (elfOf tags) s.total_mem
  have paged := init_paging_paged own on block done found inKernel apart
  rcases init_paging_cases block readable zero with ⟨k, least, near, runs⟩ | ⟨k, least, far, runs⟩ | ⟨full, runs⟩
  · rw [found] at runs fits
    have served := serve_post (bootJobs sections s.total_mem)
      (fun _ _ _ _ member => ⟨proper_bootJobs member, Set.notMem_empty _⟩) (serving_rooted ∅ memory zero (by simp) least near)
    cases ran : serve (idx_to_addr k) (bootJobs sections s.total_mem) (rooted k s) with
    | ok _ mid =>
      have returns := runs.trans (bind_ok ran)
      exact ⟨_, returns, paged.of_ok returns⟩
    | error e mid =>
      exfalso
      have ended := served.of_error ran
      rw [settled_boot inKernel accepted.total] at ended
      obtain ⟨_, _, _, next, serving, stuck⟩ := stuck_of_ended inKernel accepted.total ended
      rw [tablesNeeded, settled_boot inKernel accepted.total] at fits
      exact not_stuck memory next serving fits stuck
  · obtain ⟨none, _⟩ := root_far memory least far
    omega
  · have none : lowFree s = 0 := by
      rw [lowFree, Finset.card_eq_zero, Finset.filter_eq_empty_iff]
      exact fun i _ => full i
    omega

/-- The frames that `init_paging` used are those of its tables. -/
theorem free_paged {s₀ : State} {own : Set Nat} (paged : Paged s₀ sections own s) (apart : Apart sections s₀.total_mem own) :
    (freeFrames s₀).card ≤ (freeFrames s).card + (pathsOf (bootRequests sections s₀.total_mem)).card := by
  have covered : freeFrames s₀ ⊆ freeFrames s ∪ (pathsOf (bootRequests sections s₀.total_mem)).image fun q =>
      addr_to_idx ((table s.kernel_pml4 s q).getD 0) := by
    intro k member
    have free := mem_freeFrames.mp member
    rw [Finset.mem_union]
    by_cases marked : Marked s k
    · rcases (paged.ledger.accounts.used k).mp marked with old | ⟨h, holds⟩
      · exact absurd old free.2
      · cases h with
        | table q =>
          obtain ⟨short, t, reached, rfl⟩ := holds
          refine .inr (Finset.mem_image.mpr ⟨q, (paged.paths q short).mp (by rw [reached]; rfl), ?_⟩)
          rw [reached]
          rfl
        | page n =>
          obtain ⟨mine, f, here, _⟩ := holds
          rw [paged.frames n (apart n mine).1, (apart n mine).2] at here
          cases here
        | hand j => exact absurd holds.1 (Set.notMem_empty j)
    · exact .inl (mem_freeFrames.mpr ⟨by rw [paged.ledger.total]; exact free.1, marked⟩)
  exact (Finset.card_le_card covered).trans ((Finset.card_union_le _ _).trans (Nat.add_le_add_left Finset.card_image_le _))

end

/-! ## The pages of the heap bitmap and of the stack -/

/-- The paths include those of all tables that `vmm_init` and `vmm_setup_stack` need. -/
structure Covers (paths : Finset (List (Fin 512))) : Prop where
  short : ∀ q ∈ paths, q.length ≤ 3
  bitmap : ∀ k < 2 ^ 10, ∀ q, q ≠ [] → q <+: dir (bitmapPage k) → q ∈ paths
  stack : ∀ k < 2 ^ 10, ∀ q, q ≠ [] → q <+: dir (stackPage k) → q ∈ paths

theorem covers_pathsTo {pages : Finset Nat} (bitmap : ∀ k < 2 ^ 10, bitmapPage k ∈ pages)
    (stack : ∀ k < 2 ^ 10, stackPage k ∈ pages) : Covers (pathsTo pages) :=
  ⟨short_pathsTo, fun k inside _ nonempty along => mem_pathsTo.mpr ⟨nonempty, _, bitmap k inside, along⟩,
    fun k inside _ nonempty along => mem_pathsTo.mpr ⟨nonempty, _, stack k inside, along⟩⟩

/-- Three tables for each page are enough. -/
theorem exists_covers : ∃ paths, Covers paths ∧ paths.card ≤ 3 * 2 ^ 11 := by
  obtain ⟨pages, first, second, few⟩ : ∃ pages : Finset Nat, (∀ k < 2 ^ 10, bitmapPage k ∈ pages) ∧
      (∀ k < 2 ^ 10, stackPage k ∈ pages) ∧ pages.card ≤ 2 ^ 11 := by
    refine ⟨(Finset.range (2 ^ 10)).image bitmapPage ∪ (Finset.range (2 ^ 10)).image stackPage, ?_, ?_, ?_⟩
    · intro k inside
      exact Finset.mem_union_left _ (Finset.mem_image_of_mem _ (Finset.mem_range.mpr inside))
    · intro k inside
      exact Finset.mem_union_right _ (Finset.mem_image_of_mem _ (Finset.mem_range.mpr inside))
    · refine (Finset.card_union_le _ _).trans ?_
      have left := Finset.card_image_le (s := Finset.range (2 ^ 10)) (f := bitmapPage)
      have right := Finset.card_image_le (s := Finset.range (2 ^ 10)) (f := stackPage)
      rw [Finset.card_range] at left right
      omega
  have three := card_pathsTo pages
  exact ⟨pathsTo pages, covers_pathsTo first second, by omega⟩

section
variable {s₀ s start : State} {sections : List Elf64Shdr} {filled : Set Nat} {paths : Finset (List (Fin 512))}

/-- A page that gets a frame takes one from the supply, and finds one while the supply is
    more than the tables. -/
theorem spends {v : UInt64} {noFrame : Panic} {notMapped : Option Panic} (core : Core s₀ sections filled s)
    (own : pageOf v ∈ ownPages) (fresh : pageOf v ∉ filled) (short : ∀ q ∈ paths, q.length ≤ 3)
    (wanted : ∀ q, q ≠ [] → q <+: dir (pageOf v) → q ∈ paths)
    (enough : paths.card < supply paths s.kernel_pml4 s) :
    Post (fun _ s' => supply paths s.kernel_pml4 s' + 1 = supply paths s.kernel_pml4 s) (fun _ _ => False)
      (fill_page v noFrame notMapped s) := by
  have tree := core.ledger.tree
  refine (fill_unmapped tree core.reach (core.unmapped own fresh)).mono ?_ ?_
  · rintro _ s' ⟨placed, _⟩
    exact supply_placed short wanted tree placed
  · rintro e s' ⟨_, out⟩
    have few := supply_short short wanted tree out
    omega

/-- The loop that maps the heap bitmap, after `k` rounds, with what it spent. -/
structure BitmapPaid (paths : Finset (List (Fin 512))) (s₀ : State) (sections : List Elf64Shdr) (start : State) (k : Nat) (s : State) : Prop where
  mapped : BitmapMapped s₀ sections start k s
  spent : supply paths start.kernel_pml4 s + k = supply paths start.kernel_pml4 start

theorem bitmap_round {k : Nat} (covers : Covers paths) (inside : k < 2 ^ 10) (enough : paths.card + k < supply paths start.kernel_pml4 start)
    (here : BitmapPaid paths s₀ sections start k s) :
    Post (fun _ => BitmapPaid paths s₀ sections start (k + 1)) (fun _ _ => False) (vmm_init.map_page k s) := by
  obtain ⟨mapped, spent⟩ := here
  have page := bitmap_address inside
  have root := mapped.within.root
  have own : bitmapPage k ∈ ownPages := .inl (.inl (by rw [mem_bitmapPages, bitmapPage]; omega))
  have fresh : bitmapPage k ∉ Set.Ico (bitmapPage 0) (bitmapPage 0 + k) := by
    rw [Set.mem_Ico, bitmapPage, bitmapPage]
    omega
  have wanted := covers.bitmap k inside
  rw [← page] at own fresh wanted
  have takes : Post _ _ (vmm_init.map_page k s) := spends mapped.core own fresh covers.short wanted (by rw [root]; omega)
  refine ((map_bitmap_round inside mapped).and takes).mono ?_ (fun _ _ both => both.2)
  rintro _ s' ⟨mapped', taken⟩
  rw [root] at taken
  exact ⟨mapped', by omega⟩

/-- The loop that clears the heap bitmap spends nothing. -/
structure BitmapKept (paths : Finset (List (Fin 512))) (s₀ : State) (sections : List Elf64Shdr) (start : State) (k : Nat) (s : State) : Prop where
  cleared : BitmapCleared s₀ sections start k s
  spent : supply paths start.kernel_pml4 s + 2 ^ 10 = supply paths start.kernel_pml4 start

theorem clear_round {k : Nat} (inside : k < 2 ^ 22) (here : BitmapKept paths s₀ sections start k s) :
    Post (fun _ => BitmapKept paths s₀ sections start (k + 1)) (fun _ _ => False) (vmm_init.clear_byte k s) := by
  obtain ⟨cleared, spent⟩ := here
  have byte : (UInt64.ofNat k).toNat = k := by
    rw [UInt64.toNat_ofNat']
    omega
  have runs : vmm_init.clear_byte k s = .ok () (Vmm.setByte (UInt64.ofNat k) 0 s) :=
    bind_ok (touch_ok cleared.core subset_rfl (by omega))
  have round := clear_byte_round inside cleared
  rw [runs] at round ⊢
  exact ⟨round, spent⟩

theorem vmm_init_supply (covers : Covers paths) (core : Core s₀ sections ∅ s) (enough : paths.card + 2 ^ 10 ≤ supply paths s.kernel_pml4 s) :
    Post (fun _ => BitmapKept paths s₀ sections s (2 ^ 22)) (fun _ _ => False) (vmm_init s) := by
  have pages : ((KERNEL_HEAP_BITMAP_SIZE + PAGE_SIZE - 1) / PAGE_SIZE).toNat = 2 ^ 10 := by decide
  have bytes : KERNEL_HEAP_BITMAP_SIZE.toNat = 2 ^ 22 := rfl
  rw [vmm_init]
  simp only [pages, bytes]
  apply post_bind
  refine (post_times (BitmapPaid paths s₀ sections s) (2 ^ 10) (fun k _ inside here => bitmap_round covers inside (by omega) here)
    (2 ^ 10) 0 s rfl ⟨⟨core.congr (by simp), .refl s, rfl⟩, Nat.add_zero _⟩).mono ?_ (fun _ _ impossible => impossible)
  rintro _ mid ⟨mapped, spent⟩
  have whole : Core s₀ sections bitmapPages mid := mapped.core
  exact post_times (BitmapKept paths s₀ sections s) (2 ^ 22) (fun k _ inside here => clear_round inside here) (2 ^ 22) 0 mid rfl
    ⟨⟨whole, mapped.within, mapped.cursor, by simp⟩, spent⟩

/-- The loop that maps the stack, after `k` rounds, with what it spent. -/
structure StackPaid (paths : Finset (List (Fin 512))) (s₀ : State) (sections : List Elf64Shdr) (start : State) (k : Nat) (s : State) : Prop where
  mapped : StackMapped s₀ sections start k s
  spent : supply paths start.kernel_pml4 s + k = supply paths start.kernel_pml4 start

theorem stack_round {k : Nat} (covers : Covers paths) (inside : k < 2 ^ 10) (enough : paths.card + k < supply paths start.kernel_pml4 start)
    (here : StackPaid paths s₀ sections start k s) : Post (fun _ => StackPaid paths s₀ sections start (k + 1)) (fun _ _ => False)
      (fill_page (KERNEL_STACK_RANGE_START + KERNEL_STACK_GUARD + UInt64.ofNat (4096 * k)) .stackAlloc (some .stackMap) s) := by
  obtain ⟨mapped, spent⟩ := here
  have page := pageOf_stack inside
  have root := mapped.within.root
  have own : stackPage k ∈ ownPages := .inr (by rw [mem_stackPages, stackPage]; omega)
  have fresh : stackPage k ∉ bitmapPages ∪ Set.Ico (stackPage 0) (stackPage 0 + k) := by
    rw [Set.mem_union, mem_bitmapPages, Set.mem_Ico, stackPage, stackPage]
    omega
  have wanted := covers.stack k inside
  rw [← page] at own fresh wanted
  refine ((map_stack_round inside mapped).and (spends mapped.core own fresh covers.short wanted (by rw [root]; omega))).mono ?_
    (fun _ _ both => both.2)
  rintro _ s' ⟨mapped', taken⟩
  rw [root] at taken
  exact ⟨mapped', by omega⟩

theorem vmm_setup_stack_supply (covers : Covers paths) (core : Core s₀ sections bitmapPages s)
    (enough : paths.card + 2 ^ 10 ≤ supply paths s.kernel_pml4 s) :
    Post (fun _ => StackPaid paths s₀ sections s (2 ^ 10)) (fun _ _ => False) (vmm_setup_stack s) := by
  rw [vmm_setup_stack]
  apply post_bind
  refine (post_for_pages (StackPaid paths s₀ sections s) (by simp : _ = 4096 * 2 ^ 10) (by simp)
    (fun k _ inside here => stack_round covers inside (by omega) here) addresses 0 s (by decide) (by simp [addresses]) ?_).mono
    (fun _ _ here => here) (fun _ _ impossible => impossible)
  refine ⟨⟨?_, .refl s, rfl, rfl⟩, Nat.add_zero _⟩
  simpa using core

theorem supply_le (paths : Finset (List (Fin 512))) (s : State) (root : UInt64) :
    (freeFrames s).card ≤ supply paths root s ∧ supply paths root s ≤ (freeFrames s).card + paths.card :=
  ⟨Nat.le_add_right _ _, Nat.add_le_add_left (Finset.card_filter_le _ _) _⟩

/-- With frames enough the rest of the boot completes, and spends at most one frame for
    each page and each table. -/
theorem booted_of_supply (inKernel : InKernel sections) (small : s₀.total_mem.toNat < 2 ^ 45)
    (cursor : s₀.last_allocated_index = 0) (paged : Paged s₀ sections ownPages s) (enough : 2 ^ 13 ≤ (freeFrames s).card) :
    ∃ v s', (vmm_init >>= fun _ => vmm_setup_stack) s = .ok v s' ∧ Booted s₀ sections s' ∧
      s'.last_allocated_index = 0 ∧ (freeFrames s).card ≤ (freeFrames s').card + 2 ^ 13 := by
  have apart := apart_ownPages inKernel small
  have core : Core s₀ sections ∅ s := core_of_paged apart paged
  obtain ⟨paths, covers, few⟩ := exists_covers
  obtain ⟨most, _⟩ := supply_le paths s s.kernel_pml4
  obtain ⟨_, mid, initRun, cleared, spentInit⟩ := (vmm_init_supply covers core (by omega)).returns
  have initRoot := cleared.within.root
  obtain ⟨v, s', stackRun, stacked, spentStack⟩ := (vmm_setup_stack_supply covers cleared.core (by rw [initRoot]; omega)).returns
  rw [initRoot] at spentStack
  obtain ⟨_, left⟩ := supply_le paths s' s.kernel_pml4
  have runs : (vmm_init >>= fun _ => vmm_setup_stack) s = .ok v s' := (bind_ok initRun).trans stackRun
  refine ⟨v, s', runs, (booted_of_paged inKernel small cursor paged).of_ok runs, ?_, by omega⟩
  rw [stacked.cursor, cleared.cursor, paged.cursor, cursor]

end

/-! ## The boot -/

section
variable {image : Image} {mb2_addr : UInt64} {boot s : State} {tags : List Tag} {sections : List Elf64Shdr}

/-- A boot completes when the first GiB has a free frame for each table of `init_paging`
    and as many frames are free as these tables and the pages that follow need. -/
theorem kernel_stage1_ok (on : PowerOn boot) (block : Block boot mb2_addr tags)
    (done : init_pmm image mb2_addr boot = .ok () s) (found : elfOf tags = some sections) (inKernel : InKernel sections)
    (fits : tablesNeeded (elfOf tags) s.total_mem ≤ lowFree s)
    (enough : tablesNeeded (elfOf tags) s.total_mem + 2 ^ 13 ≤ (freeFrames s).card) :
    ∃ v s', kernel_stage1 image mb2_addr boot = .ok v s' ∧ Booted s sections s' ∧ s'.last_allocated_index = 0 ∧
      (freeFrames s).card ≤ (freeFrames s').card + tablesNeeded (elfOf tags) s.total_mem + 2 ^ 13 := by
  have accepted := init_pmm_accepted done
  have small := accepted.total
  have cursor : s.last_allocated_index = 0 := by
    rw [accepted.rest]
    exact on.cursor
  have apart := apart_ownPages inKernel small
  have needed : (pathsOf (bootRequests sections s.total_mem)).card = tablesNeeded (elfOf tags) s.total_mem := by
    rw [found, tablesNeeded, settled_boot inKernel small]
  obtain ⟨mid, paging, paged⟩ := init_paging_ok ownPages on block done found inKernel apart fits
  have spent := free_paged paged apart
  obtain ⟨v, s', rest, booted, start, left⟩ := booted_of_supply inKernel small cursor paged (by omega)
  have runs : kernel_stage1 image mb2_addr boot = .ok v s' := by
    rw [kernel_stage1, bind_ok done, bind_ok paging]
    exact rest
  exact ⟨v, s', runs, booted, start, by omega⟩

end

end Extron.BootSupply
