import Extron.Library.Footprint
import Extron.Pmm

/-!
The four walks over the multiboot2 block with every byte that they read there and
every tag and memory-map entry that they reach, also the bytes of a module's string
that `kprintf` prints. The bytes of the frame bitmap are not part of the record.
Without it they are the functions of `pmm.c` and `paging.c` (`refines_init_pmm`,
`refines_find_elf_sections`).
-/
namespace Extron.Walks
open Extron.Multiboot Extron.Pmm Extron.Outcomes Extron.Footprint
set_option linter.unusedSimpArgs false

/-- The start of a round of one of the loops. -/
inductive Visit
  | tag (a : UInt64)
  | entry (a : UInt64)
deriving DecidableEq, Repr

/-- A kernel function that records the addresses it reads in the block. -/
abbrev Walk := Recording Halt State UInt64 Visit

/-! ## Reads -/

def read8 (a : UInt64) : Walk UInt8 := look [a] fun s => s.byte a
def read32 (a : UInt64) : Walk UInt32 := look [a, a + 1, a + 2, a + 3] fun s => s.read32 a
def read64 (a : UInt64) : Walk UInt64 :=
  look [a, a + 1, a + 2, a + 3, a + 4, a + 4 + 1, a + 4 + 2, a + 4 + 3] fun s => s.read64 a

def MULTIBOOT_TAG_TYPE_BASIC_MEMINFO : UInt32 := 4

/-! ## Loops -/

/-- `mb2_next`, and the same computation in `find_elf_sections`. -/
def mb2_next (tag : UInt64) : Walk UInt64 := do
  let size ← read32 (tag + 4)
  return tag + ((size + 7) &&& ~~~7).toUInt64

def walk_tags {α : Type} (body : UInt64 → α → Walk α) : Nat → UInt64 → α → Walk α
  | 0, _, _ => throw .spin
  | rounds + 1, tag, acc => do
    let type ← read32 tag
    if type = MULTIBOOT_TAG_TYPE_END then
      return acc
    else
      visit (.tag tag)
      let acc ← body tag acc
      let next ← mb2_next tag
      walk_tags body rounds next acc

def walk_entries (body : UInt64 → Walk Unit) (tag : UInt64) : Nat → UInt64 → Walk Unit
  | 0, _ => throw .spin
  | rounds + 1, entry => do
    let size ← read32 (tag + 4)
    if entry < tag + size.toUInt64 then
      visit (.entry entry)
      body entry
      let step ← read32 (tag + 8)
      walk_entries body tag rounds (entry + step.toUInt64)
    else pure ()

/-- What `"%s"` reads of a module's string. -/
def print_string : Nat → UInt64 → Walk Unit
  | 0, _ => throw .spin
  | rounds + 1, a => do
    let c ← read8 a
    if c = 0 then pure ()
    else print_string rounds (a + 1)

/-! ## The functions -/

def get_bitmap_location (image : Image) (mb2_addr : UInt64) : Walk Unit := do
  let highest_reserved_addr := image.kernel_end - KERNEL_VMA
  if mb2_addr ≥ ONE_GIB then
    plain (panic (.grubAboveGib mb2_addr))
  else
    let mb2_size ← read32 mb2_addr
    let mb2_end := mb2_addr + mb2_size.toUInt64
    let highest_reserved_addr := if mb2_end > highest_reserved_addr then mb2_end else highest_reserved_addr
    let highest_reserved_addr ← walk_tags locate addresses (mb2_addr + 8) highest_reserved_addr
    plain (modify fun s => { s with bmp_phys := highest_reserved_addr })
where
  locate (tag highest_reserved_addr : UInt64) : Walk UInt64 := do
    let type ← read32 tag
    if type = MULTIBOOT_TAG_TYPE_MODULE then
      -- the arguments of kprintf
      let _ ← read32 (tag + 8)
      let _ ← read32 (tag + 12)
      print_string addresses (tag + 16)
      let mod_end ← read32 (tag + 12)
      return if mod_end.toUInt64 > highest_reserved_addr then mod_end.toUInt64 else highest_reserved_addr
    else if type = MULTIBOOT_TAG_TYPE_BASIC_MEMINFO then
      let _ ← read32 (tag + 8)
      let _ ← read32 (tag + 12)
      return highest_reserved_addr
    else if type = MULTIBOOT_TAG_TYPE_MMAP then
      walk_entries track tag addresses (tag + 16)
      return highest_reserved_addr
    else
      return highest_reserved_addr
  track (entry : UInt64) : Walk Unit := do
    let addr ← read64 entry
    let len ← read64 (entry + 8)
    let type ← read32 (entry + 16)
    plain (modify fun s =>
      if addr + len > s.total_mem ∧ type = MULTIBOOT_MEMORY_AVAILABLE then { s with total_mem := addr + len } else s)

def release_entry (entry : UInt64) : Walk Unit := do
  let type ← read32 (entry + 16)
  if type = MULTIBOOT_MEMORY_AVAILABLE then
    let addr ← read64 entry
    let len ← read64 (entry + 8)
    plain (modify (pmm_mark_free_region addr len))
  else pure ()

/-- The second walk, which frees the available regions. -/
def release (tag : UInt64) (_ : Unit) : Walk Unit := do
  let type ← read32 tag
  if type = MULTIBOOT_TAG_TYPE_MMAP then walk_entries release_entry tag addresses (tag + 16)
  else pure ()

/-- The third walk, which reserves the modules. -/
def reserve (tag : UInt64) (_ : Unit) : Walk Unit := do
  let type ← read32 tag
  if type = MULTIBOOT_TAG_TYPE_MODULE then
    let mod_start ← read32 (tag + 8)
    let mod_end ← read32 (tag + 12)
    plain (modify (pmm_mark_used_region mod_start.toUInt64 (mod_end - mod_start).toUInt64))
  else pure ()

def init_pmm (image : Image) (mb2_addr : UInt64) : Walk Unit := do
  get_bitmap_location image mb2_addr
  plain (modify fun s => { s with bmp_phys := align_up s.bmp_phys PAGE_SIZE })
  let s ← look [] id
  let size := bitmap_size_bytes s
  if s.bmp_phys + size > ONE_GIB then
    plain (panic .bitmapAboveGib)
  else
    plain (modify (fill size))
    walk_tags release addresses (mb2_addr + 8) ()
    plain (modify (pmm_mark_used_region 0 0x100000))
    let kernel_len := image.kernel_end - image.kernel_start
    plain (modify (pmm_mark_used_region (image.kernel_start - KERNEL_VMA) kernel_len))
    let mb2_size ← read32 mb2_addr
    plain (modify (pmm_mark_used_region mb2_addr mb2_size.toUInt64))
    walk_tags reserve addresses (mb2_addr + 8) ()
    let s ← look [] id
    plain (modify (pmm_mark_used_region s.bmp_phys size))

def find_elf_sections (mb2_addr : UInt64) : Walk (Option UInt64) :=
  search addresses (mb2_addr + 8)
where
  search : Nat → UInt64 → Walk (Option UInt64)
    | 0, _ => throw .spin
    | rounds + 1, tag => do
      let type ← read32 tag
      if type = MULTIBOOT_TAG_TYPE_END then
        return none
      else
        visit (.tag tag)
        let type ← read32 tag
        if type = MULTIBOOT_TAG_TYPE_ELF_SECTIONS then
          return some tag
        else
          let next ← mb2_next tag
          search rounds next

/-! ## The record can be forgotten -/

section
variable {α : Type}

theorem refinesAt_next {s : State} {tag : UInt64} {f : UInt64 → Walk α} {y : Kernel α}
    (rest : RefinesAt s (f (Multiboot.mb2_next s tag)) y) : RefinesAt s (mb2_next tag >>= f) y :=
  fun _ _ b r ran => rest _ _ b r ran

theorem refines_walk_tags {body : UInt64 → α → Walk α} {body' : UInt64 → α → Kernel α}
    (same : ∀ tag acc, Refines (body tag acc) (body' tag acc)) (rounds : Nat) (tag : UInt64) (acc : α) :
    Refines (walk_tags body rounds tag acc) (Multiboot.walk_tags body' rounds tag acc) := by
  induction rounds generalizing tag acc with
  | zero => exact refines_throw _
  | succ rounds ih =>
    intro s
    refine refinesAt_look (refinesAt_get ?_)
    refine refinesAt_ite (fun _ => refines_pure _ s) (fun _ => refinesAt_visit ?_)
    refine refines_bind (same tag acc) (fun acc s => ?_) s
    exact refinesAt_next (refinesAt_get (ih _ acc s))

theorem refines_walk_entries {body : UInt64 → Walk Unit} {body' : UInt64 → Kernel Unit}
    (same : ∀ entry, Refines (body entry) (body' entry)) (tag : UInt64) (rounds : Nat) (entry : UInt64) :
    Refines (walk_entries body tag rounds entry) (Multiboot.walk_entries body' tag rounds entry) := by
  induction rounds generalizing entry with
  | zero => exact refines_throw _
  | succ rounds ih =>
    intro s
    refine refinesAt_look (refinesAt_get ?_)
    refine refinesAt_ite (fun _ => refinesAt_visit ?_) (fun _ => refines_pure _ s)
    refine refines_bind (same entry) (fun _ s => ?_) s
    exact refinesAt_look (refinesAt_get (ih _ s))

theorem still_print_string (rounds : Nat) (a : UInt64) {s : State} {reads : List UInt64} {visited : List Visit} {u : Unit}
    {r : Recorded State UInt64 Visit} (ran : print_string rounds a ⟨s, reads, visited⟩ = .ok u r) : r.state = s := by
  induction rounds generalizing a reads with
  | zero => cases ran
  | succ rounds ih =>
    have step : (if s.byte a = 0 then pure () else print_string rounds (a + 1) : Walk Unit) ⟨s, [a] ++ reads, visited⟩ =
        .ok u r := ran
    by_cases finish : s.byte a = 0
    · rw [if_pos finish] at step
      cases step
      rfl
    · rw [if_neg finish] at step
      exact ih _ step

theorem refines_track (entry : UInt64) :
    Refines (get_bitmap_location.track entry) (Pmm.get_bitmap_location.track entry) := by
  intro s
  refine refinesAt_look (refinesAt_look (refinesAt_look ?_))
  exact refines_plain _ s

theorem refines_locate (tag highest : UInt64) :
    Refines (get_bitmap_location.locate tag highest) (Pmm.get_bitmap_location.locate tag highest) := by
  intro s
  refine refinesAt_look (refinesAt_get ?_)
  refine refinesAt_ite (fun _ => ?_) (fun _ => ?_)
  · refine refinesAt_look (refinesAt_look (refinesAt_skip (fun _ _ _ _ => still_print_string _ _) fun _ => ?_))
    exact refinesAt_look (refines_pure _ s)
  · by_cases meminfo : s.read32 tag = MULTIBOOT_TAG_TYPE_BASIC_MEMINFO
    · have other : ¬ tag_type s tag = MULTIBOOT_TAG_TYPE_MMAP := by
        rw [tag_type, meminfo]
        decide
      rw [if_pos meminfo, if_neg other]
      exact refinesAt_look (refinesAt_look (refines_pure _ s))
    · rw [if_neg meminfo]
      refine refinesAt_ite (fun _ => ?_) (fun _ => refines_pure _ s)
      exact refines_bind (refines_walk_entries refines_track tag addresses _) (fun _ => refines_pure _) s

theorem refines_get_bitmap_location (image : Image) (mb2_addr : UInt64) :
    Refines (get_bitmap_location image mb2_addr) (Pmm.get_bitmap_location image mb2_addr) := by
  intro s
  rw [get_bitmap_location, Pmm.get_bitmap_location]
  by_cases high : mb2_addr ≥ ONE_GIB
  · simp only [if_pos high]
    exact refines_plain _ s
  · simp only [if_neg high]
    refine refinesAt_look (refinesAt_get ?_)
    exact refines_bind (refines_walk_tags refines_locate _ _ _) (fun _ => refines_plain _) s

/-- A change of the machine that the state decides upon. -/
theorem refinesAt_modify {s : State} {f g : State → State} (same : f s = g s) :
    RefinesAt s (plain (modify f) : Walk Unit) (modify g) := by
  intro reads visited a r ran
  cases ran
  show EStateM.Result.ok () (g s) = .ok () (f s)
  rw [same]

theorem refinesAt_nothing {s : State} {g : State → State} (same : g s = s) :
    RefinesAt s (pure () : Walk Unit) (modify g) := by
  intro reads visited a r ran
  cases ran
  show EStateM.Result.ok () (g s) = .ok () s
  rw [same]

theorem refines_release_entry (entry : UInt64) : Refines (release_entry entry) (Pmm.init_pmm.release_entry entry) := by
  intro s
  refine refinesAt_look ?_
  by_cases available : s.read32 (entry + 16) = MULTIBOOT_MEMORY_AVAILABLE
  · rw [if_pos available]
    exact refinesAt_look (refinesAt_look (refinesAt_modify (if_pos available).symm))
  · rw [if_neg available]
    exact refinesAt_nothing (if_neg available)

theorem refines_release (tag : UInt64) (acc : Unit) : Refines (release tag acc) (Pmm.init_pmm.release tag acc) := by
  intro s
  refine refinesAt_look (refinesAt_get ?_)
  exact refinesAt_ite (fun _ => refines_walk_entries refines_release_entry tag _ _ s) (fun _ => refines_pure _ s)

theorem refines_reserve (tag : UInt64) (acc : Unit) : Refines (reserve tag acc) (Pmm.init_pmm.reserve tag acc) := by
  intro s
  refine refinesAt_look ?_
  by_cases module : s.read32 tag = MULTIBOOT_TAG_TYPE_MODULE
  · rw [if_pos module]
    exact refinesAt_look (refinesAt_look (refinesAt_modify (if_pos module).symm))
  · rw [if_neg module]
    exact refinesAt_nothing (if_neg module)

theorem refines_init_pmm (image : Image) (mb2_addr : UInt64) :
    Refines (init_pmm image mb2_addr) (Pmm.init_pmm image mb2_addr) := by
  rw [init_pmm, Pmm.init_pmm]
  refine refines_bind (refines_get_bitmap_location image mb2_addr) fun _ => ?_
  refine refines_bind (refines_plain _) fun _ s => ?_
  refine refinesAt_look (refinesAt_get ?_)
  dsimp only [id]
  by_cases above : s.bmp_phys + bitmap_size_bytes s > ONE_GIB
  · rw [if_pos above, if_pos above]
    exact refines_plain _ s
  · rw [if_neg above, if_neg above]
    refine refines_bind (refines_plain _) (fun _ => ?_) s
    refine refines_bind (refines_walk_tags refines_release _ _ _) fun _ => ?_
    refine refines_bind (refines_plain _) fun _ => ?_
    refine refines_bind (refines_plain _) fun _ s => ?_
    refine refinesAt_look (refinesAt_get ?_)
    refine refines_bind (refines_plain _) (fun _ => ?_) s
    refine refines_bind (refines_walk_tags refines_reserve _ _ _) fun _ s => ?_
    exact refinesAt_look (refinesAt_get (refines_plain _ s))

end

theorem refines_search (rounds : Nat) (tag : UInt64) :
    Refines (find_elf_sections.search rounds tag) (Multiboot.find_elf_sections.search rounds tag) := by
  induction rounds generalizing tag with
  | zero => exact refines_throw _
  | succ rounds ih =>
    intro s
    refine refinesAt_look (refinesAt_get ?_)
    refine refinesAt_ite (fun _ => refines_pure _ s) (fun _ => refinesAt_visit (refinesAt_look ?_))
    exact refinesAt_ite (fun _ => refines_pure _ s) (fun _ => refinesAt_next (ih _ s))

theorem refines_find_elf_sections (mb2_addr : UInt64) :
    Refines (find_elf_sections mb2_addr) (Multiboot.find_elf_sections mb2_addr) := refines_search _ _

end Extron.Walks
