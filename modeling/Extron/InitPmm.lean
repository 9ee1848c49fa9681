import Extron.Pmm
import Extron.Format

/-!
What `init_pmm` leaves behind. Whatever the memory holds, a run that returns has
accepted less than 2^45 bytes of memory and marked the first mebibyte. On a
well-formed multiboot2 block the run is determined: the bitmap starts above the
kernel, the block and every module, and a bit is clear exactly when some available
entry holds its whole page and nothing reserved touches it.
-/
namespace Extron.InitPmm
open Extron.Multiboot Extron.Pmm Extron.Format Extron.Outcomes
set_option linter.unusedSimpArgs false

/-- The statics of the memory manager before anything ran. -/
structure PowerOn (s : State) : Prop where
  total : s.total_mem = 0
  offset : s.g_hhdm_offset = 0
  cursor : s.last_allocated_index = 0
  journal : s.journal = []

/-- The kernel image as physical memory starts at 1 MiB and ends below 2 GiB. -/
theorem phys_start (image : Image) : (image.kernel_start - KERNEL_VMA).toNat = 2 ^ 20 := by
  rw [Image.kernel_start]
  rfl

theorem phys_end (image : Image) : (image.kernel_end - KERNEL_VMA).toNat = image.kernel_end.toNat - (2 ^ 64 - 2 ^ 31) ∧
    2 ^ 64 - 2 ^ 31 + 2 ^ 20 ≤ image.kernel_end.toNat := by
  have start := image.ordered
  have first : (KERNEL_VMA + 0x100000).toNat = 2 ^ 64 - 2 ^ 31 + 2 ^ 20 := by decide
  rw [UInt64.le_iff_toNat_le, first] at start
  have := image.kernel_end.toNat_lt
  refine ⟨?_, start⟩
  rw [UInt64.toNat_sub, toNat_KERNEL_VMA]
  omega

/-! ## Phases -/

/-- The state once the bitmap is placed on a page boundary. -/
def placed (s : State) : State := { s with bmp_phys := align_up s.bmp_phys PAGE_SIZE }

/-- The first mebibyte, the kernel image and the multiboot2 block are marked. -/
def keepBoot (image : Image) (mb2_addr : UInt64) (s : State) : State :=
  let low := pmm_mark_used_region (image.kernel_start - KERNEL_VMA) (image.kernel_end - image.kernel_start)
    (pmm_mark_used_region 0 0x100000 s)
  pmm_mark_used_region mb2_addr (low.read32 mb2_addr).toUInt64 low

/-- A run of `init_pmm` that returns passes through these states. -/
structure Phases (image : Image) (mb2_addr : UInt64) (s located released reserved s' : State) : Prop where
  locate : get_bitmap_location image mb2_addr s = .ok () located
  fits : (placed located).bmp_phys + bitmap_size_bytes (placed located) ≤ ONE_GIB
  release : walk_tags init_pmm.release addresses (mb2_addr + 8) ()
    (fill (bitmap_size_bytes (placed located)) (placed located)) = .ok () released
  reserve : walk_tags init_pmm.reserve addresses (mb2_addr + 8) () (keepBoot image mb2_addr released) = .ok () reserved
  bitmap : s' = pmm_mark_used_region reserved.bmp_phys (bitmap_size_bytes (placed located)) reserved

theorem init_pmm_phases {image : Image} {mb2_addr : UInt64} {s s' : State} (done : init_pmm image mb2_addr s = .ok () s') :
    ∃ located released reserved, Phases image mb2_addr s located released reserved s' := by
  unfold init_pmm at done
  obtain ⟨_, located, locate, done⟩ := bind_eq_ok.mp done
  simp only [modify_bind, get_bind] at done
  split at done
  · simp only [panic_bind] at done
    cases done
  · rename_i fits
    simp only [pure_bind, modify_bind] at done
    obtain ⟨_, released, release, done⟩ := bind_eq_ok.mp done
    simp only [modify_bind, get_bind] at done
    obtain ⟨_, reserved, reserve, done⟩ := bind_eq_ok.mp done
    simp only [get_bind, run_modify] at done
    cases done
    exact ⟨located, released, reserved, locate, UInt64.not_lt.mp fits, release, reserve, rfl⟩

/-! ## Any memory -/

/-- What a walk's body preserves, the walk preserves, whatever the memory holds. -/
theorem post_walk_tags_any {α : Type} {P : α → State → Prop} {E : Halt → State → Prop} {body : UInt64 → α → Kernel α}
    (spins : ∀ acc s, P acc s → E .spin s) (round : ∀ tag acc s, P acc s → Post P E (body tag acc s)) (rounds : Nat)
    (tag : UInt64) (acc : α) (s : State) (here : P acc s) : Post P E (walk_tags body rounds tag acc s) := by
  induction rounds generalizing tag acc s with
  | zero => exact spins acc s here
  | succ rounds ih =>
    simp only [walk_tags, get_bind]
    split
    · exact here
    · apply post_bind
      refine (round tag acc s here).mono ?_ (fun _ _ stopped => stopped)
      intro acc mid after
      exact ih _ acc mid after

theorem post_walk_entries_any {P : State → Prop} {E : Halt → State → Prop} {body : UInt64 → Kernel Unit}
    (spins : ∀ s, P s → E .spin s) (round : ∀ e s, P s → Post (fun _ => P) E (body e s)) (rounds : Nat) (tag e : UInt64)
    (s : State) (here : P s) : Post (fun _ => P) E (walk_entries body tag rounds e s) := by
  induction rounds generalizing e s with
  | zero => exact spins s here
  | succ rounds ih =>
    simp only [walk_entries, get_bind]
    split
    · apply post_bind
      refine (round e s here).mono ?_ (fun _ _ stopped => stopped)
      intro _ mid after
      exact ih _ mid after
    · exact here

/-- `s'` differs from `s` at most in what `get_bitmap_location` computes. -/
def Located (s s' : State) : Prop := s' = { s with total_mem := s'.total_mem, bmp_phys := s'.bmp_phys }

theorem located_track {s s' : State} (here : Located s s') (entry : UInt64) :
    Post (fun _ => Located s) (fun _ _ => True) (get_bitmap_location.track entry s') := by
  simp only [get_bitmap_location.track, run_modify, Post]
  split
  · rw [Located] at here ⊢
    rw [here]
  · exact here

/-- What the walk of `get_bitmap_location` keeps: the highest reserved address is
    never below the kernel's end and always below 8 GiB. -/
def Searching (image : Image) (s : State) (highest : UInt64) (s' : State) : Prop :=
  Located s s' ∧ (image.kernel_end - KERNEL_VMA).toNat ≤ highest.toNat ∧ highest.toNat < 2 ^ 33

theorem searching_locate {image : Image} {s s' : State} {highest : UInt64} (here : Searching image s highest s')
    (tag : UInt64) : Post (Searching image s) (fun _ _ => True) (get_bitmap_location.locate tag highest s') := by
  obtain ⟨located, above, bound⟩ := here
  simp only [get_bitmap_location.locate, get_bind]
  split
  · have small := (mod_end s' tag).toNat_lt
    show Searching image s _ s'
    split
    · rename_i higher
      rw [gt_iff_lt, UInt64.lt_iff_toNat_lt, UInt32.toNat_toUInt64] at higher
      refine ⟨located, ?_, ?_⟩
      · rw [UInt32.toNat_toUInt64]; omega
      · rw [UInt32.toNat_toUInt64]; omega
    · exact ⟨located, above, bound⟩
  · split
    · apply post_bind
      have walked := post_walk_entries_any (P := Located s) (E := fun _ _ => True) (fun _ _ => trivial)
        (fun e s' here => located_track here e) addresses tag (mmap_entries tag) s' located
      exact walked.mono (fun _ after here => ⟨here, above, bound⟩) (fun _ _ stopped => stopped)
    · exact ⟨located, above, bound⟩

/-- Wherever the kernel, the block and the modules end, it is below 8 GiB. -/
theorem get_bitmap_location_any {image : Image} {mb2_addr : UInt64} {s s' : State}
    (done : get_bitmap_location image mb2_addr s = .ok () s') :
    mb2_addr < ONE_GIB ∧ Searching image s s'.bmp_phys s' := by
  obtain ⟨kernelEnd, kernelStart⟩ := phys_end image
  have kernelTop := image.kernel_end.toNat_lt
  unfold get_bitmap_location at done
  split at done
  · simp only [panic_bind] at done
    cases done
  · rename_i below
    simp only [pure_bind, get_bind] at done
    obtain ⟨highest, mid, walk, done⟩ := bind_eq_ok.mp done
    simp only [run_modify] at done
    cases done
    have low : mb2_addr.toNat < 2 ^ 30 := by
      simpa [UInt64.lt_iff_toNat_lt] using below
    have size := (s.read32 mb2_addr).toNat_lt
    have blockEnd : (mb2_addr + (s.read32 mb2_addr).toUInt64).toNat = mb2_addr.toNat + (s.read32 mb2_addr).toNat := by
      rw [UInt64.toNat_add, UInt32.toNat_toUInt64]
      omega
    have start : Searching image s (if mb2_addr + (s.read32 mb2_addr).toUInt64 > image.kernel_end - KERNEL_VMA then
        mb2_addr + (s.read32 mb2_addr).toUInt64 else image.kernel_end - KERNEL_VMA) s := by
      refine ⟨rfl, ?_⟩
      split
      · rename_i higher
        rw [gt_iff_lt, UInt64.lt_iff_toNat_lt] at higher
        omega
      · omega
    obtain ⟨located, above, bound⟩ := (post_walk_tags_any (fun _ _ _ => trivial)
      (fun tag _ _ here => searching_locate here tag) addresses (mb2_addr + 8) _ s start).of_ok walk
    refine ⟨UInt64.not_le.mp below, ?_, above, bound⟩
    rw [Located] at located ⊢
    rw [located]

theorem bitmap_size (s : State) :
    (bitmap_size_bytes s).toNat = (s.total_mem.toNat / 4096 / 8 + 4095) / 4096 * 4096 := by
  have pages : (addr_to_idx s.total_mem / 8).toNat = s.total_mem.toNat / 4096 / 8 := by
    rw [UInt64.toNat_div, addr_to_idx, UInt64.toNat_div, toNat_PAGE_SIZE]
    rfl
  have total := s.total_mem.toNat_lt
  rw [bitmap_size_bytes, toNat_align_up _ (by omega), pages]

theorem small_size (s : State) : (bitmap_size_bytes s).toNat ≤ 2 ^ 61 := by
  have size := bitmap_size s
  have total := s.total_mem.toNat_lt
  omega

section
variable {image : Image} {mb2_addr : UInt64} {s located released reserved s' : State}

theorem bitmapOnly_release {s s' : State} (here : BitmapOnly s s') (tag : UInt64) :
    Post (fun _ => BitmapOnly s) (fun _ _ => True) (init_pmm.release tag () s') := by
  simp only [init_pmm.release, get_bind]
  split
  · refine post_walk_entries_any (fun _ _ => trivial) ?_ addresses _ _ s' here
    intro e s' here
    simp only [init_pmm.release_entry, run_modify, Post]
    split
    · exact here.trans (bitmapOnly_free _ _ _)
    · exact here
  · exact here

theorem bitmapOnly_keepBoot (image : Image) (mb2_addr : UInt64) (s : State) : BitmapOnly s (keepBoot image mb2_addr s) :=
  ((bitmapOnly_used _ _ _).trans (bitmapOnly_used _ _ _)).trans (bitmapOnly_used _ _ _)

theorem marked_used_mono {start length j : UInt64} {s : State} (marked : Marked s j) :
    Marked (pmm_mark_used_region start length s) j :=
  marked_each_set_mono marked

/-- The body that reserves modules touches the bitmap only and never clears a bit. -/
theorem reserve_keeps {s s' : State} (here : BitmapOnly s s' ∧ ∀ j, Marked s j → Marked s' j) (tag : UInt64) :
    Post (fun _ s' => BitmapOnly s s' ∧ ∀ j, Marked s j → Marked s' j) (fun _ _ => True)
      (init_pmm.reserve tag () s') := by
  simp only [init_pmm.reserve, run_modify, Post]
  split
  · exact ⟨here.1.trans (bitmapOnly_used _ _ _), fun j marked => marked_used_mono (here.2 j marked)⟩
  · exact here

/-- The bitmap lies on a page boundary above the kernel and ends within the first GiB. -/
theorem placed_bounds (phases : Phases image mb2_addr s located released reserved s') :
    (placed located).bmp_phys.toNat % 4096 = 0 ∧ located.bmp_phys.toNat ≤ (placed located).bmp_phys.toNat ∧
      (placed located).bmp_phys.toNat < located.bmp_phys.toNat + 4096 ∧
      (placed located).bmp_phys.toNat + (bitmap_size_bytes (placed located)).toNat ≤ 2 ^ 30 ∧
      located.total_mem.toNat < 2 ^ 45 := by
  obtain ⟨_, _, above, bound⟩ := get_bitmap_location_any phases.locate
  obtain ⟨kernelEnd, kernelStart⟩ := phys_end image
  have start : (placed located).bmp_phys.toNat = (located.bmp_phys.toNat + 4095) / 4096 * 4096 :=
    toNat_align_up _ (by omega)
  have size := bitmap_size (placed located)
  have total : (placed located).total_mem = located.total_mem := rfl
  have totalBound := located.total_mem.toNat_lt
  have fits := phases.fits
  rw [UInt64.le_iff_toNat_le, UInt64.toNat_add, toNat_ONE_GIB] at fits
  rw [total] at size
  omega

/-- After the bitmap is placed, the run changes only the bitmap. -/
theorem bitmapOnly_released (phases : Phases image mb2_addr s located released reserved s') :
    BitmapOnly (fill (bitmap_size_bytes (placed located)) (placed located)) released :=
  (post_walk_tags_any (E := fun _ _ => True) (fun _ _ _ => trivial) (fun tag _ _ here => bitmapOnly_release here tag)
    addresses (mb2_addr + 8) () _ (BitmapOnly.refl _)).of_ok phases.release

theorem reserved_keeps (phases : Phases image mb2_addr s located released reserved s') :
    BitmapOnly (keepBoot image mb2_addr released) reserved ∧
      ∀ j, Marked (keepBoot image mb2_addr released) j → Marked reserved j :=
  (post_walk_tags_any (E := fun _ _ => True) (fun _ _ _ => trivial) (fun tag _ _ here => reserve_keeps here tag)
    addresses (mb2_addr + 8) () _ ⟨BitmapOnly.refl _, fun _ marked => marked⟩).of_ok phases.reserve

theorem bitmapOnly_phases (phases : Phases image mb2_addr s located released reserved s') :
    BitmapOnly (placed located) s' := by
  have last : BitmapOnly reserved s' := phases.bitmap ▸ bitmapOnly_used _ _ _
  exact ((((bitmapOnly_fill _ (small_size _)).trans (bitmapOnly_released phases)).trans
    (bitmapOnly_keepBoot image mb2_addr released)).trans (reserved_keeps phases).1).trans last

end

/-- What holds after every run of `init_pmm` that returns. -/
structure Accepted (image : Image) (mb2_addr : UInt64) (s s' : State) : Prop where
  block : mb2_addr.toNat < 2 ^ 30
  total : s'.total_mem.toNat < 2 ^ 45
  aligned : s'.bmp_phys.toNat % 4096 = 0
  above : (image.kernel_end - KERNEL_VMA).toNat ≤ s'.bmp_phys.toNat
  fits : s'.bmp_phys.toNat + (bitmap_size_bytes s').toNat ≤ 2 ^ 30
  low : ∀ j : UInt64, j.toNat < 256 → Marked s' j
  rest : s' = { s with mem := s'.mem, total_mem := s'.total_mem, bmp_phys := s'.bmp_phys }

theorem init_pmm_accepted {image : Image} {mb2_addr : UInt64} {s s' : State}
    (done : init_pmm image mb2_addr s = .ok () s') : Accepted image mb2_addr s s' := by
  obtain ⟨located, released, reserved, phases⟩ := init_pmm_phases done
  obtain ⟨below, found, above, _⟩ := get_bitmap_location_any phases.locate
  obtain ⟨aligned, notBelow, _, fits, total⟩ := placed_bounds phases
  have only := bitmapOnly_phases phases
  have sameTotal : s'.total_mem = located.total_mem := by rw [only.rest]; rfl
  have samePlace : s'.bmp_phys = (placed located).bmp_phys := by rw [only.rest]
  have sameSize : bitmap_size_bytes s' = bitmap_size_bytes (placed located) := by
    rw [bitmap_size_bytes, sameTotal]; rfl
  refine ⟨?_, ?_, ?_, ?_, ?_, ?_, ?_⟩
  · simpa [UInt64.lt_iff_toNat_lt] using below
  · rw [sameTotal]; exact total
  · rw [samePlace]; exact aligned
  · rw [samePlace]; omega
  · rw [samePlace, sameSize]; exact fits
  · intro j small
    have first : Marked (pmm_mark_used_region 0 0x100000 released) j := by
      rw [marked_used_region _ _ _ _ (by simp)]
      refine .inl ⟨by simp, ?_⟩
      simpa using small
    rw [phases.bitmap]
    exact marked_used_mono ((reserved_keeps phases).2 j (marked_used_mono (marked_used_mono first)))
  · rw [Located] at found
    rw [only.rest, placed, found]

end Extron.InitPmm
