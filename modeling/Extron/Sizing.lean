import Extron.FrameRuns

/-!
The size of the frame bitmap. It is the number of pages divided by 8, rounded down,
and then rounded up to a page. The loops of `pmm.c` run up to the number of pages
itself, so they stay within the bitmap exactly when the first rounding loses nothing
that the second one does not give back.
-/
namespace Extron.Sizing
open Extron.Multiboot Extron.Pmm Extron.Format Extron.InitPmm Extron.FreeSet Extron.FrameRuns
set_option linter.unusedSimpArgs false

/-! ## The bits that the loops visit -/

/-- The indices of a loop over `rounds` bits from `i` on. -/
def visited : Nat → UInt64 → List UInt64
  | 0, _ => []
  | rounds + 1, i => i :: visited rounds (i + 1)

/-- The indices that `pmm_mark_free_region` clears. -/
def visitedByFree (start length : UInt64) : List UInt64 :=
  let start_idx := addr_to_idx (align_up start PAGE_SIZE)
  let end_idx := addr_to_idx (align_down (start + length) PAGE_SIZE)
  visited (Words.distance start_idx end_idx) start_idx

/-- The indices that the scan of `pmm_alloc_page` tests, up to the first clear bit. -/
def tested (s : State) : Nat → UInt64 → List UInt64
  | 0, _ => []
  | rounds + 1, i => if bitmap_test s i = 0 then [i] else i :: tested s rounds (i + 1)

/-- The scan of `pmm_alloc_page`; the bit it sets is the last one that it tests. -/
def testedByAlloc (s : State) : List UInt64 := tested s (addr_to_idx s.total_mem).toNat 0

theorem each_bit_eq (op : State → UInt64 → State) (rounds : Nat) (i : UInt64) (s : State) :
    each_bit op rounds i s = (visited rounds i).foldl op s := by
  induction rounds generalizing i s with
  | zero => rfl
  | succ rounds ih => rw [each_bit, ih, visited, List.foldl_cons]

theorem pmm_mark_free_region_eq (start length : UInt64) (s : State) :
    pmm_mark_free_region start length s = (visitedByFree start length).foldl bitmap_clear s :=
  each_bit_eq _ _ _ _

theorem first_clear_eq (s : State) (rounds : Nat) (i : UInt64) :
    first_clear s rounds i = (tested s rounds i).find? fun j => bitmap_test s j = 0 := by
  induction rounds generalizing i with
  | zero => rfl
  | succ rounds ih =>
    rw [first_clear, tested]
    by_cases clear : bitmap_test s i = 0
    · rw [if_pos clear, if_pos clear, List.find?_cons_of_pos (by simpa using clear)]
    · rw [if_neg clear, if_neg clear, List.find?_cons_of_neg (by simpa using clear), ih]

theorem mem_visited {rounds : Nat} {i j : UInt64} (room : i.toNat + rounds < 2 ^ 64) :
    j ∈ visited rounds i ↔ i.toNat ≤ j.toNat ∧ j.toNat < i.toNat + rounds := by
  induction rounds generalizing i with
  | zero =>
    have none : ¬ (i.toNat ≤ j.toNat ∧ j.toNat < i.toNat + 0) := by omega
    simp [visited, none]
  | succ rounds ih =>
    have next := toNat_succ room
    rw [visited, List.mem_cons, ih (by omega), next, ← UInt64.toNat_inj]
    omega

theorem tested_visited {s : State} {rounds : Nat} {i j : UInt64} (member : j ∈ tested s rounds i) : j ∈ visited rounds i := by
  induction rounds generalizing i with
  | zero => cases member
  | succ rounds ih =>
    rw [tested] at member
    rw [visited]
    split at member
    · rw [List.mem_singleton.mp member]
      simp
    · rcases List.mem_cons.mp member with rfl | later
      · simp
      · exact List.mem_cons_of_mem i (ih later)

/-- A region that is freed ends at its sum in 64 bits, wherever it starts. -/
theorem visitedByFree_bound {start length j : UInt64} (member : j ∈ visitedByFree start length) :
    j.toNat < (start + length).toNat / 4096 := by
  have last : (addr_to_idx (align_down (start + length) PAGE_SIZE)).toNat = (start + length).toNat / 4096 := by
    rw [addr_to_idx, UInt64.toNat_div, toNat_align_down, toNat_PAGE_SIZE]
    omega
  have first := (addr_to_idx (align_up start PAGE_SIZE)).toNat_lt
  have sum := (start + length).toNat_lt
  simp only [visitedByFree] at member
  generalize addr_to_idx (align_up start PAGE_SIZE) = from_idx at member first
  by_cases some : from_idx.toNat < (start + length).toNat / 4096
  · have bounds := (mem_visited (by rw [Words.distance, last]; omega)).mp member
    rw [Words.distance, last] at bounds
    omega
  · have none : Words.distance from_idx (addr_to_idx (align_down (start + length) PAGE_SIZE)) = 0 := by
      rw [Words.distance, last]
      omega
    rw [none] at member
    cases member

theorem testedByAlloc_bound {s : State} {j : UInt64} (member : j ∈ testedByAlloc s) :
    j.toNat < (addr_to_idx s.total_mem).toNat := by
  have room := (addr_to_idx s.total_mem).toNat_lt
  have bounds := (mem_visited (by simpa using room)).mp (tested_visited member)
  simpa using bounds.2

/-! ## The size -/

/-- The byte of bit `i` lies in the bitmap that `init_pmm` filled and reserved. -/
def InBitmap (s : State) (i : UInt64) : Prop :=
  s.bmp_phys ≤ s.bmp_phys + i / 8 ∧ s.bmp_phys + i / 8 < s.bmp_phys + bitmap_size_bytes s

/-- The number of managed pages. -/
def managedPages (s : State) : Nat := s.total_mem.toNat / 4096

/-- The number of pages is a multiple of 2^15 or at least 8 above one: what the division
    by 8 drops, the rounding to a page gives back. -/
def NoLoss (pages : Nat) : Prop := pages % 2 ^ 15 = 0 ∨ 8 ≤ pages % 2 ^ 15

theorem noLoss_iff (pages : Nat) : NoLoss pages ↔ pages ≤ 8 * ((pages / 8 + 4095) / 4096 * 4096) := by
  rw [NoLoss]
  omega

theorem toNat_pages (total : UInt64) : (addr_to_idx total).toNat = total.toNat / 4096 := by
  rw [addr_to_idx, UInt64.toNat_div, toNat_PAGE_SIZE]

section
variable {image : Image} {mb2_addr : UInt64} {boot s : State} {tags : List Tag}

theorem inBitmap_iff (done : init_pmm image mb2_addr boot = .ok () s) {i : UInt64} (managed : i.toNat < 2 ^ 33) :
    InBitmap s i ↔ i.toNat / 8 < (bitmap_size_bytes s).toNat := by
  have fits := (init_pmm_accepted done).fits
  have byte : (s.bmp_phys + i / 8).toNat = s.bmp_phys.toNat + i.toNat / 8 := by
    rw [UInt64.toNat_add, UInt64.toNat_div]
    simp
    omega
  have stop : (s.bmp_phys + bitmap_size_bytes s).toNat = s.bmp_phys.toNat + (bitmap_size_bytes s).toNat := by
    rw [UInt64.toNat_add]
    omega
  rw [InBitmap, UInt64.le_iff_toNat_le, UInt64.lt_iff_toNat_lt, byte, stop]
  omega

/-- The bitmap has a bit for every managed page, and the release of the available
    entries, every allocation, and every release of a managed frame stay within its
    bytes, exactly when the two roundings lose no page. -/
theorem bitmap_holds_pages_iff (on : PowerOn boot) (block : Block boot mb2_addr tags)
    (done : init_pmm image mb2_addr boot = .ok () s) :
    (managedPages s ≤ 8 * (bitmap_size_bytes s).toNat ∧
      (∀ x ∈ entriesOf tags, x.Available → ∀ i ∈ visitedByFree x.addr x.len, InBitmap s i) ∧
      (∀ now : State, now.total_mem = s.total_mem → ∀ i ∈ testedByAlloc now, InBitmap s i) ∧
      ∀ a : UInt64, a.toNat / 4096 < managedPages s → InBitmap s (addr_to_idx a)) ↔
      NoLoss (managedPages s) := by
  have total := (init_pmm_accepted done).total
  have size := bitmap_size s
  rw [noLoss_iff, managedPages]
  constructor
  · rintro ⟨enough, _⟩
    omega
  · intro enough
    have inside : ∀ i : UInt64, i.toNat < s.total_mem.toNat / 4096 → InBitmap s i := by
      intro i managed
      rw [inBitmap_iff done (by omega)]
      omega
    refine ⟨by omega, ?_, ?_, ?_⟩
    · intro x member available i visit
      obtain ⟨found, _⟩ := init_pmm_globals block on done
      have below := (le_foldl_grow (entriesOf tags) 0).2 x member available
      rw [← found] at below
      have bound := visitedByFree_bound visit
      exact inside i (by omega)
    · intro now same i visit
      have bound := testedByAlloc_bound visit
      rw [same, toNat_pages] at bound
      exact inside i bound
    · intro a managed
      exact inside _ (by rw [toNat_pages]; exact managed)

end

theorem bitmap_holds_pages_iff_small : ∃ s, init_pmm smallImage 0x200000 smallBoot = .ok () s ∧
    ((managedPages s ≤ 8 * (bitmap_size_bytes s).toNat ∧
      (∀ x ∈ entriesOf smallTags, x.Available → ∀ i ∈ visitedByFree x.addr x.len, InBitmap s i) ∧
      (∀ now : State, now.total_mem = s.total_mem → ∀ i ∈ testedByAlloc now, InBitmap s i) ∧
      ∀ a : UInt64, a.toNat / 4096 < managedPages s → InBitmap s (addr_to_idx a)) ↔
      NoLoss (managedPages s)) := by
  obtain ⟨s, done, _⟩ := init_pmm_small
  exact ⟨s, done, bitmap_holds_pages_iff powerOn_small block_small done⟩

/-! ## One page more than the bitmap holds -/

/-- Memory up to 128 MiB and a page: 2^15 + 1 pages. -/
def oddTags : List Tag := [.mmap [⟨0, 0x8001000, 1⟩]]

def oddBytes : List UInt8 :=
  le32 56 ++ le32 0 ++ (le32 6 ++ le32 40 ++ le32 24 ++ le32 0 ++ le64 0 ++ le64 0x8001000 ++ le32 1 ++ le32 0) ++
  (le32 0 ++ le32 8)

def oddBoot : State := loaded oddBytes 0x200000

theorem powerOn_odd : PowerOn oddBoot := ⟨rfl, rfl, rfl, rfl⟩

theorem block_odd : Block oddBoot 0x200000 oddTags := by decide +kernel

/-- `init_pmm` accepts 2^15 + 1 pages with a bitmap of 2^15 bits, and while it frees the
    entry it clears a bit in the byte after the bitmap. -/
theorem bitmap_one_short : PowerOn oddBoot ∧ Block oddBoot 0x200000 oddTags ∧
    ∃ s, init_pmm smallImage 0x200000 oddBoot = .ok () s ∧ managedPages s = 2 ^ 15 + 1 ∧
      8 * (bitmap_size_bytes s).toNat = 2 ^ 15 ∧ 0x8000 ∈ visitedByFree 0 0x8001000 ∧ ¬ InBitmap s 0x8000 := by
  obtain ⟨s, done, total, _, _⟩ := init_pmm_accepts smallImage powerOn_odd block_odd (by decide) (by decide +kernel)
  have memory : s.total_mem.toNat = 0x8001000 := by
    rw [total]
    decide +kernel
  have bytes : (bitmap_size_bytes s).toNat = 4096 := by
    rw [bitmap_size, memory]
  refine ⟨powerOn_odd, block_odd, s, done, by norm_num [managedPages, memory], by norm_num [bytes], ?_, ?_⟩
  · have rounds : Words.distance (addr_to_idx (align_up 0 PAGE_SIZE))
        (addr_to_idx (align_down (0 + 0x8001000) PAGE_SIZE)) = 2 ^ 15 + 1 := by decide +kernel
    have start : addr_to_idx (align_up 0 PAGE_SIZE) = 0 := by decide +kernel
    rw [visitedByFree, rounds, start, mem_visited (by decide)]
    decide
  · rw [inBitmap_iff done (by decide), bytes]
    decide

end Extron.Sizing
