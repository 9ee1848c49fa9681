import Extron.Multiboot

/-!
`pmm.c`: the bitmap of physical frames, its setup from the multiboot2 block, and
the allocation and release of single frames. `Marked s i` says that bit `i` is
set; each function is characterised by the bits that it changes.
-/
namespace Extron.Pmm
open Extron.Multiboot Extron.Outcomes
set_option linter.unusedSimpArgs false

/-- What the linker script fixes: the kernel starts at `KERNEL_VMA + 1M` and ends
    at `_kernel_end`. -/
structure Image where
  kernel_end : UInt64
  ordered : KERNEL_VMA + 0x100000 ≤ kernel_end

def Image.kernel_start (_ : Image) : UInt64 := KERNEL_VMA + 0x100000

def addr_to_idx (a : UInt64) : UInt64 := a / PAGE_SIZE
def idx_to_addr (i : UInt64) : UInt64 := i * PAGE_SIZE

def bitmap_set (s : State) (bit_idx : UInt64) : State :=
  let bmp := s.bmp_phys
  s.setByte (bmp + bit_idx / 8) (s.byte (bmp + bit_idx / 8) ||| (1 <<< (bit_idx % 8).toUInt8))

def bitmap_clear (s : State) (bit_idx : UInt64) : State :=
  let bmp := s.bmp_phys
  s.setByte (bmp + bit_idx / 8) (s.byte (bmp + bit_idx / 8) &&& ~~~(1 <<< (bit_idx % 8).toUInt8))

def bitmap_test (s : State) (bit_idx : UInt64) : UInt8 :=
  let bmp := s.bmp_phys
  s.byte (bmp + bit_idx / 8) &&& (1 <<< (bit_idx % 8).toUInt8)

/-- `for (i = start_idx; i < end_idx; i++) op(i)`, with the number of rounds. -/
def each_bit (op : State → UInt64 → State) : Nat → UInt64 → State → State
  | 0, _, s => s
  | rounds + 1, i, s => each_bit op rounds (i + 1) (op s i)

def pmm_mark_used_region (start length : UInt64) (s : State) : State :=
  let start_idx := addr_to_idx (align_down start PAGE_SIZE)
  let end_idx := addr_to_idx (align_up (start + length) PAGE_SIZE)
  each_bit bitmap_set (Words.distance start_idx end_idx) start_idx s

def pmm_mark_free_region (start length : UInt64) (s : State) : State :=
  let start_idx := addr_to_idx (align_up start PAGE_SIZE)
  let end_idx := addr_to_idx (align_down (start + length) PAGE_SIZE)
  each_bit bitmap_clear (Words.distance start_idx end_idx) start_idx s

def get_bitmap_location (image : Image) (mb2_addr : UInt64) : Kernel Unit := do
  let highest_reserved_addr := image.kernel_end - KERNEL_VMA
  if mb2_addr ≥ ONE_GIB then
    panic (.grubAboveGib mb2_addr)
  let s ← get
  let mb2_size := s.read32 mb2_addr
  let mb2_end := mb2_addr + mb2_size.toUInt64
  let highest_reserved_addr := if mb2_end > highest_reserved_addr then mb2_end else highest_reserved_addr
  let highest_reserved_addr ← walk_tags locate addresses (mb2_addr + 8) highest_reserved_addr
  modify fun s => { s with bmp_phys := highest_reserved_addr }
where
  locate (tag highest_reserved_addr : UInt64) : Kernel UInt64 := do
    let s ← get
    if tag_type s tag = MULTIBOOT_TAG_TYPE_MODULE then
      let mod_end := (mod_end s tag).toUInt64
      return if mod_end > highest_reserved_addr then mod_end else highest_reserved_addr
    else if tag_type s tag = MULTIBOOT_TAG_TYPE_MMAP then
      walk_entries track tag addresses (mmap_entries tag)
      return highest_reserved_addr
    else
      return highest_reserved_addr
  track (entry : UInt64) : Kernel Unit := modify fun s =>
    let region_end := entry_addr s entry + entry_len s entry
    if region_end > s.total_mem ∧ entry_type s entry = MULTIBOOT_MEMORY_AVAILABLE then
      { s with total_mem := region_end }
    else s

/-- The size of the bitmap for the memory found. -/
def bitmap_size_bytes (s : State) : UInt64 := align_up (addr_to_idx s.total_mem / 8) PAGE_SIZE

/-- The loop that sets the first `n` bytes of the bitmap to 0xFF. -/
def fill (n : UInt64) (s : State) : State :=
  { s with mem := fun a => if a + s.g_hhdm_offset - s.bmp_phys < n then 0xFF else s.mem a }

def init_pmm (image : Image) (mb2_addr : UInt64) : Kernel Unit := do
  get_bitmap_location image mb2_addr
  modify fun s => { s with bmp_phys := align_up s.bmp_phys PAGE_SIZE }
  let s ← get
  let size := bitmap_size_bytes s
  if s.bmp_phys + size > ONE_GIB then
    panic .bitmapAboveGib
  modify (fill size)
  walk_tags release addresses (mb2_addr + 8) ()
  modify (pmm_mark_used_region 0 0x100000)
  let kernel_len := image.kernel_end - image.kernel_start
  modify (pmm_mark_used_region (image.kernel_start - KERNEL_VMA) kernel_len)
  let s ← get
  let mb2_size := s.read32 mb2_addr
  modify (pmm_mark_used_region mb2_addr mb2_size.toUInt64)
  walk_tags reserve addresses (mb2_addr + 8) ()
  let s ← get
  modify (pmm_mark_used_region s.bmp_phys size)
where
  release (tag : UInt64) (_ : Unit) : Kernel Unit := do
    let s ← get
    if tag_type s tag = MULTIBOOT_TAG_TYPE_MMAP then
      walk_entries release_entry tag addresses (mmap_entries tag)
  release_entry (entry : UInt64) : Kernel Unit := modify fun s =>
    if entry_type s entry = MULTIBOOT_MEMORY_AVAILABLE then
      pmm_mark_free_region (entry_addr s entry) (entry_len s entry) s
    else s
  reserve (tag : UInt64) (_ : Unit) : Kernel Unit := modify fun s =>
    if tag_type s tag = MULTIBOOT_TAG_TYPE_MODULE then
      pmm_mark_used_region (mod_start s tag).toUInt64 (mod_end s tag - mod_start s tag).toUInt64 s
    else s

/-- The first clear bit of `rounds` bits from `i` on. -/
def first_clear (s : State) : Nat → UInt64 → Option UInt64
  | 0, _ => none
  | rounds + 1, i => if bitmap_test s i = 0 then some i else first_clear s rounds (i + 1)

def pmm_alloc_page : Kernel UInt64 := do
  let s ← get
  let max_pages := addr_to_idx s.total_mem
  match first_clear s max_pages.toNat 0 with
  | some i =>
    set (bitmap_set s i)
    return idx_to_addr i
  | none => panic .outOfMemory

def pmm_free_page (phys_addr : UInt64) : Kernel Unit := do
  if phys_addr % PAGE_SIZE ≠ 0 then
    panic (.unalignedFree phys_addr)
  let idx := addr_to_idx phys_addr
  let s ← get
  if bitmap_test s idx = 0 then
    panic (.doubleFree phys_addr)
  set (bitmap_clear s idx)

/-! ## Bits -/

/-- Bit `i` of the frame bitmap is set. -/
def Marked (s : State) (i : UInt64) : Prop := bitmap_test s i ≠ 0

instance (s : State) (i : UInt64) : Decidable (Marked s i) := inferInstanceAs (Decidable (_ ≠ _))

/-- Where byte `k` of the bitmap is in physical memory. -/
def place (s : State) (k : Nat) : UInt64 := s.bmp_phys + UInt64.ofNat k - s.g_hhdm_offset

theorem place_byte (s : State) (i : UInt64) : place s (i.toNat / 8) = s.bmp_phys + i / 8 - s.g_hhdm_offset := by
  have byte : UInt64.ofNat (i.toNat / 8) = i / 8 := by
    apply UInt64.toNat_inj.mp
    rw [UInt64.toNat_ofNat', UInt64.toNat_div]
    have := i.toNat_lt
    simp
    omega
  rw [place, byte]

theorem place_apart (s : State) (i j : UInt64) : ByteBitmap.Apart (place s) i.toNat j.toNat := by
  intro same
  rw [place_byte, place_byte, UInt64.sub_left_inj, UInt64.add_right_inj] at same
  simpa using congrArg UInt64.toNat same

theorem bit_position (i : UInt64) : ((i % 8).toUInt8).toNat = i.toNat % 8 := by
  simp
  omega

theorem marked_iff_bit (s : State) (i : UInt64) : Marked s i ↔ ByteBitmap.Bit s.mem (place s) i.toNat := by
  rw [← ByteBitmap.bit_test (bit_position i), place_byte]
  rfl

@[simp] theorem marked_set (s : State) (i j : UInt64) : Marked (bitmap_set s i) j ↔ j = i ∨ Marked s j := by
  have changed := ByteBitmap.bit_set (M := s.mem) (bit_position i) (place_apart s i j)
  rw [UInt64.toNat_inj, ← marked_iff_bit, place_byte] at changed
  rw [← changed, marked_iff_bit]
  rfl

@[simp] theorem marked_clear (s : State) (i j : UInt64) : Marked (bitmap_clear s i) j ↔ j ≠ i ∧ Marked s j := by
  have changed := ByteBitmap.bit_clear (M := s.mem) (bit_position i) (place_apart s i j)
  rw [ne_eq, UInt64.toNat_inj, ← marked_iff_bit, place_byte] at changed
  rw [ne_eq, ← changed, marked_iff_bit]
  rfl

/-- `s'` differs from `s` at most in the bytes from the start of the bitmap on. -/
structure BitmapOnly (s s' : State) : Prop where
  rest : s' = { s with mem := s'.mem }
  below : ∀ a, 2 ^ 61 ≤ (a + s.g_hhdm_offset - s.bmp_phys).toNat → s'.mem a = s.mem a

theorem BitmapOnly.refl (s : State) : BitmapOnly s s := ⟨rfl, fun _ _ => rfl⟩

theorem BitmapOnly.trans {s t u : State} (first : BitmapOnly s t) (second : BitmapOnly t u) : BitmapOnly s u := by
  have offset : t.g_hhdm_offset = s.g_hhdm_offset := by rw [first.rest]
  have start : t.bmp_phys = s.bmp_phys := by rw [first.rest]
  refine ⟨?_, ?_⟩
  · rw [second.rest, first.rest]
  · intro a outside
    rw [second.below a (by rw [offset, start]; exact outside), first.below a outside]

theorem bitmapOnly_setByte (s : State) (i : UInt64) (b : UInt8) :
    BitmapOnly s (s.setByte (s.bmp_phys + i / 8) b) := by
  refine ⟨rfl, ?_⟩
  intro a outside
  have other : a ≠ s.bmp_phys + i / 8 - s.g_hhdm_offset := by
    rintro rfl
    rw [UInt64.sub_add_cancel, UInt64.add_comm, UInt64.add_sub_cancel] at outside
    have small := i.toNat_lt
    simp at outside
    omega
  exact Function.update_of_ne other _ _

theorem bitmapOnly_set (s : State) (i : UInt64) : BitmapOnly s (bitmap_set s i) := bitmapOnly_setByte s i _

theorem bitmapOnly_clear (s : State) (i : UInt64) : BitmapOnly s (bitmap_clear s i) := bitmapOnly_setByte s i _

theorem bitmapOnly_each {op : State → UInt64 → State} (one : ∀ s i, BitmapOnly s (op s i)) (rounds : Nat)
    (i : UInt64) (s : State) : BitmapOnly s (each_bit op rounds i s) := by
  induction rounds generalizing i s with
  | zero => exact .refl s
  | succ rounds ih => exact (one s i).trans (ih (i + 1) (op s i))

theorem bitmapOnly_used (start length : UInt64) (s : State) : BitmapOnly s (pmm_mark_used_region start length s) :=
  bitmapOnly_each bitmapOnly_set _ _ _

theorem bitmapOnly_free (start length : UInt64) (s : State) : BitmapOnly s (pmm_mark_free_region start length s) :=
  bitmapOnly_each bitmapOnly_clear _ _ _

theorem bitmapOnly_fill {n : UInt64} (s : State) (small : n.toNat ≤ 2 ^ 61) : BitmapOnly s (fill n s) := by
  refine ⟨rfl, ?_⟩
  intro a outside
  have beyond : ¬ a + s.g_hhdm_offset - s.bmp_phys < n := by
    rw [UInt64.lt_iff_toNat_lt]
    omega
  exact if_neg beyond

theorem toNat_succ {i : UInt64} {rounds : Nat} (room : i.toNat + (rounds + 1) < 2 ^ 64) :
    (i + 1).toNat = i.toNat + 1 := by
  rw [UInt64.toNat_add, UInt64.toNat_one]
  omega

theorem marked_each_set (rounds : Nat) (i j : UInt64) (s : State) (room : i.toNat + rounds < 2 ^ 64) :
    Marked (each_bit bitmap_set rounds i s) j ↔ (i.toNat ≤ j.toNat ∧ j.toNat < i.toNat + rounds) ∨ Marked s j := by
  induction rounds generalizing i s with
  | zero =>
    have none : ¬ (i.toNat ≤ j.toNat ∧ j.toNat < i.toNat + 0) := by omega
    simp [each_bit, none]
  | succ rounds ih =>
    have next := toNat_succ room
    rw [each_bit, ih (i + 1) (bitmap_set s i) (by omega), marked_set, next, ← UInt64.toNat_inj, ← or_assoc]
    apply or_congr_left
    omega

/-- Setting bits never clears one, whatever the range. -/
theorem marked_each_set_mono {rounds : Nat} {i j : UInt64} {s : State} (marked : Marked s j) :
    Marked (each_bit bitmap_set rounds i s) j := by
  induction rounds generalizing i s with
  | zero => exact marked
  | succ rounds ih => exact ih ((marked_set s i j).mpr (.inr marked))

theorem marked_each_clear (rounds : Nat) (i j : UInt64) (s : State) (room : i.toNat + rounds < 2 ^ 64) :
    Marked (each_bit bitmap_clear rounds i s) j ↔
      ¬ (i.toNat ≤ j.toNat ∧ j.toNat < i.toNat + rounds) ∧ Marked s j := by
  induction rounds generalizing i s with
  | zero =>
    have none : ¬ (i.toNat ≤ j.toNat ∧ j.toNat < i.toNat + 0) := by omega
    simp [each_bit, none]
  | succ rounds ih =>
    have next := toNat_succ room
    rw [each_bit, ih (i + 1) (bitmap_clear s i) (by omega), marked_clear, next, ne_eq, ← UInt64.toNat_inj, ← and_assoc]
    apply and_congr_left'
    omega

/-- Bits set are those of every page that the region touches. -/
theorem marked_used_region (start length j : UInt64) (s : State)
    (room : start.toNat + length.toNat + 4095 < 2 ^ 64) :
    Marked (pmm_mark_used_region start length s) j ↔
      (start.toNat / 4096 ≤ j.toNat ∧ j.toNat < (start.toNat + length.toNat + 4095) / 4096) ∨ Marked s j := by
  have sum : (start + length).toNat = start.toNat + length.toNat := by
    rw [UInt64.toNat_add]
    omega
  have first : (addr_to_idx (align_down start PAGE_SIZE)).toNat = start.toNat / 4096 := by
    rw [addr_to_idx, UInt64.toNat_div, toNat_align_down, toNat_PAGE_SIZE]
    omega
  have last : (addr_to_idx (align_up (start + length) PAGE_SIZE)).toNat =
      (start.toNat + length.toNat + 4095) / 4096 := by
    rw [addr_to_idx, UInt64.toNat_div, toNat_align_up _ (by omega), sum, toNat_PAGE_SIZE]
    omega
  have ordered : start.toNat / 4096 ≤ (start.toNat + length.toNat + 4095) / 4096 := by omega
  have bound : (addr_to_idx (align_up (start + length) PAGE_SIZE)).toNat < 2 ^ 64 := UInt64.toNat_lt _
  rw [pmm_mark_used_region, marked_each_set _ _ _ _ (by rw [Words.distance]; omega), Words.distance, first, last]
  apply or_congr_left
  omega

/-- Bits cleared are those of every page that lies wholly in the region. -/
theorem marked_free_region (start length j : UInt64) (s : State)
    (room : start.toNat + length.toNat < 2 ^ 64 - 4095) :
    Marked (pmm_mark_free_region start length s) j ↔
      ¬ (start.toNat ≤ 4096 * j.toNat ∧ 4096 * (j.toNat + 1) ≤ start.toNat + length.toNat) ∧ Marked s j := by
  have sum : (start + length).toNat = start.toNat + length.toNat := by
    rw [UInt64.toNat_add]
    omega
  have first : (addr_to_idx (align_up start PAGE_SIZE)).toNat = (start.toNat + 4095) / 4096 := by
    rw [addr_to_idx, UInt64.toNat_div, toNat_align_up _ (by omega), toNat_PAGE_SIZE]
    omega
  have last : (addr_to_idx (align_down (start + length) PAGE_SIZE)).toNat =
      (start.toNat + length.toNat) / 4096 := by
    rw [addr_to_idx, UInt64.toNat_div, toNat_align_down, sum, toNat_PAGE_SIZE]
    omega
  have small : (start.toNat + 4095) / 4096 + (start.toNat + length.toNat) / 4096 < 2 ^ 64 := by omega
  rw [pmm_mark_free_region, marked_each_clear _ _ _ _ (by rw [Words.distance]; omega), Words.distance, first, last]
  apply and_congr_left'
  omega

/-! ## Single frames -/

/-- A managed frame that the bitmap shows as free. -/
def Free (s : State) (i : UInt64) : Prop := i < addr_to_idx s.total_mem ∧ ¬ Marked s i

theorem first_clear_some {s : State} {rounds : Nat} {i k : UInt64} (room : i.toNat + rounds < 2 ^ 64)
    (found : first_clear s rounds i = some k) :
    i.toNat ≤ k.toNat ∧ k.toNat < i.toNat + rounds ∧ ¬ Marked s k ∧
      ∀ j : UInt64, i.toNat ≤ j.toNat → j.toNat < k.toNat → Marked s j := by
  induction rounds generalizing i with
  | zero => cases found
  | succ rounds ih =>
    rw [first_clear] at found
    split at found
    · rename_i clear
      cases found
      refine ⟨le_rfl, by omega, fun marked => marked clear, ?_⟩
      intro j low high
      omega
    · rename_i set
      have next := toNat_succ room
      obtain ⟨low, high, clear, before⟩ := ih (by omega) found
      refine ⟨by omega, by omega, clear, ?_⟩
      intro j from_i to_k
      by_cases here : j.toNat = i.toNat
      · rw [UInt64.toNat_inj.mp here]
        exact set
      · exact before j (by omega) to_k

theorem first_clear_none {s : State} {rounds : Nat} {i : UInt64} (room : i.toNat + rounds < 2 ^ 64)
    (missing : first_clear s rounds i = none) (j : UInt64) (low : i.toNat ≤ j.toNat)
    (high : j.toNat < i.toNat + rounds) : Marked s j := by
  induction rounds generalizing i with
  | zero => omega
  | succ rounds ih =>
    rw [first_clear] at missing
    split at missing
    · cases missing
    · rename_i set
      have next := toNat_succ room
      by_cases here : j.toNat = i.toNat
      · rw [UInt64.toNat_inj.mp here]
        exact set
      · exact ih (by omega) missing (by omega) (by omega)

/-- Allocation takes the lowest free frame, and panics only when there is none. -/
theorem pmm_alloc_page_cases (s : State) :
    (∃ i, Free s i ∧ (∀ j, Free s j → i ≤ j) ∧ pmm_alloc_page s = .ok (idx_to_addr i) (bitmap_set s i)) ∨
      ((∀ i, ¬ Free s i) ∧ pmm_alloc_page s = .error (.panic .outOfMemory) s) := by
  have room : (0 : UInt64).toNat + (addr_to_idx s.total_mem).toNat < 2 ^ 64 := by
    have := (addr_to_idx s.total_mem).toNat_lt
    simpa using this
  cases scan : first_clear s (addr_to_idx s.total_mem).toNat 0 with
  | some i =>
    obtain ⟨_, inside, clear, before⟩ := first_clear_some room scan
    have managed : i < addr_to_idx s.total_mem := by
      rw [UInt64.lt_iff_toNat_lt]
      simpa using inside
    refine .inl ⟨i, ⟨managed, clear⟩, ?_, ?_⟩
    · intro j free
      rw [UInt64.le_iff_toNat_le]
      by_contra above
      exact free.2 (before j (by simp) (by omega))
    · simp only [pmm_alloc_page, get_bind, scan, set_bind, run_pure]
  | none =>
    refine .inr ⟨?_, ?_⟩
    · rintro i ⟨managed, clear⟩
      rw [UInt64.lt_iff_toNat_lt] at managed
      exact clear (first_clear_none room scan i (by simp) (by simpa using managed))
    · simp only [pmm_alloc_page, get_bind, scan, run_panic]

/-- A release clears the bit of an aligned address that is set, and panics with
    the bitmap unchanged otherwise. -/
theorem pmm_free_page_cases (s : State) (a : UInt64) :
    (a % PAGE_SIZE = 0 ∧ Marked s (addr_to_idx a) ∧ pmm_free_page a s = .ok () (bitmap_clear s (addr_to_idx a))) ∨
      (a % PAGE_SIZE ≠ 0 ∧ pmm_free_page a s = .error (.panic (.unalignedFree a)) s) ∨
      (a % PAGE_SIZE = 0 ∧ ¬ Marked s (addr_to_idx a) ∧ pmm_free_page a s = .error (.panic (.doubleFree a)) s) := by
  by_cases aligned : a % PAGE_SIZE = 0
  · by_cases clear : bitmap_test s (addr_to_idx a) = 0
    · refine .inr (.inr ⟨aligned, fun marked => marked clear, ?_⟩)
      simp [pmm_free_page, aligned, clear]
    · refine .inl ⟨aligned, clear, ?_⟩
      simp [pmm_free_page, aligned, clear]
  · refine .inr (.inl ⟨aligned, ?_⟩)
    simp [pmm_free_page, aligned]

end Extron.Pmm
