import Extron.FreeSet

/-!
Where the frame bitmap goes. It starts on the first page boundary above the kernel,
the multiboot2 block and every module, so it never overlaps them; nothing looks the
place up in the memory map, so it is in RAM exactly when the available entries have
no hole there.
-/
namespace Extron.Placement
open Extron.Multiboot Extron.Pmm Extron.Format Extron.InitPmm Extron.FreeSet
set_option linter.unusedSimpArgs false

/-- An available entry holds the address. -/
def InRam (tags : List Tag) (a : Nat) : Prop := ∃ x ∈ entriesOf tags, x.Available ∧ x.addr.toNat ≤ a ∧ a < x.stop

/-- The highest end of the kernel, the block and the modules. -/
def highestEnd (image : Image) (mb2_addr : UInt64) (mb2_size : UInt32) (tags : List Tag) : Nat :=
  ((modulesOf tags).map fun m => m.2.toNat).foldl max
    (max (image.kernel_end - KERNEL_VMA).toNat (mb2_addr.toNat + mb2_size.toNat))

/-- The highest end of an available entry. -/
def memoryEnd (tags : List Tag) : Nat :=
  (((entriesOf tags).filter fun x => x.Available).map Entry.stop).foldl max 0

def roundUp (n : Nat) : Nat := (n + 4095) / 4096 * 4096

theorem toNat_foldl_raise (modules : List (UInt32 × UInt32)) (top : UInt64) :
    (modules.foldl raise top).toNat = (modules.map fun m => m.2.toNat).foldl max top.toNat := by
  induction modules generalizing top with
  | nil => rfl
  | cons m rest ih => rw [List.foldl_cons, ih, toNat_raise, List.map_cons, List.foldl_cons]

theorem toNat_foldl_grow (entries : List Entry) (total : UInt64)
    (unwrapped : ∀ x ∈ entries, x.Available → x.stop < 2 ^ 64) :
    (entries.foldl grow total).toNat =
      ((entries.filter fun x => x.Available).map Entry.stop).foldl max total.toNat := by
  induction entries generalizing total with
  | nil => rfl
  | cons x rest ih =>
    have later := ih (grow total x) (fun y member => unwrapped y (List.mem_cons_of_mem x member))
    rw [List.foldl_cons, later, toNat_grow]
    by_cases available : x.Available
    · rw [if_pos available, toNat_region_end (unwrapped x (by simp) available),
        List.filter_cons_of_pos (by simpa using available), List.map_cons, List.foldl_cons]
    · rw [if_neg available, List.filter_cons_of_neg (by simpa using available)]

section
variable {image : Image} {mb2_addr : UInt64} {boot s : State} {tags : List Tag}

/-- The place and the size of the bitmap, from the block. -/
theorem bitmap_place (on : PowerOn boot) (block : Block boot mb2_addr tags)
    (unwrapped : ∀ x ∈ entriesOf tags, x.Available → x.stop < 2 ^ 64)
    (done : init_pmm image mb2_addr boot = .ok () s) :
    s.bmp_phys.toNat = roundUp (highestEnd image mb2_addr (boot.read32 mb2_addr) tags) ∧
      (bitmap_size_bytes s).toNat = roundUp (memoryEnd tags / 4096 / 8) ∧ s.total_mem.toNat = memoryEnd tags := by
  obtain ⟨low, _⟩ := init_pmm_passes block on.offset done
  obtain ⟨total, start, _⟩ := init_pmm_globals block on done
  obtain ⟨_, _, _, bound⟩ := get_bitmap_location_any (get_bitmap_location_eq image block low)
  have memory : s.total_mem.toNat = memoryEnd tags := by
    rw [total, toNat_foldl_grow _ _ unwrapped]
    rfl
  have top : (locatedState image mb2_addr tags boot).bmp_phys.toNat =
      highestEnd image mb2_addr (boot.read32 mb2_addr) tags := by
    rw [highestEnd, ← toNat_bootTop image low, ← toNat_foldl_raise]
    rfl
  refine ⟨?_, ?_, memory⟩
  · rw [start, roundUp, ← top]
    exact toNat_align_up _ (by omega)
  · rw [bitmap_size, memory, roundUp]

/-- The bitmap overlaps neither the kernel, nor the block, nor a module, and it lies in
    RAM below the last whole page of memory exactly when no hole of the memory map
    follows the highest of them for as many bytes as the bitmap needs. -/
theorem bitmap_in_ram_iff (on : PowerOn boot) (block : Block boot mb2_addr tags)
    (unwrapped : ∀ x ∈ entriesOf tags, x.Available → x.stop < 2 ^ 64)
    (done : init_pmm image mb2_addr boot = .ok () s) :
    (∀ a, s.bmp_phys.toNat ≤ a → a < s.bmp_phys.toNat + (bitmap_size_bytes s).toNat →
      InRam tags a ∧ a ∉ Set.Ico (image.kernel_start - KERNEL_VMA).toNat (image.kernel_end - KERNEL_VMA).toNat ∧
        a ∉ Set.Ico mb2_addr.toNat (mb2_addr.toNat + (boot.read32 mb2_addr).toNat) ∧
        (∀ m ∈ modulesOf tags, a ∉ Set.Ico m.1.toNat m.2.toNat) ∧ a < (align_down s.total_mem PAGE_SIZE).toNat) ↔
      ∀ d < roundUp (memoryEnd tags / 4096 / 8),
        InRam tags (roundUp (highestEnd image mb2_addr (boot.read32 mb2_addr) tags) + d) := by
  obtain ⟨start, size, memory⟩ := bitmap_place on block unwrapped done
  obtain ⟨low, _⟩ := init_pmm_passes block on.offset done
  obtain ⟨_, placeEq, _⟩ := init_pmm_globals block on done
  obtain ⟨aboveBlock, aboveKernel, aboveModules, _⟩ := placed_above image block low
  rw [← placeEq] at aboveBlock aboveKernel aboveModules
  rw [← start, ← size]
  constructor
  · intro inside d within
    exact (inside (s.bmp_phys.toNat + d) (by omega) (by omega)).1
  · intro covered a from_start to_stop
    refine ⟨?_, fun member => by have := member.2; omega, fun member => by have := member.2; omega, ?_, ?_⟩
    · have here := covered (a - s.bmp_phys.toNat) (by omega)
      rw [Nat.add_sub_cancel' from_start] at here
      exact here
    · intro m member inModule
      have above := aboveModules m member
      have := inModule.2
      omega
    · -- the last byte is in an entry, which ends at or below the end of memory
      obtain ⟨x, member, available, _, last⟩ := covered ((bitmap_size_bytes s).toNat - 1) (by omega)
      obtain ⟨total, _⟩ := init_pmm_globals block on done
      have below := stop_le_total unwrapped 0 member available
      rw [← total] at below
      have aligned := (init_pmm_accepted done).aligned
      have pages : (bitmap_size_bytes s).toNat % 4096 = 0 := by rw [size, roundUp]; omega
      rw [toNat_align_down]
      omega

end

theorem bitmap_in_ram_iff_small : ∃ s, init_pmm smallImage 0x200000 smallBoot = .ok () s ∧
    ((∀ a, s.bmp_phys.toNat ≤ a → a < s.bmp_phys.toNat + (bitmap_size_bytes s).toNat →
      InRam smallTags a ∧
        a ∉ Set.Ico (smallImage.kernel_start - KERNEL_VMA).toNat (smallImage.kernel_end - KERNEL_VMA).toNat ∧
        a ∉ Set.Ico (0x200000 : UInt64).toNat ((0x200000 : UInt64).toNat + (smallBoot.read32 0x200000).toNat) ∧
        (∀ m ∈ modulesOf smallTags, a ∉ Set.Ico m.1.toNat m.2.toNat) ∧
        a < (align_down s.total_mem PAGE_SIZE).toNat) ↔
      ∀ d < roundUp (memoryEnd smallTags / 4096 / 8),
        InRam smallTags (roundUp (highestEnd smallImage 0x200000 (smallBoot.read32 0x200000) smallTags) + d)) := by
  obtain ⟨s, done, _⟩ := init_pmm_small
  exact ⟨s, done, bitmap_in_ram_iff powerOn_small block_small unwrapped_small done⟩

/-! ## A hole above the block -/

def holeTags : List Tag := [.mmap [⟨0, 0x201000, 1⟩, ⟨0x400000, 0x1C00000, 1⟩]]

def holeBytes : List UInt8 :=
  le32 80 ++ le32 0 ++
  (le32 6 ++ le32 64 ++ le32 24 ++ le32 0 ++ le64 0 ++ le64 0x201000 ++ le32 1 ++ le32 0 ++ le64 0x400000 ++
    le64 0x1C00000 ++ le32 1 ++ le32 0) ++
  (le32 0 ++ le32 8)

def holeBoot : State := loaded holeBytes 0x200000

theorem block_hole : Block holeBoot 0x200000 holeTags := by decide +kernel

/-- The kernel and the block are in available entries, `init_pmm` accepts the block, and
    the first byte of the bitmap is in no available entry. -/
theorem bitmap_in_hole : PowerOn holeBoot ∧ Block holeBoot 0x200000 holeTags ∧
    (∀ a, 0x100000 ≤ a → a < 0x200000 + (holeBoot.read32 0x200000).toNat → InRam holeTags a) ∧
    ∃ s, init_pmm smallImage 0x200000 holeBoot = .ok () s ∧ s.bmp_phys = 0x201000 ∧ 0 < (bitmap_size_bytes s).toNat ∧
      ¬ InRam holeTags 0x201000 := by
  have mb2_size : (holeBoot.read32 0x200000).toNat = 80 := by decide +kernel
  have first : Entry.stop ⟨0, 0x201000, 1⟩ = 0x201000 := by simp [Entry.stop]
  have second : (⟨0x400000, 0x1C00000, 1⟩ : Entry).addr.toNat = 0x400000 := rfl
  refine ⟨⟨rfl, rfl, rfl, rfl⟩, block_hole, ?_, ?_⟩
  · intro a _ below
    rw [mb2_size] at below
    exact ⟨⟨0, 0x201000, 1⟩, by simp [entriesOf, holeTags], rfl, Nat.zero_le _, by omega⟩
  · obtain ⟨s, done, _, start, size⟩ :=
      init_pmm_accepts smallImage ⟨rfl, rfl, rfl, rfl⟩ block_hole (by decide) (by decide +kernel)
    refine ⟨s, done, ?_, ?_, ?_⟩
    · rw [start]
      decide +kernel
    · rw [size]
      decide +kernel
    · rintro ⟨x, member, _, from_addr, to_stop⟩
      rcases List.mem_pair.mp member with rfl | rfl
      · rw [first] at to_stop
        omega
      · rw [second] at from_addr
        omega

end Extron.Placement
