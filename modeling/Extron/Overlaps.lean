import Extron.Placement
import Extron.FrameRuns

/-!
Memory maps whose entries overlap. `init_pmm` frees every page that lies wholly in an
available entry and then reserves the boot structures again, but not the entries of
the other types. So memory that the firmware reports as reserved is kept exactly when
no free page shares a byte with such an entry.
-/
namespace Extron.Overlaps
open Extron.Multiboot Extron.Pmm Extron.Format Extron.InitPmm Extron.FreeSet Extron.FrameRuns Extron.Placement
set_option linter.unusedSimpArgs false

/-- The page shares a byte with an entry that is not available. -/
def MeetsReserved (tags : List Tag) (i : Nat) : Prop :=
  ∃ x ∈ entriesOf tags, ¬ x.Available ∧ ¬ Disjoint (page i) (Set.Ico x.addr.toNat x.stop)

/-- The place and the size of the bitmap, from the block. -/
def bitmapStart (image : Image) (mb2_addr : UInt64) (mb2_size : UInt32) (tags : List Tag) : Nat :=
  roundUp (highestEnd image mb2_addr mb2_size tags)

def bitmapBytes (tags : List Tag) : Nat := roundUp (memoryEnd tags / 4096 / 8)

/-- Nothing takes the page: it lies wholly in an available entry, or it has no bit in the
    bitmap and a clear bit in the memory after it; and it shares no byte with the first
    mebibyte, the kernel, the block, a module or the bitmap. -/
structure Exposed (image : Image) (mb2_addr : UInt64) (boot : State) (tags : List Tag) (i : Nat) : Prop where
  available : (∃ x ∈ entriesOf tags, x.Available ∧ page i ⊆ Set.Ico x.addr.toNat x.stop) ∨
    bitmapBytes tags ≤ i / 8 ∧
      ¬ ByteBitmap.Bit boot.mem (fun k => UInt64.ofNat (bitmapStart image mb2_addr (boot.read32 mb2_addr) tags + k)) i
  low : Disjoint (page i) (Set.Ico 0 0x100000)
  kernel : Disjoint (page i)
    (Set.Ico (image.kernel_start - KERNEL_VMA).toNat (image.kernel_end - KERNEL_VMA).toNat)
  block : Disjoint (page i) (Set.Ico mb2_addr.toNat (mb2_addr.toNat + (boot.read32 mb2_addr).toNat))
  modules : ∀ m ∈ modulesOf tags, Disjoint (page i) (Set.Ico m.1.toNat m.2.toNat)
  bitmap : Disjoint (page i) (Set.Ico (bitmapStart image mb2_addr (boot.read32 mb2_addr) tags)
    (bitmapStart image mb2_addr (boot.read32 mb2_addr) tags + bitmapBytes tags))

section
variable {image : Image} {mb2_addr : UInt64} {boot s : State} {tags : List Tag} (on : PowerOn boot)
  (block : Block boot mb2_addr tags) (unwrapped : ∀ x ∈ entriesOf tags, x.Available → x.stop < 2 ^ 64)
  (forward : ∀ m ∈ modulesOf tags, m.1 < m.2) (done : init_pmm image mb2_addr boot = .ok () s)
include on block unwrapped done

/-- The bit that the memory has where a bit beyond the bitmap would be. -/
theorem marked_placed (i : UInt64) : Marked (placedState image mb2_addr tags boot) i ↔
    ByteBitmap.Bit boot.mem (fun k => UInt64.ofNat (bitmapStart image mb2_addr (boot.read32 mb2_addr) tags + k)) i.toNat := by
  obtain ⟨start, _⟩ := bitmap_place on block unwrapped done
  obtain ⟨_, placed, _⟩ := init_pmm_globals block on done
  have offset : (placedState image mb2_addr tags boot).g_hhdm_offset = 0 := on.offset
  have places : place (placedState image mb2_addr tags boot) =
      fun k => UInt64.ofNat (bitmapStart image mb2_addr (boot.read32 mb2_addr) tags + k) := by
    funext k
    rw [bitmapStart, ← start, place, ← placed, offset, UInt64.sub_zero, UInt64.ofNat_add, UInt64.ofNat_toNat]
  rw [marked_iff_bit, places]
  rfl

include forward in
/-- The clear bits are those of the exposed pages. -/
theorem clear_iff_exposed (i : UInt64) : ¬ Marked s i ↔ Exposed image mb2_addr boot tags i.toNat := by
  obtain ⟨start, size, _⟩ := bitmap_place on block unwrapped done
  rw [clear_anywhere on block unwrapped forward done, marked_placed on block unwrapped done]
  constructor
  · rintro ⟨⟨low, kernel, info, modules, bitmap⟩, available⟩
    rw [start, size] at bitmap
    rw [size] at available
    exact ⟨available, low, kernel, info, modules, bitmap⟩
  · rintro ⟨available, low, kernel, info, modules, bitmap⟩
    rw [bitmapBytes, ← size] at available
    rw [bitmapStart, bitmapBytes, ← start, ← size] at bitmap
    exact ⟨⟨low, kernel, info, modules, bitmap⟩, available⟩

end

def overlapTags : List Tag := [.mmap [⟨0, 0x2000000, 1⟩, ⟨0x1000000, 0x1000, 2⟩]]

def overlapBytes : List UInt8 :=
  le32 80 ++ le32 0 ++
  (le32 6 ++ le32 64 ++ le32 24 ++ le32 0 ++ le64 0 ++ le64 0x2000000 ++ le32 1 ++ le32 0 ++ le64 0x1000000 ++
    le64 0x1000 ++ le32 2 ++ le32 0) ++
  (le32 0 ++ le32 8)

def overlapBoot : State := loaded overlapBytes 0x200000

theorem powerOn_overlap : PowerOn overlapBoot := ⟨rfl, rfl, rfl, rfl⟩

theorem block_overlap : Block overlapBoot 0x200000 overlapTags := by decide +kernel

end Extron.Overlaps
