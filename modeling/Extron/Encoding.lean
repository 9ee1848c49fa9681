import Extron.Walks
import Extron.FreeSet

/-!
The encoder of the multiboot2 format: tags of any type, each padded to 8 bytes,
one after the other, and an END tag. `Holds` says that bytes lie in memory, and its
lemmas take them apart field by field.
-/
namespace Extron.Encoding
open Extron.Multiboot Extron.Format Extron.FreeSet Extron.Walks
set_option linter.unusedSimpArgs false

/-! ## Bytes in memory -/

/-- The bytes lie in memory from an address on. -/
def Holds (s : State) : UInt64 → List UInt8 → Prop
  | _, [] => True
  | a, b :: rest => s.byte a = b ∧ Holds s (a + 1) rest

@[simp] theorem length_le32 (x : UInt32) : (le32 x).length = 4 := rfl

section
variable {s s' : State} {a : UInt64}

theorem after_byte (a : UInt64) (n : Nat) : a + 1 + UInt64.ofNat n = a + UInt64.ofNat (n + 1) := by
  have sum : UInt64.ofNat (n + 1) = UInt64.ofNat n + 1 := UInt64.ofNat_add n 1
  rw [sum, UInt64.add_assoc, UInt64.add_comm 1]

theorem holds_append {first rest : List UInt8} :
    Holds s a (first ++ rest) ↔ Holds s a first ∧ Holds s (a + UInt64.ofNat first.length) rest := by
  induction first generalizing a with
  | nil => simp [Holds]
  | cons b first ih => rw [List.cons_append, Holds, ih, after_byte, Holds, List.length_cons, and_assoc]

theorem holds_agrees {limit : Nat} (agree : Agrees s s' limit) (whole : limit < 2 ^ 64) {bytes : List UInt8}
    (inside : a.toNat + bytes.length ≤ limit) (holds : Holds s a bytes) : Holds s' a bytes := by
  induction bytes generalizing a with
  | nil => trivial
  | cons b rest ih =>
    rw [List.length_cons] at inside
    have next : (a + 1).toNat = a.toNat + 1 := by
      rw [UInt64.toNat_add, UInt64.toNat_one]
      omega
    exact ⟨(agree a (by omega)).trans holds.1, ih (by omega) holds.2⟩

theorem holds_word {x : UInt32} {rest : List UInt8} (holds : Holds s a (le32 x ++ rest)) :
    s.read32 a = x ∧ Holds s (a + 4) rest := by
  obtain ⟨word, later⟩ := holds_append.mp holds
  obtain ⟨b0, b1, b2, b3, _⟩ := word
  have two : a + 1 + 1 = a + 2 := UInt64.add_assoc a 1 1
  have three : a + 2 + 1 = a + 3 := UInt64.add_assoc a 2 1
  rw [two] at b2 b3
  rw [three] at b3
  refine ⟨?_, later⟩
  rw [State.read32, b0, b1, b2, b3, Words.join_bytes]

theorem holds_long {x : UInt64} {rest : List UInt8} (holds : Holds s a (le64 x ++ rest)) :
    s.read64 a = x ∧ Holds s (a + 8) rest := by
  rw [le64, List.append_assoc] at holds
  obtain ⟨low, later⟩ := holds_word holds
  obtain ⟨high, later⟩ := holds_word later
  have eight : a + 4 + 4 = a + 8 := UInt64.add_assoc a 4 4
  rw [eight] at later
  refine ⟨?_, later⟩
  rw [State.read64, low, high, Words.join_halves]

end

/-! ## Tags -/

/-- A NUL-terminated string, without its end. -/
abbrev CString := { text : List UInt8 // 0 ∉ text }

/-- An entry of a memory map. A later version of the format may put bytes behind the
    fields. -/
structure MapEntry where
  entry : Entry
  zero : UInt32
  more : List UInt8
  unwrapped : entry.stop < 2 ^ 64

def MapEntry.bytes (x : MapEntry) : List UInt8 :=
  le64 x.entry.addr ++ (le64 x.entry.len ++ (le32 x.entry.type ++ (le32 x.zero ++ x.more)))

structure MemoryMap where
  entry_size : UInt32
  entry_version : UInt32
  entries : List MapEntry
  wide : 24 ≤ entry_size.toNat
  stride : ∀ x ∈ entries, x.bytes.length = entry_size.toNat

/-- The types that the walks tell apart. -/
def knownTypes : List UInt32 :=
  [MULTIBOOT_TAG_TYPE_END, MULTIBOOT_TAG_TYPE_MODULE, MULTIBOOT_TAG_TYPE_BASIC_MEMINFO, MULTIBOOT_TAG_TYPE_MMAP,
    MULTIBOOT_TAG_TYPE_ELF_SECTIONS]

/-- What a tag says, with the fixed fields of its type and any bytes that follow. -/
inductive Content
  | module (mod_start mod_end : UInt32) (cmdline : CString) (more : List UInt8)
  | meminfo (mem_lower mem_upper : UInt32) (more : List UInt8)
  | mmap (map : MemoryMap)
  | elf (num entsize shndx : UInt32) (sections : List UInt8)
  | other (type : UInt32) (unknown : type ∉ knownTypes) (payload : List UInt8)

def Content.type : Content → UInt32
  | module .. => MULTIBOOT_TAG_TYPE_MODULE
  | meminfo .. => MULTIBOOT_TAG_TYPE_BASIC_MEMINFO
  | mmap _ => MULTIBOOT_TAG_TYPE_MMAP
  | elf .. => MULTIBOOT_TAG_TYPE_ELF_SECTIONS
  | other type _ _ => type

/-- The bytes behind the type and the size. -/
def Content.payload : Content → List UInt8
  | module mod_start mod_end cmdline more => le32 mod_start ++ (le32 mod_end ++ (cmdline.1 ++ (0 :: more)))
  | meminfo mem_lower mem_upper more => le32 mem_lower ++ (le32 mem_upper ++ more)
  | mmap map => le32 map.entry_size ++ (le32 map.entry_version ++ map.entries.flatMap MapEntry.bytes)
  | elf num entsize shndx sections => le32 num ++ (le32 entsize ++ (le32 shndx ++ sections))
  | other _ _ payload => payload

/-- What the memory manager takes from a tag. -/
def Content.taken : Content → Tag
  | module mod_start mod_end _ _ => .module mod_start mod_end
  | mmap map => .mmap (map.entries.map MapEntry.entry)
  | _ => .other

/-- A tag with the bytes that pad it to 8. -/
structure PaddedTag where
  content : Content
  padding : List UInt8
  aligned : 8 + content.payload.length + padding.length = padded (8 + content.payload.length)

def PaddedTag.size (t : PaddedTag) : Nat := 8 + t.content.payload.length

def PaddedTag.bytes (t : PaddedTag) : List UInt8 :=
  le32 t.content.type ++ (le32 (UInt32.ofNat t.size) ++ (t.content.payload ++ t.padding))

theorem PaddedTag.length (t : PaddedTag) : t.bytes.length = padded t.size := by
  rw [size, ← t.aligned, bytes]
  simp only [List.length_append, length_le32]
  omega

def endTag : List UInt8 := le32 MULTIBOOT_TAG_TYPE_END ++ le32 8

/-- A block of the format: any bytes may follow the END tag in it. -/
structure Information where
  reserved : UInt32
  tags : List PaddedTag
  more : List UInt8
  small : 16 + (tags.flatMap PaddedTag.bytes).length + more.length < 2 ^ 32

def Information.total (b : Information) : Nat := 16 + (b.tags.flatMap PaddedTag.bytes).length + b.more.length

def Information.bytes (b : Information) : List UInt8 :=
  le32 (UInt32.ofNat b.total) ++ (le32 b.reserved ++ (b.tags.flatMap PaddedTag.bytes ++ (endTag ++ b.more)))

theorem Information.total_lt (b : Information) : b.total < 2 ^ 32 := b.small

theorem Information.length (b : Information) : b.bytes.length = b.total := by
  rw [bytes, total]
  simp [endTag]
  omega

/-- What the memory manager takes from the block. -/
def Information.taken (b : Information) : List Tag := b.tags.map fun t => t.content.taken

/-! ## Where the tags are -/

/-- Things that lie one after the other, with their addresses. -/
def layout {α : Type} (bytes : α → List UInt8) : List α → UInt64 → List (α × UInt64)
  | [], _ => []
  | x :: rest, a => (x, a) :: layout bytes rest (a + UInt64.ofNat (bytes x).length)

/-- The tags of a block with their addresses. -/
def Information.places (b : Information) (mb2_addr : UInt64) : List (PaddedTag × UInt64) :=
  layout PaddedTag.bytes b.tags (mb2_addr + 8)

/-- The entries of a memory-map tag with their addresses. -/
def MemoryMap.places (map : MemoryMap) (tag : UInt64) : List (MapEntry × UInt64) :=
  layout MapEntry.bytes map.entries (tag + 16)

/-- The rounds of the loop over the entries of a tag, if it is a memory map. -/
def entryVisits (t : PaddedTag) (tag : UInt64) : List Visit :=
  match t.content with
  | .mmap map => (map.places tag).map fun p => .entry p.2
  | _ => []

/-- Every tag, and after a memory map its entries. -/
def fullVisits (b : Information) (mb2_addr : UInt64) : List Visit :=
  (b.places mb2_addr).flatMap fun p => .tag p.2 :: entryVisits p.1 p.2

/-- Every tag. -/
def tagVisits (b : Information) (mb2_addr : UInt64) : List Visit :=
  (b.places mb2_addr).map fun p => .tag p.2

def PaddedTag.IsElf (t : PaddedTag) : Prop := t.content.type = MULTIBOOT_TAG_TYPE_ELF_SECTIONS

instance (t : PaddedTag) : Decidable t.IsElf := inferInstanceAs (Decidable (_ = _))

/-- The first ELF-sections tag. -/
def firstElf (b : Information) (mb2_addr : UInt64) : Option UInt64 :=
  ((b.places mb2_addr).find? fun p => p.1.IsElf).map Prod.snd

/-- The tags up to the first ELF-sections tag, and that one. -/
def searchVisits (b : Information) (mb2_addr : UInt64) : List Visit :=
  (untilElf (b.places mb2_addr)).map fun p => .tag p.2
where
  untilElf : List (PaddedTag × UInt64) → List (PaddedTag × UInt64)
    | [] => []
    | p :: rest => if p.1.IsElf then [p] else p :: untilElf rest

theorem holds_layout {α : Type} {bytes : α → List UInt8} {s : State} {xs : List α} {a : UInt64} {rest : List UInt8}
    (holds : Holds s a (xs.flatMap bytes ++ rest)) : ∀ p ∈ layout bytes xs a, Holds s p.2 (bytes p.1) := by
  induction xs generalizing a with
  | nil =>
    intro p none
    cases none
  | cons x xs ih =>
    rw [List.flatMap_cons, List.append_assoc] at holds
    obtain ⟨here, later⟩ := holds_append.mp holds
    intro p member
    rcases List.mem_cons.mp member with rfl | other
    · exact here
    · exact ih later p other

end Extron.Encoding
