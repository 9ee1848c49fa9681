import Extron.Machine

/-!
The multiboot2 information block as `boot/multiboot2.h` lays it out and the loops
that walk it: tags one after the other up to the END tag, and the entries of a
memory-map tag. Each loop of the source is one of the two walks with its own body.
-/
namespace Extron.Multiboot
open Extron.Outcomes

def MULTIBOOT_TAG_TYPE_END : UInt32 := 0
def MULTIBOOT_TAG_TYPE_MODULE : UInt32 := 3
def MULTIBOOT_TAG_TYPE_MMAP : UInt32 := 6
def MULTIBOOT_TAG_TYPE_ELF_SECTIONS : UInt32 := 9
def MULTIBOOT_MEMORY_AVAILABLE : UInt32 := 1

/-! ## Fields -/

def tag_type (s : State) (tag : UInt64) : UInt32 := s.read32 tag
def tag_size (s : State) (tag : UInt64) : UInt32 := s.read32 (tag + 4)

def mod_start (s : State) (tag : UInt64) : UInt32 := s.read32 (tag + 8)
def mod_end (s : State) (tag : UInt64) : UInt32 := s.read32 (tag + 12)

def mmap_entry_size (s : State) (tag : UInt64) : UInt32 := s.read32 (tag + 8)
def mmap_entries (tag : UInt64) : UInt64 := tag + 16

def entry_addr (s : State) (entry : UInt64) : UInt64 := s.read64 entry
def entry_len (s : State) (entry : UInt64) : UInt64 := s.read64 (entry + 8)
def entry_type (s : State) (entry : UInt64) : UInt32 := s.read32 (entry + 16)

def elf_num (s : State) (tag : UInt64) : UInt32 := s.read32 (tag + 8)
def elf_sections (tag : UInt64) : UInt64 := tag + 20

/-- The fields of `Elf64_Shdr` that the kernel reads. -/
structure Elf64Shdr where
  sh_flags : UInt64
  sh_addr : UInt64
  sh_size : UInt64
deriving DecidableEq, Repr

def SHF_WRITE : UInt64 := 1
def SHF_ALLOC : UInt64 := 2
def SHF_EXECINSTR : UInt64 := 4

/-- `sections[i]`, at 64 bytes a section header. -/
def section_header (s : State) (sections : UInt64) (i : Nat) : Elf64Shdr :=
  let sh := sections + 64 * UInt64.ofNat i
  { sh_flags := s.read64 (sh + 8), sh_addr := s.read64 (sh + 16), sh_size := s.read64 (sh + 32) }

/-! ## Walks -/

def mb2_next (s : State) (tag : UInt64) : UInt64 := tag + ((tag_size s tag + 7) &&& ~~~7).toUInt64

/-- No loop whose position is an address makes more rounds and ends. -/
def addresses : Nat := 2 ^ 64

/-- `while (tag->type != MULTIBOOT_TAG_TYPE_END) { body; tag = mb2_next(tag); }` with
    a value that the body updates. -/
def walk_tags {α : Type} (body : UInt64 → α → Kernel α) : Nat → UInt64 → α → Kernel α
  | 0, _, _ => throw .spin
  | rounds + 1, tag, acc => do
    let s ← get
    if tag_type s tag = MULTIBOOT_TAG_TYPE_END then
      return acc
    let acc ← body tag acc
    let s ← get
    walk_tags body rounds (mb2_next s tag) acc

/-- The loop over `mmap->entries` up to the end of the tag, by `mmap->entry_size`. -/
def walk_entries (body : UInt64 → Kernel Unit) (tag : UInt64) : Nat → UInt64 → Kernel Unit
  | 0, _ => throw .spin
  | rounds + 1, entry => do
    let s ← get
    if entry < tag + (tag_size s tag).toUInt64 then
      body entry
      let s ← get
      walk_entries body tag rounds (entry + (mmap_entry_size s tag).toUInt64)

/-- The first ELF-sections tag, `none` where the source returns `NULL`. -/
def find_elf_sections (mb2_addr : UInt64) : Kernel (Option UInt64) :=
  search addresses (mb2_addr + 8)
where
  search : Nat → UInt64 → Kernel (Option UInt64)
    | 0, _ => throw .spin
    | rounds + 1, tag => do
      let s ← get
      if tag_type s tag = MULTIBOOT_TAG_TYPE_END then
        return none
      if tag_type s tag = MULTIBOOT_TAG_TYPE_ELF_SECTIONS then
        return some tag
      search rounds (tag + ((tag_size s tag + 7) &&& ~~~7).toUInt64)

end Extron.Multiboot
