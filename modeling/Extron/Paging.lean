import Extron.Pmm

/-!
`paging.c`: the four levels of page tables, their walks, and the address space
that `init_paging` builds. Table words are read and written through the window of
`phys_to_virt`; the calls of `map_page` and `unmap_page` and everything that the
processor sees are recorded in the journal.
-/
namespace Extron.Paging
open Extron.RadixTree Extron.Multiboot Extron.Pmm Extron.Outcomes
set_option linter.unusedSimpArgs false

def PAGE_PRESENT : UInt64 := (1 : UInt64) <<< 0
def PAGE_WRITE : UInt64 := (1 : UInt64) <<< 1
def PAGE_USER : UInt64 := (1 : UInt64) <<< 2
def PAGE_HUGE : UInt64 := (1 : UInt64) <<< 7
def PAGE_GLOBAL : UInt64 := (1 : UInt64) <<< 8
def PAGE_NX : UInt64 := (1 : UInt64) <<< 63
def PAGE_ADDR_MASK : UInt64 := 0x000FFFFFFFFFF000

def PML4_IDX (v : UInt64) : Fin 512 := Fin.ofNat 512 ((v >>> 39) &&& 0x1FF).toNat
def PDPT_IDX (v : UInt64) : Fin 512 := Fin.ofNat 512 ((v >>> 30) &&& 0x1FF).toNat
def PD_IDX (v : UInt64) : Fin 512 := Fin.ofNat 512 ((v >>> 21) &&& 0x1FF).toNat
def PT_IDX (v : UInt64) : Fin 512 := Fin.ofNat 512 ((v >>> 12) &&& 0x1FF).toNat

/-! ## Table words -/

/-- `phys_to_virt(table)[index]` -/
def load (table : UInt64) (index : Fin 512) : Kernel UInt64 := do
  deref table
  let s ← get
  return s.frames table index

/-- `phys_to_virt(table)[index] = word` -/
def store (table : UInt64) (index : Fin 512) (word : UInt64) : Kernel Unit := do
  deref table
  modify fun s => { s with frames := write s.frames table index word }
  record (.store table index word)

/-- `for (int i = 0; i < 512; i++) phys_to_virt(table)[i] = 0` -/
def clear_table (table : UInt64) : Kernel Unit := do
  deref table
  modify fun s => { s with frames := blank s.frames table 0 }
  record (.zero table)

/-! ## Walks -/

def get_next_table (table : UInt64) (index : Fin 512) : Kernel UInt64 := do
  let entry ← load table index
  if entry &&& PAGE_PRESENT ≠ 0 then
    return entry &&& PAGE_ADDR_MASK
  let new_phys ← pmm_alloc_page
  if new_phys = 0 then
    return 0
  clear_table new_phys
  store table index (new_phys ||| PAGE_PRESENT ||| PAGE_WRITE ||| PAGE_USER)
  return new_phys

def get_table_if_present (table : UInt64) (index : Fin 512) : Kernel UInt64 := do
  let entry ← load table index
  if entry &&& PAGE_PRESENT ≠ 0 then
    return entry &&& PAGE_ADDR_MASK
  return 0

def map_page (pml4 virt phys flags : UInt64) : Kernel Int32 := do
  let res ← go
  record (.mapped pml4 virt res)
  return res
where
  go : Kernel Int32 := do
    let pdpt ← get_next_table pml4 (PML4_IDX virt)
    if pdpt = 0 then
      return -1
    let pd ← get_next_table pdpt (PDPT_IDX virt)
    if pd = 0 then
      return -1
    let pt ← get_next_table pd (PD_IDX virt)
    if pt = 0 then
      return -1
    let current_entry ← load pt (PT_IDX virt)
    if current_entry &&& PAGE_PRESENT ≠ 0 then
      if current_entry &&& PAGE_ADDR_MASK = phys &&& PAGE_ADDR_MASK then
        return 0
      return -2
    store pt (PT_IDX virt) ((phys &&& PAGE_ADDR_MASK) ||| flags)
    return 0

/-- The table of the last level, 0 when there is none: the part that `virt_to_phys`
    and `unmap_page` share. -/
def find_table (pml4 virt : UInt64) : Kernel UInt64 := do
  let pdpt ← get_table_if_present pml4 (PML4_IDX virt)
  if pdpt = 0 then
    return 0
  let pd ← get_table_if_present pdpt (PDPT_IDX virt)
  if pd = 0 then
    return 0
  get_table_if_present pd (PD_IDX virt)

def virt_to_phys (pml4 virt : UInt64) : Kernel UInt64 := do
  let pt ← find_table pml4 virt
  if pt = 0 then
    return 0
  let entry ← load pt (PT_IDX virt)
  if entry &&& PAGE_PRESENT = 0 then
    return 0
  return entry &&& PAGE_ADDR_MASK

def unmap_page (pml4 virt : UInt64) : Kernel Int32 := do
  let res ← go
  record (.unmapped pml4 virt res)
  return res
where
  go : Kernel Int32 := do
    let pt ← find_table pml4 virt
    if pt = 0 then
      return -1
    let entry ← load pt (PT_IDX virt)
    if entry &&& PAGE_PRESENT = 0 then
      return -1
    store pt (PT_IDX virt) 0
    record (.invlpg virt)
    return 0

def kmap (v p flags : UInt64) : Kernel Int32 := do
  let s ← get
  map_page s.kernel_pml4 v p flags

def kunmap (v : UInt64) : Kernel Int32 := do
  let s ← get
  unmap_page s.kernel_pml4 v

def kvirt_to_phys (v : UInt64) : Kernel UInt64 := do
  let s ← get
  virt_to_phys s.kernel_pml4 v

/-! ## The kernel's address space -/

/-- `for (v = first; v < stop; v += PAGE_SIZE) body(v)` -/
def for_pages (body : UInt64 → Kernel Unit) (stop : UInt64) : Nat → UInt64 → Kernel Unit
  | 0, _ => throw .spin
  | rounds + 1, v => do
    if v < stop then
      body v
      for_pages body stop rounds (v + PAGE_SIZE)

def section_flags (sh : Elf64Shdr) : UInt64 :=
  let flags := PAGE_PRESENT
  let flags := if sh.sh_flags &&& SHF_WRITE ≠ 0 then flags ||| PAGE_WRITE else flags
  if sh.sh_flags &&& SHF_EXECINSTR = 0 then flags ||| PAGE_NX else flags

def map_kernel_elf_sections (pml4 mb2_addr : UInt64) : Kernel Unit := do
  match ← find_elf_sections mb2_addr with
  | none => panic .elfNotFound
  | some elf_tag => sections elf_tag addresses 0
where
  sections (elf_tag : UInt64) : Nat → Nat → Kernel Unit
    | 0, _ => throw .spin
    | rounds + 1, i => do
      let s ← get
      if i < (elf_num s elf_tag).toNat then
        map_section (section_header s (elf_sections elf_tag) i)
        sections elf_tag rounds (i + 1)
  map_section (sh : Elf64Shdr) : Kernel Unit := do
    if sh.sh_flags &&& SHF_ALLOC ≠ 0 then
      let virt_start := sh.sh_addr
      let stop := virt_start + sh.sh_size
      for_pages (map_section_page (section_flags sh)) stop addresses (align_down virt_start PAGE_SIZE)
  map_section_page (flags v : UInt64) : Kernel Unit := do
    let p := v - KERNEL_VMA
    let res ← map_page pml4 v p flags
    if res ≠ 0 then
      panic (.elfMapping v res)

def allocate_table_zeroed : Kernel UInt64 := do
  let p ← pmm_alloc_page
  if p = 0 then
    panic .tableAlloc
  clear_table p
  return p

def init_paging (mb2_addr : UInt64) : Kernel Unit := do
  let table ← allocate_table_zeroed
  modify fun s => { s with kernel_pml4 := table }
  map_kernel_elf_sections table mb2_addr
  let s ← get
  let total := align_down s.total_mem PAGE_SIZE
  for_pages map_direct total addresses 0
  -- load_cr3, the switch of the window, flush_tlb
  let s ← get
  record (.cr3 s.kernel_pml4)
  modify fun s => { s with g_hhdm_offset := NEW_HDDM }
  record (.cr3 s.kernel_pml4)
  modify fun s => { s with bmp_phys := s.bmp_phys + NEW_HDDM }
where
  map_direct (i : UInt64) : Kernel Unit := do
    let s ← get
    let res ← map_page s.kernel_pml4 (NEW_HDDM + i) i (PAGE_PRESENT ||| PAGE_WRITE ||| PAGE_NX)
    if res ≠ 0 then
      panic .hhdmMapping

end Extron.Paging
