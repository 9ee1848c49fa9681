import Extron.Vmm

/-!
`kheap.c`: `kmalloc`, `kfree`, `kcalloc` and `krealloc` over the page allocator of
`vmm.c`. The records of the heap lie in its pages, byte by byte, and are reached
through the page tables; `liballoc_lock` and `liballoc_unlock` do nothing. A loop
over addresses that makes more rounds than there are addresses does not end.
-/
namespace Extron.Kheap
open Extron.Multiboot Extron.Pmm Extron.Paging Extron.Outcomes Extron.Vmm

/-- The memory manager with the globals of `kheap.c` and the pages of the heap. -/
structure Machine where
  kernel : State
  /-- Physical memory by byte: the frames of the heap's pages. -/
  ram : UInt64 → UInt8
  l_memRoot : UInt64
  l_bestBet : UInt64
  l_allocated : UInt64
  l_inuse : UInt64
  l_warningCount : Int64
  l_errorCount : Int64
  l_possibleOverruns : Int64

/-- A function of the heap. -/
abbrev Alloc := EStateM Halt Machine

/-- A call into the memory manager. -/
def call {α : Type} (x : Kernel α) : Alloc α := fun m =>
  match x m.kernel with
  | .ok a s => .ok a { m with kernel := s }
  | .error e s => .error e { m with kernel := s }

/-! ## Memory accesses -/

/-- The physical address that a virtual address is mapped to. -/
def physical (s : State) (v : UInt64) : Option UInt64 :=
  (frameOf s.kernel_pml4 s (pageOf v)).map (· + (v &&& 0xFFF))

def load8 (v : UInt64) : Alloc UInt8 := fun m =>
  match physical m.kernel v with
  | some p => .ok (m.ram p) m
  | none => .error (.fault v) m

def store8 (v : UInt64) (b : UInt8) : Alloc Unit := fun m =>
  match physical m.kernel v with
  | some p => .ok () { m with ram := Function.update m.ram p b }
  | none => .error (.fault v) m

/-- The number in `n` bytes, lowest byte first. -/
def load : Nat → UInt64 → Alloc Nat
  | 0, _ => return 0
  | n + 1, v => do
    let low ← load8 v
    let high ← load n (v + 1)
    return low.toNat + 256 * high

def store : Nat → UInt64 → Nat → Alloc Unit
  | 0, _, _ => return
  | n + 1, v, w => do
    store8 v (UInt8.ofNat w)
    store n (v + 1) (w / 256)

def load32 (v : UInt64) : Alloc UInt32 := do return UInt32.ofNat (← load 4 v)
def load64 (v : UInt64) : Alloc UInt64 := do return UInt64.ofNat (← load 8 v)
def store32 (v : UInt64) (w : UInt32) : Alloc Unit := store 4 v w.toNat
def store64 (v w : UInt64) : Alloc Unit := store 8 v w.toNat

/-! ## Records -/

def NULL : UInt64 := 0
def LIBALLOC_MAGIC : UInt32 := 0xc001c0de
def LIBALLOC_DEAD : UInt32 := 0xdeaddead
def ALIGNMENT : UInt64 := 16
def ALIGN_INFO : UInt64 := 16
def l_pageSize : UInt32 := 4096
def l_pageCount : UInt32 := 16

/-- `sizeof(struct liballoc_major)` -/
def sizeof_major : UInt64 := 40
/-- `sizeof(struct liballoc_minor)` -/
def sizeof_minor : UInt64 := 40

/-! The fields of a `liballoc_major`, by address. -/

namespace Major
def prev (maj : UInt64) : UInt64 := maj
def next (maj : UInt64) : UInt64 := maj + 8
def pages (maj : UInt64) : UInt64 := maj + 16
def size (maj : UInt64) : UInt64 := maj + 20
def usage (maj : UInt64) : UInt64 := maj + 24
def first (maj : UInt64) : UInt64 := maj + 32
end Major

/-! The fields of a `liballoc_minor`, by address. -/

namespace Minor
def prev (min : UInt64) : UInt64 := min
def next (min : UInt64) : UInt64 := min + 8
def block (min : UInt64) : UInt64 := min + 16
def magic (min : UInt64) : UInt64 := min + 24
def size (min : UInt64) : UInt64 := min + 28
def req_size (min : UInt64) : UInt64 := min + 32
end Minor

/-- The distance from a pointer to the next boundary. -/
def align_diff (ptr : UInt64) : UInt64 :=
  let diff := (ptr + ALIGN_INFO) &&& (ALIGNMENT - 1)
  if diff ≠ 0 then ALIGNMENT - diff else diff

def ALIGN (ptr : UInt64) : Alloc UInt64 := do
  let aligned := ptr + ALIGN_INFO + align_diff ptr
  store8 (aligned - ALIGN_INFO) (align_diff ptr + ALIGN_INFO).toUInt8
  return aligned

/-- The byte before the pointer is a `char`, which has a sign. -/
def UNALIGN (ptr : UInt64) : Alloc UInt64 := do
  let diff := (← load8 (ptr - ALIGN_INFO)).toInt8.toInt64.toUInt64
  return if diff < ALIGNMENT + ALIGN_INFO then ptr - diff else ptr

/-! ## Helpers -/

def liballoc_alloc (num_pages : UInt64) : Alloc UInt64 := call (vmm_alloc_pages num_pages)

def liballoc_free (addr num_pages : UInt64) : Alloc Int32 := call (vmm_free_pages addr num_pages)

def liballoc_memset (s : UInt64) (c : UInt8) (n : UInt64) : Alloc UInt64 := do
  fill addresses 0
  return s
where
  /-- The counter has 32 bits. -/
  fill : Nat → UInt32 → Alloc Unit
    | 0, _ => throw .spin
    | rounds + 1, i => do
      if i.toUInt64 < n then
        store8 (s + i.toUInt64) c
        fill rounds (i + 1)

def liballoc_memcpy (s1 s2 n : UInt64) : Alloc UInt64 := do
  words addresses s1 s2 n
  return s1
where
  words : Nat → UInt64 → UInt64 → UInt64 → Alloc Unit
    | 0, _, _, _ => throw .spin
    | rounds + 1, ldest, lsrc, n => do
      if 4 ≤ n then
        store32 ldest (← load32 lsrc)
        words rounds (ldest + 4) (lsrc + 4) (n - 4)
      else
        bytes addresses ldest lsrc n
  bytes : Nat → UInt64 → UInt64 → UInt64 → Alloc Unit
    | 0, _, _, _ => throw .spin
    | rounds + 1, cdest, csrc, n => do
      if 0 < n then
        store8 cdest (← load8 csrc)
        bytes rounds (cdest + 1) (csrc + 1) (n - 1)

def warn : Alloc Unit := modify fun m => { m with l_warningCount := m.l_warningCount + 1 }

/-- How many pages `allocate_new_page` asks for, in 32 bits. -/
def page_count (size : UInt32) : UInt32 :=
  let st := size + sizeof_major.toUInt32 + sizeof_minor.toUInt32
  let st := if st % l_pageSize = 0 then st / l_pageSize else st / l_pageSize + 1
  if st < l_pageCount then l_pageCount else st

def allocate_new_page (size : UInt32) : Alloc UInt64 := do
  let st := page_count size
  let maj ← liballoc_alloc st.toUInt64
  if maj = NULL then
    warn
    return NULL
  store64 (Major.prev maj) NULL
  store64 (Major.next maj) NULL
  store32 (Major.pages maj) st
  store32 (Major.size maj) (st * l_pageSize)
  store32 (Major.usage maj) sizeof_major.toUInt32
  store64 (Major.first maj) NULL
  let size ← load32 (Major.size maj)
  modify fun m => { m with l_allocated := m.l_allocated + size.toUInt64 }
  return maj

/-! ## `kmalloc` -/

/-- `maj->usage += size + sizeof(struct liballoc_minor); l_inuse += size;` -/
def charge (maj size : UInt64) : Alloc Unit := do
  let usage ← load32 (Major.usage maj)
  store32 (Major.usage maj) (usage.toUInt64 + (size + sizeof_minor)).toUInt32
  modify fun m => { m with l_inuse := m.l_inuse + size }

namespace kmalloc

/-- CASE 2: It's a brand new block. -/
def brand_new (maj size req_size : UInt64) : Alloc UInt64 := do
  store64 (Major.first maj) (maj + sizeof_major)
  let first ← load64 (Major.first maj)
  store32 (Minor.magic first) LIBALLOC_MAGIC
  store64 (Minor.prev first) NULL
  store64 (Minor.next first) NULL
  store64 (Minor.block first) maj
  store32 (Minor.size first) size.toUInt32
  store32 (Minor.req_size first) req_size.toUInt32
  charge maj size
  ALIGN (first + sizeof_minor)

/-- CASE 3: space in front. Squeeze in. -/
def squeeze (maj size req_size : UInt64) : Alloc UInt64 := do
  let first ← load64 (Major.first maj)
  store64 (Minor.prev first) (maj + sizeof_major)
  let prev ← load64 (Minor.prev first)
  store64 (Minor.next prev) first
  store64 (Major.first maj) prev
  let first ← load64 (Major.first maj)
  store32 (Minor.magic first) LIBALLOC_MAGIC
  store64 (Minor.prev first) NULL
  store64 (Minor.block first) maj
  store32 (Minor.size first) size.toUInt32
  store32 (Minor.req_size first) req_size.toUInt32
  charge maj size
  ALIGN (first + sizeof_minor)

/-- CASE 4.1: the rest of this block is free. -/
def at_end (maj size req_size min : UInt64) : Alloc UInt64 := do
  store64 (Minor.next min) (min + sizeof_minor + (← load32 (Minor.size min)).toUInt64)
  let next ← load64 (Minor.next min)
  store64 (Minor.prev next) min
  let min := next
  store64 (Minor.next min) NULL
  store32 (Minor.magic min) LIBALLOC_MAGIC
  store64 (Minor.block min) maj
  store32 (Minor.size min) size.toUInt32
  store32 (Minor.req_size min) req_size.toUInt32
  charge maj size
  ALIGN (min + sizeof_minor)

/-- CASE 4.2: space between two minors. -/
def between (maj size req_size min : UInt64) : Alloc UInt64 := do
  let new_min := min + sizeof_minor + (← load32 (Minor.size min)).toUInt64
  store32 (Minor.magic new_min) LIBALLOC_MAGIC
  store64 (Minor.next new_min) (← load64 (Minor.next min))
  store64 (Minor.prev new_min) min
  store32 (Minor.size new_min) size.toUInt32
  store32 (Minor.req_size new_min) req_size.toUInt32
  store64 (Minor.block new_min) maj
  let next ← load64 (Minor.next min)
  store64 (Minor.prev next) new_min
  store64 (Minor.next min) new_min
  charge maj size
  ALIGN (new_min + sizeof_minor)

/-- CASE 4: There is enough space in this block. But is it contiguous? -/
def within (maj size req_size : UInt64) : Nat → UInt64 → Alloc (Option UInt64)
  | 0, _ => throw .spin
  | rounds + 1, min => do
    if min = NULL then
      return none
    let next ← load64 (Minor.next min)
    if next = NULL then
      let diff := maj + (← load32 (Major.size maj)).toUInt64 - min - sizeof_minor - (← load32 (Minor.size min)).toUInt64
      if diff ≥ size + sizeof_minor then
        return some (← at_end maj size req_size min)
      within maj size req_size rounds next
    else
      let diff := next - min - sizeof_minor - (← load32 (Minor.size min)).toUInt64
      if diff ≥ size + sizeof_minor then
        return some (← between maj size req_size min)
      within maj size req_size rounds next

/-- Cases 2 to 4: the space in one block. -/
def place (maj size req_size : UInt64) : Alloc (Option UInt64) := do
  let first ← load64 (Major.first maj)
  if first = NULL then
    return some (← brand_new maj size req_size)
  let diff := first - maj - sizeof_major
  if diff ≥ size + sizeof_minor then
    return some (← squeeze maj size req_size)
  within maj size req_size addresses first

/-- Where the loop over the majors goes from CASE 1. -/
inductive Turn
  /-- To the head of the loop. -/
  | again (maj : UInt64) (startedBet : Bool)
  /-- Out of the loop. -/
  | stop
  /-- On to the next cases. -/
  | through (maj : UInt64)

/-- The next block, which may be a new one. -/
def extend (maj size : UInt64) : Alloc UInt64 := do
  store64 (Major.next maj) (← allocate_new_page size.toUInt32)
  let next ← load64 (Major.next maj)
  if next ≠ NULL then
    store64 (Major.prev next) maj
  return next

/-- CASE 1: There is not enough space in this major block. -/
def hop (maj size diff : UInt64) (startedBet : Bool) : Alloc Turn := do
  if diff < size + sizeof_minor then
    let next ← load64 (Major.next maj)
    if next ≠ NULL then
      return .again next startedBet
    if startedBet then
      return .again (← get).l_memRoot false
    let next ← extend maj size
    return if next = NULL then .stop else .through next
  return .through maj

/-- `bestSize < diff`: this one has more memory than our bestBet. -/
def remember (maj bestSize diff : UInt64) : Alloc UInt64 := do
  if bestSize < diff then
    modify fun m => { m with l_bestBet := maj }
    return diff
  return bestSize

/-- `maj->size - maj->usage` -/
def room (maj : UInt64) : Alloc UInt64 := do
  return ((← load32 (Major.size maj)) - (← load32 (Major.usage maj))).toUInt64

/-- The loop over the majors. -/
def search (size req_size : UInt64) : Nat → UInt64 → Bool → UInt64 → Alloc UInt64
  | 0, _, _, _ => throw .spin
  | rounds + 1, maj, startedBet, bestSize => do
    if maj = NULL then
      return NULL
    let diff ← room maj
    let bestSize ← remember maj bestSize diff
    match ← hop maj size diff startedBet with
    | .again maj startedBet => search size req_size rounds maj startedBet bestSize
    | .stop => return NULL
    | .through maj =>
      match ← place maj size req_size with
      | some p => return p
      | none =>
        -- CASE 5: Block full! Ensure next block and loop.
        let next ← load64 (Major.next maj)
        if next ≠ NULL then
          search size req_size rounds next startedBet bestSize
        else if startedBet then
          search size req_size rounds (← get).l_memRoot false bestSize
        else
          let next ← extend maj size
          if next = NULL then
            return NULL
          search size req_size rounds next startedBet bestSize

/-- `kmalloc` once the size is known not to be zero. -/
def serve (req_size : UInt64) : Alloc UInt64 := do
  let size := req_size + (ALIGNMENT + ALIGN_INFO)
  if (← get).l_memRoot = NULL then
    let root ← allocate_new_page size.toUInt32
    modify fun m => { m with l_memRoot := root }
    if root = NULL then
      return NULL
  let m ← get
  if m.l_bestBet ≠ NULL then
    let bestSize ← room m.l_bestBet
    if bestSize > size + sizeof_minor then
      search size req_size addresses m.l_bestBet true bestSize
    else
      search size req_size addresses m.l_memRoot false bestSize
  else
    search size req_size addresses m.l_memRoot false 0

end kmalloc

/-- The size is zero only where the sum wraps; the call for one byte is then served. -/
def kmalloc (req_size : UInt64) : Alloc UInt64 := do
  if req_size + (ALIGNMENT + ALIGN_INFO) = 0 then
    warn
    kmalloc.serve 1
  else
    kmalloc.serve req_size

/-! ## `kfree` -/

/-- What is counted when the magic of a minor is wrong. -/
def bad_magic (magic : UInt32) : Alloc Unit := do
  modify fun m => { m with l_errorCount := m.l_errorCount + 1 }
  if magic &&& 0xFFFFFF = LIBALLOC_MAGIC &&& 0xFFFFFF ∨ magic &&& 0xFFFF = LIBALLOC_MAGIC &&& 0xFFFF ∨
      magic &&& 0xFF = LIBALLOC_MAGIC &&& 0xFF then
    modify fun m => { m with l_possibleOverruns := m.l_possibleOverruns + 1 }

namespace kfree

/-- Takes a minor out of its block. -/
def unlink_minor (maj min : UInt64) : Alloc Unit := do
  let next ← load64 (Minor.next min)
  if next ≠ NULL then
    store64 (Minor.prev next) (← load64 (Minor.prev min))
  let prev ← load64 (Minor.prev min)
  if prev ≠ NULL then
    store64 (Minor.next prev) (← load64 (Minor.next min))
  let prev ← load64 (Minor.prev min)
  if prev = NULL then
    store64 (Major.first maj) (← load64 (Minor.next min))

/-- Gives a block back that is completely unused. -/
def drop_major (maj : UInt64) : Alloc Unit := do
  let m ← get
  if m.l_memRoot = maj then
    let next ← load64 (Major.next maj)
    modify fun m => { m with l_memRoot := next }
  if m.l_bestBet = maj then
    modify fun m => { m with l_bestBet := NULL }
  let prev ← load64 (Major.prev maj)
  if prev ≠ NULL then
    store64 (Major.next prev) (← load64 (Major.next maj))
  let next ← load64 (Major.next maj)
  if next ≠ NULL then
    store64 (Major.prev next) (← load64 (Major.prev maj))
  let size ← load32 (Major.size maj)
  modify fun m => { m with l_allocated := m.l_allocated - size.toUInt64 }
  let pages ← load32 (Major.pages maj)
  let _ ← liballoc_free maj pages.toUInt64

/-- The sizes are compared as `int`. -/
def rebet (maj : UInt64) : Alloc Unit := do
  let m ← get
  if m.l_bestBet ≠ NULL then
    let bestSize := ((← load32 (Major.size m.l_bestBet)) - (← load32 (Major.usage m.l_bestBet))).toInt32
    let majSize := ((← load32 (Major.size maj)) - (← load32 (Major.usage maj))).toInt32
    if majSize > bestSize then
      modify fun m => { m with l_bestBet := maj }

/-- `kfree` once the minor is known to be one. -/
def release (min : UInt64) : Alloc Unit := do
  let maj ← load64 (Minor.block min)
  let size ← load32 (Minor.size min)
  modify fun m => { m with l_inuse := m.l_inuse - size.toUInt64 }
  let usage ← load32 (Major.usage maj)
  store32 (Major.usage maj) (usage.toUInt64 - (size.toUInt64 + sizeof_minor)).toUInt32
  store32 (Minor.magic min) LIBALLOC_DEAD
  unlink_minor maj min
  let first ← load64 (Major.first maj)
  if first = NULL then
    drop_major maj
  else
    rebet maj

end kfree

def kfree (ptr : UInt64) : Alloc Unit := do
  if ptr = NULL then
    warn
    return
  let ptr ← UNALIGN ptr
  let min := ptr - sizeof_minor
  let magic ← load32 (Minor.magic min)
  if magic ≠ LIBALLOC_MAGIC then
    bad_magic magic
    return
  kfree.release min

/-! ## `kcalloc` and `krealloc` -/

/-- `int real_size = nobj * size`, as the `size_t` that it is passed on as. -/
def real_size (nobj size : UInt64) : UInt64 := (nobj * size).toUInt32.toInt32.toInt64.toUInt64

def kcalloc (nobj size : UInt64) : Alloc UInt64 := do
  let p ← kmalloc (real_size nobj size)
  let _ ← liballoc_memset p 0 (real_size nobj size)
  return p

def krealloc (p size : UInt64) : Alloc UInt64 := do
  if size = 0 then
    kfree p
    return NULL
  if p = NULL then
    return ← kmalloc size
  let ptr ← UNALIGN p
  let min := ptr - sizeof_minor
  let magic ← load32 (Minor.magic min)
  if magic ≠ LIBALLOC_MAGIC then
    bad_magic magic
    return NULL
  let real_size ← load32 (Minor.req_size min)
  if real_size.toUInt64 ≥ size then
    store32 (Minor.req_size min) size.toUInt32
    return p
  let ptr ← kmalloc size
  let _ ← liballoc_memcpy ptr p real_size.toUInt64
  kfree p
  return ptr

end Extron.Kheap
