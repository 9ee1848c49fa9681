import Extron.Startup

/-!
How the processor translates addresses: the walk of four levels with its large pages,
the `nx` bit and the halves of the address space. Once the kernel has loaded its tables
the walk gives what the kernel's own functions read off them (`translate_of_frame`).
-/
namespace Extron.Mmu
open Extron.RadixTree Extron.Paging Extron.KernelMap

/-- The words of all page tables. -/
abbrev Frames := UInt64 → Fin 512 → UInt64

/-- The registers that paging depends on. -/
structure Control where
  cr0 : UInt64
  cr3 : UInt64
  cr4 : UInt64
  efer : UInt64
deriving DecidableEq, Repr

def CR0_PE : UInt64 := (1 : UInt64) <<< 0
def CR0_PG : UInt64 := (1 : UInt64) <<< 31
def CR4_PAE : UInt64 := (1 : UInt64) <<< 5
def EFER_LME : UInt64 := (1 : UInt64) <<< 8
def EFER_NXE : UInt64 := (1 : UInt64) <<< 11

/-- Protected mode with paging of four levels, `nx` bits allowed. -/
structure LongMode (c : Control) : Prop where
  pe : c.cr0 &&& CR0_PE ≠ 0
  pg : c.cr0 &&& CR0_PG ≠ 0
  pae : c.cr4 &&& CR4_PAE ≠ 0
  lme : c.efer &&& EFER_LME ≠ 0
  nxe : c.efer &&& EFER_NXE ≠ 0

/-- Bits 48 to 63 of the address repeat bit 47. -/
def SignExtended (v : UInt64) : Prop := v.toNat < 2 ^ 47 ∨ 2 ^ 64 - 2 ^ 47 ≤ v.toNat

instance (v : UInt64) : Decidable (SignExtended v) := inferInstanceAs (Decidable (_ ∨ _))

/-- A present word; without `EFER_NXE` its bit 63 is reserved. -/
def present (c : Control) (w : UInt64) : Option UInt64 :=
  if w &&& PAGE_PRESENT ≠ 0 ∧ (c.efer &&& EFER_NXE ≠ 0 ∨ w &&& PAGE_NX = 0) then some w else none

/-- The physical address that an address is translated to. -/
def physicalOf (c : Control) (frames : Frames) (v : UInt64) : Option UInt64 :=
  if SignExtended v then do
    let e4 ← present c (frames (c.cr3 &&& PAGE_ADDR_MASK) (PML4_IDX v))
    let e3 ← present c (frames (e4 &&& PAGE_ADDR_MASK) (PDPT_IDX v))
    if e3 &&& PAGE_HUGE ≠ 0 then
      return (e3 &&& 0x000FFFFFC0000000) + (v &&& 0x3FFFFFFF)
    let e2 ← present c (frames (e3 &&& PAGE_ADDR_MASK) (PD_IDX v))
    if e2 &&& PAGE_HUGE ≠ 0 then
      return (e2 &&& 0x000FFFFFFFE00000) + (v &&& 0x1FFFFF)
    let e1 ← present c (frames (e2 &&& PAGE_ADDR_MASK) (PT_IDX v))
    return (e1 &&& PAGE_ADDR_MASK) + (v &&& 0xFFF)
  else none

section
variable {c : Control} {w v root : UInt64} {s : State}

theorem present_eq (mode : LongMode c) : present c w = if w &&& PAGE_PRESENT ≠ 0 then some w else none := by
  rw [present]
  by_cases here : w &&& PAGE_PRESENT ≠ 0
  · rw [if_pos ⟨here, .inl mode.nxe⟩, if_pos here]
  · rw [if_neg (fun both => here both.1), if_neg here]

/-- What the walk makes of a word above the last level. -/
theorem present_link (mode : LongMode c) :
    (present c w = none ∧ link w = none) ∨ (present c w = some w ∧ w &&& PAGE_PRESENT ≠ 0 ∧ link w = some (w &&& PAGE_ADDR_MASK)) := by
  rw [present_eq mode, link]
  by_cases here : w &&& PAGE_PRESENT ≠ 0
  · exact .inr ⟨if_pos here, here, if_pos here⟩
  · exact .inl ⟨if_neg here, if_neg here⟩

theorem translate_outside (frames : Frames) (off : ¬ SignExtended v) : physicalOf c frames v = none := if_neg off

/-- The kernel's own reading of the tables, level by level. -/
theorem frameOf_links (n : Nat) :
    frameOf root s n = (link (s.frames root (index 3 n))).bind fun t3 =>
      (link (s.frames t3 (index 2 n))).bind fun t2 =>
        (link (s.frames t2 (index 1 n))).bind fun t1 => link (s.frames t1 (slot n)) := by
  have last (t : UInt64) : link (s.frames t (slot n)) =
      (Option.filter (fun w => w &&& PAGE_PRESENT ≠ 0) (some (s.frames t (slot n)))).map (· &&& PAGE_ADDR_MASK) := by
    rw [link, Option.filter]
    by_cases here : s.frames t (slot n) &&& PAGE_PRESENT ≠ 0
    · rw [if_pos here, if_pos (decide_eq_true here)]
      rfl
    · rw [if_neg here, if_neg (by simpa using here)]
      rfl
  simp only [frameOf, leaf, word, dir, descend, last]
  cases link (s.frames root (index 3 n)) with
  | none => rfl
  | some t3 =>
    simp only [Option.bind_some]
    cases link (s.frames t3 (index 2 n)) with
    | none => rfl
    | some t2 =>
      simp only [Option.bind_some]
      cases link (s.frames t2 (index 1 n)) with
      | none => rfl
      | some t1 => rfl

/-- On tables without large pages the walk ends in the frame of the page. -/
theorem translate_of_frame (mode : LongMode c) (shape : Shape root s) (loaded : c.cr3 &&& PAGE_ADDR_MASK = root) (extended : SignExtended v) :
    physicalOf c s.frames v = (frameOf root s (pageOf v)).map (· + (v &&& 0xFFF)) := by
  have flat {q : List (Fin 512)} {t : UInt64} (j : Fin 512) (short : q.length < 3) (reached : descend link s.frames root q = some t)
      (there : s.frames t j &&& PAGE_PRESENT ≠ 0) : ¬ s.frames t j &&& PAGE_HUGE ≠ 0 := by
    have word : word link s.frames root q j = some (s.frames t j) := by
      rw [word, reached]
      rfl
    exact not_not.mpr (shape.flat q j _ short word there)
  rw [physicalOf, if_pos extended, loaded, PML4_IDX_eq, PDPT_IDX_eq, PD_IDX_eq, PT_IDX_eq, frameOf_links]
  simp only [Option.bind_eq_bind]
  rcases present_link mode (w := s.frames root (index 3 (pageOf v))) with ⟨absent, none⟩ | ⟨e4, _, link4⟩
  · rw [absent, none]
    rfl
  rw [e4, link4, Option.bind_some, Option.bind_some]
  generalize s.frames root (index 3 (pageOf v)) &&& PAGE_ADDR_MASK = t3 at link4 ⊢
  have reached3 : descend link s.frames root [index 3 (pageOf v)] = some t3 := by rw [descend, link4]; rfl
  rcases present_link mode (w := s.frames t3 (index 2 (pageOf v))) with ⟨absent, none⟩ | ⟨e3, there3, link3⟩
  · rw [absent, none]
    rfl
  rw [e3, link3, Option.bind_some, Option.bind_some, if_neg (flat _ (by simp) reached3 there3)]
  generalize s.frames t3 (index 2 (pageOf v)) &&& PAGE_ADDR_MASK = t2 at link3 ⊢
  have reached2 : descend link s.frames root [index 3 (pageOf v), index 2 (pageOf v)] = some t2 := by
    rw [descend, link4, Option.bind_some, descend, link3]
    rfl
  rcases present_link mode (w := s.frames t2 (index 1 (pageOf v))) with ⟨absent, none⟩ | ⟨e2, there2, link2⟩
  · rw [absent, none]
    rfl
  rw [e2, link2, Option.bind_some, Option.bind_some, if_neg (flat _ (by simp) reached2 there2)]
  generalize s.frames t2 (index 1 (pageOf v)) &&& PAGE_ADDR_MASK = t1
  rcases present_link mode (w := s.frames t1 (slot (pageOf v))) with ⟨absent, none⟩ | ⟨e1, _, link1⟩
  · rw [absent, none]
    rfl
  · rw [e1, link1]
    rfl

end

end Extron.Mmu
