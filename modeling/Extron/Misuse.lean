import Extron.HeapRuns

/-!
Clients that do not keep to the rules. A pointer that was given back: as long as the
pages of its block are there, `kfree` and `krealloc` find the mark of the first `kfree`
and only count an error; once the pages are gone, the same calls are a page fault. And
a product that `kcalloc` cuts off: the memory is for what is left of it.
-/
namespace Extron.Liballoc
open Extron.Multiboot Extron.Format Extron.Pmm Extron.InitPmm Extron.FreeSet Extron.BootJobs Extron.KernelMap Extron.Regions Extron.Vmm
open Extron.OwnPages Extron.Startup Extron.Heap Extron.Leaks
open Extron.Fields Extron.Chains Extron.HeapBytes Extron.Outcomes Extron.Kheap Extron.Stores
set_option linter.unusedSimpArgs false

section
variable {s₀ start : State} {sections : List Elf64Shdr} {others : Set UInt64} {m m' : Machine} {A : Arena} {b : Block} {c : Chunk}
  {xs ys : List Block} {cs ds : List Chunk}

/-- The machine with one more error counted. -/
def counted (m : Machine) : Machine := { m with l_errorCount := m.l_errorCount + 1 }

/-- The mark of `kfree` is not taken for an overrun. -/
theorem bad_magic_dead (m : Machine) : bad_magic LIBALLOC_DEAD m = .ok () (counted m) := by
  have other : ¬ (LIBALLOC_DEAD &&& 0xFFFFFF = LIBALLOC_MAGIC &&& 0xFFFFFF ∨ LIBALLOC_DEAD &&& 0xFFFF = LIBALLOC_MAGIC &&& 0xFFFF ∨
      LIBALLOC_DEAD &&& 0xFF = LIBALLOC_MAGIC &&& 0xFF) := by decide
  rw [bad_magic, modify_bind, if_neg other]
  rfl

/-- The record of a chunk that was taken out still leads to its mark. -/
theorem dead_record (here : BlockAt (bytes m) b (last Block.place 0 xs) (first Block.place ys 0)) (split : b.chunks = cs ++ c :: ds)
    (cut : Cut m m' b cs c ds) :
    Field.In ⟨c.user - 16, 1, c.user - (c.place + 40)⟩ (bytes m') ∧ Field.In ⟨c.place + 24, 4, LIBALLOC_DEAD.toNat⟩ (bytes m') := by
  obtain ⟨lefts, rights, _, low, high⟩ := sides_of_split split
  have start := c.user_low
  have edge := c.user_high
  have stop := c.user_stop
  refine ⟨cut.written.keep (here.minorField split (by simp [minorFields])) fun f member => ?_, cut.written.holds _ (by simp [removeFields])⟩
  rw [Field.Apart]
  simp only [removeFields, List.mem_cons] at member
  rcases member with rfl | rfl | rfl | right
  · simp only []
    omega
  · simp only []
    omega
  · rcases leftLink_cases b.place cs (first Chunk.place ds 0) with ⟨_, link⟩ | ⟨others, l, rfl, link⟩
    · rw [link]
      simp only []
      omega
    · have := (lefts l (by simp)).2
      have := l.user_low
      have := l.user_stop
      rw [link]
      simp only []
      omega
  · obtain ⟨r, head, rfl⟩ := mem_rightLink.mp right
    have := (rights r (List.mem_of_head? head)).2
    simp only []
    omega

theorem load8_fault {a : Nat} (inside : InHeap a) (none : bytes m a = none) :
    load8 (UInt64.ofNat a) m = .error (.fault (UInt64.ofNat a)) m := by
  rw [bytes, if_pos inside, Option.map_eq_none_iff] at none
  rw [load8, none]

/-- The pages of a block that was given back are not mapped. -/
theorem bytes_dropped {A' : Arena} (rep : Represents s₀ sections start others m A) (list : A.blocks = xs ++ b :: ys)
    (rep' : Represents s₀ sections start others m' A') (blocks : A'.blocks = xs ++ ys) {x : Nat} (low : b.place ≤ x) (high : x < b.stop) :
    InHeap x ∧ bytes m' x = none := by
  have first := b.tidy.low
  have last := b.tidy.high
  have edge : b.stop = b.place + 4096 * b.pages := rfl
  have inside : InHeap x := ⟨by omega, by omega⟩
  obtain ⟨value, small⟩ := inside.bit
  refine ⟨inside, Option.not_isSome_iff_eq_none.mp fun here => ?_⟩
  obtain ⟨_, taken⟩ := (isSome_bytes_iff rep'.rest).mp here
  have has : b.Has (bitOf x) := by
    have aligned := b.tidy.aligned
    rw [toNat_KERNEL_HEAP_START] at *
    rw [Block.Has, value, toNat_KERNEL_HEAP_START]
    omega
  rcases (rep'.bits _ small).mp taken with foreign | ⟨d, member, other⟩
  · exact rep.foreign _ foreign b (by rw [list]; simp) has
  · have apart := Arena.apart_of_split list d (blocks ▸ member)
    rw [Block.Apart] at apart
    rw [Block.Has] at has other
    omega

/-- What `kfree` and `krealloc` do with a pointer whose record has the mark. -/
theorem marked_ok (align : Field.In ⟨c.user - 16, 1, c.user - (c.place + 40)⟩ (bytes m))
    (dead : Field.In ⟨c.place + 24, 4, LIBALLOC_DEAD.toNat⟩ (bytes m)) (small : c.stop < 2 ^ 64 - 2 ^ 32) :
    kfree (UInt64.ofNat c.user) m = .ok () (counted m) ∧
      ∀ size : UInt64, size ≠ 0 → krealloc (UInt64.ofNat c.user) size m = .ok NULL (counted m) := by
  have low := c.user_low
  have stop := c.user_stop
  have unaligned := unalign_ok align (by omega)
  have nonzero : UInt64.ofNat c.user ≠ NULL := by
    rw [ne_eq, ofNat_eq_NULL (by omega)]
    omega
  have min : UInt64.ofNat (c.place + 40) - sizeof_minor = UInt64.ofNat c.place := by
    have forty : sizeof_minor = UInt64.ofNat 40 := rfl
    rw [forty, sub_ofNat (by omega) (by omega), Nat.add_sub_cancel]
  have magic : load32 (UInt64.ofNat (c.place + 24)) m = .ok LIBALLOC_DEAD m := load32_ok dead
  have other : LIBALLOC_DEAD ≠ LIBALLOC_MAGIC := by decide
  constructor
  · rw [kfree, if_neg nonzero, bind_ok unaligned]
    simp only [min, minor_magic_ofNat]
    rw [bind_ok magic, if_pos other, bind_ok (bad_magic_dead m)]
    rfl
  · intro size some
    rw [krealloc, if_neg some, if_neg nonzero, bind_ok unaligned]
    simp only [min, minor_magic_ofNat]
    rw [bind_ok magic, if_pos other, bind_ok (bad_magic_dead m)]
    rfl

/-- And with a pointer into pages that are not there. -/
theorem unmapped_fault (inside : InHeap (c.user - 16)) (none : bytes m (c.user - 16) = none) (small : c.stop < 2 ^ 64 - 2 ^ 32) :
    kfree (UInt64.ofNat c.user) m = .error (.fault (UInt64.ofNat (c.user - 16))) m ∧
      ∀ size : UInt64, size ≠ 0 → krealloc (UInt64.ofNat c.user) size m = .error (.fault (UInt64.ofNat (c.user - 16))) m := by
  have low := c.user_low
  have stop := c.user_stop
  have nonzero : UInt64.ofNat c.user ≠ NULL := by
    rw [ne_eq, ofNat_eq_NULL (by omega)]
    omega
  have before : UInt64.ofNat c.user - ALIGN_INFO = UInt64.ofNat (c.user - 16) := sub_ofNat (k := 16) (by omega) (by omega)
  have faults : UNALIGN (UInt64.ofNat c.user) m = .error (.fault (UInt64.ofNat (c.user - 16))) m := by
    rw [UNALIGN, before, bind_error (load8_fault inside none)]
  constructor
  · rw [kfree, if_neg nonzero, bind_error faults]
  · intro size some
    rw [krealloc, if_neg some, if_neg nonzero, bind_error faults]

/-- What the calls do with a pointer that was given back. -/
structure Stale (p : UInt64) (m : Machine) (r : ∀ α : Type, α → EStateM.Result Halt Machine α) : Prop where
  kfree : kfree p m = r Unit ()
  krealloc : ∀ size : UInt64, size ≠ 0 → krealloc p size m = r UInt64 NULL

/-- After `kfree` either the block still has its pages or the bytes of the block are counted off. -/
theorem kfree_stale (rep : Represents s₀ sections start others m A) (member : c ∈ A.live) :
    ∃ m', kfree (UInt64.ofNat c.user) m = .ok () m' ∧
      (m'.l_allocated = m.l_allocated ∧ Stale (UInt64.ofNat c.user) m' (fun _ v => .ok v (counted m')) ∨
        m'.l_allocated ≠ m.l_allocated ∧ Stale (UInt64.ofNat c.user) m' fun _ _ => .error (.fault (UInt64.ofNat c.user - 16)) m') := by
  obtain ⟨xs, b, ys, cs, ds, list, split⟩ := split_of_live member
  obtain ⟨nonzero, unaligned, min, magic, _⟩ := record_ok rep member
  obtain ⟨m₁, m', run, cut, left⟩ := release_left rep list split
  obtain ⟨align, dead⟩ := dead_record (rep.block list) split cut
  have small := user_lt member
  have low := c.user_low
  have stop := c.user_stop
  refine ⟨m', ?_, ?_⟩
  · rw [kfree, if_neg nonzero, bind_ok unaligned]
    simp only [min, minor_magic_ofNat]
    rw [bind_ok magic, if_neg (not_not_intro rfl)]
    exact run
  · cases left with
    | used some bet machine _ =>
      subst machine
      obtain ⟨freed, resized⟩ := marked_ok (m := { m₁ with l_bestBet := bet }) align dead small
      have same := cut.same
      refine .inl ⟨?_, freed, resized⟩
      show m₁.l_allocated = _
      rw [same]
    | @dropped empty A' blocks _ rep' _ =>
      have inside := b.chunk_inside (c := c) (by rw [split]; simp)
      obtain ⟨inHeap, none⟩ := bytes_dropped rep list rep' blocks (x := c.user - 16) (by omega) (by omega)
      obtain ⟨freed, resized⟩ := unmapped_fault inHeap none small
      have address : UInt64.ofNat c.user - 16 = UInt64.ofNat (c.user - 16) := sub_ofNat (k := 16) (by omega) (by omega)
      rw [address]
      refine .inr ⟨?_, freed, resized⟩
      -- the block had pages, so the sum is another one
      have total : A.total = A'.total + 4096 * b.pages := by
        rw [Arena.total, Arena.total, blocks, list]
        simp only [List.map_append, List.map_cons, List.sum_append, List.sum_cons]
        omega
      have bound := A.total_le
      have some := b.tidy.some
      rw [rep.allocated, rep'.allocated]
      intro equal
      have value := congrArg UInt64.toNat equal
      rw [toNat_ofNat64 (by omega), toNat_ofNat64 (by omega)] at value
      omega

end

end Extron.Liballoc
