import Extron.HeapBytes
import Extron.Library.Chains

/-!
What the heap holds, apart from memory: blocks of pages, and in each block chunks in
the order of their addresses, which do not overlap. Each block and each chunk has a
record at its start, whose fields say what the lists say.
-/
namespace Extron.Liballoc
open Extron.Fields Extron.Chains Extron.Kheap Extron.HeapBytes
set_option linter.unusedSimpArgs false

/-! ## Chunks -/

/-- One allocation: where its record lies, how many bytes follow the record, and how
    many of them were asked for. -/
structure Chunk where
  place : Nat
  size : Nat
  req_size : Nat
  fits : req_size + 32 ≤ size

namespace Chunk

/-- The pointer that the client has. -/
def user (c : Chunk) : Nat := (c.place + 71) / 16 * 16

/-- The end of the chunk. -/
def stop (c : Chunk) : Nat := c.place + 40 + c.size

theorem user_aligned (c : Chunk) : c.user % 16 = 0 := Nat.mul_mod_left _ _

theorem user_low (c : Chunk) : c.place + 56 ≤ c.user := by
  rw [user]
  omega

theorem user_high (c : Chunk) : c.user ≤ c.place + 71 := by
  rw [user]
  omega

theorem user_stop (c : Chunk) : c.user + c.req_size ≤ c.stop := by
  have := c.user_high
  have := c.fits
  rw [stop]
  omega

/-- Chunks at different places that do not overlap. -/
def Before (c d : Chunk) : Prop := c.stop ≤ d.place

theorem Before.trans {c d e : Chunk} (first : c.Before d) (second : d.Before e) : c.Before e := by
  rw [Before, stop] at *
  omega

end Chunk

/-- The record of a chunk, and the byte before the client's memory. -/
def minorFields (block : Nat) (c : Chunk) (prev next : Nat) : List Field :=
  [⟨c.place, 8, prev⟩, ⟨c.place + 8, 8, next⟩, ⟨c.place + 16, 8, block⟩, ⟨c.place + 24, 4, LIBALLOC_MAGIC.toNat⟩,
    ⟨c.place + 28, 4, c.size⟩, ⟨c.place + 32, 4, c.req_size⟩, ⟨c.user - 16, 1, c.user - (c.place + 40)⟩]

/-- The bytes that the chunks take up with their records. -/
def taken (chunks : List Chunk) : Nat := (chunks.map fun c => 40 + c.size).sum

@[simp] theorem taken_nil : taken [] = 0 := rfl
@[simp] theorem taken_cons (c : Chunk) (cs : List Chunk) : taken (c :: cs) = 40 + c.size + taken cs := rfl

theorem taken_append (cs ds : List Chunk) : taken (cs ++ ds) = taken cs + taken ds := by
  rw [taken, taken, taken, List.map_append, List.sum_append]

/-- Each chunk takes up its record at least. -/
theorem length_le_taken (chunks : List Chunk) : 40 * chunks.length ≤ taken chunks := by
  induction chunks with
  | nil => simp
  | cons c cs ih =>
    rw [taken_cons, List.length_cons]
    omega

/-- Chunks in order between two addresses take up no more than lies between. -/
theorem taken_le {chunks : List Chunk} {lo hi : Nat} (order : chunks.Pairwise Chunk.Before)
    (inside : ∀ c ∈ chunks, lo ≤ c.place ∧ c.stop ≤ hi) (le : lo ≤ hi) : lo + taken chunks ≤ hi := by
  induction chunks generalizing lo with
  | nil => exact le
  | cons c cs ih =>
    obtain ⟨first, others⟩ := List.pairwise_cons.mp order
    obtain ⟨low, high⟩ := inside c (.head _)
    have rest : c.stop + taken cs ≤ hi := ih others (fun d member => ⟨first d member, (inside d (.tail _ member)).2⟩) high
    rw [Chunk.stop] at rest
    rw [taken_cons]
    omega

/-! ## Blocks -/

/-- The pages of a block lie in the heap, and its chunks lie in it after its record and
    in order. -/
structure Tidy (place pages : Nat) (chunks : List Chunk) : Prop where
  aligned : place % 4096 = 0
  low : KERNEL_HEAP_START.toNat ≤ place
  high : place + 4096 * pages ≤ KERNEL_HEAP_START.toNat + KERNEL_HEAP_SIZE.toNat
  some : 0 < pages
  small : 4096 * pages < 2 ^ 32
  order : chunks.Pairwise Chunk.Before
  inside : ∀ c ∈ chunks, place + 40 ≤ c.place ∧ c.stop ≤ place + 4096 * pages

/-- A block of pages. -/
structure Block where
  place : Nat
  pages : Nat
  chunks : List Chunk
  tidy : Tidy place pages chunks

namespace Block

/-- The end of the block. -/
def stop (b : Block) : Nat := b.place + 4096 * b.pages

/-- The bytes in use. -/
def usage (b : Block) : Nat := 40 + taken b.chunks

/-- Blocks that do not overlap. -/
def Apart (b d : Block) : Prop := b.stop ≤ d.place ∨ d.stop ≤ b.place

theorem Apart.symm {b d : Block} (apart : b.Apart d) : d.Apart b := Or.symm apart

instance : Std.Symm Apart := ⟨fun _ _ => Apart.symm⟩

theorem usage_le (b : Block) : b.usage ≤ 4096 * b.pages := by
  have some := b.tidy.some
  have total := taken_le b.tidy.order b.tidy.inside (by omega)
  rw [usage]
  omega

/-- Every address of a block is far below the end of the address space. -/
theorem stop_lt (b : Block) : b.stop < 2 ^ 64 - 2 ^ 32 := by
  have high := b.tidy.high
  rw [toNat_KERNEL_HEAP_START, toNat_KERNEL_HEAP_SIZE] at high
  rw [stop]
  omega

theorem place_pos (b : Block) : 0 < b.place := by
  have low := b.tidy.low
  rw [toNat_KERNEL_HEAP_START] at low
  omega

end Block

/-- The record of a block. -/
def majorFields (b : Block) (prev next : Nat) : List Field :=
  [⟨b.place, 8, prev⟩, ⟨b.place + 8, 8, next⟩, ⟨b.place + 16, 4, b.pages⟩, ⟨b.place + 20, 4, 4096 * b.pages⟩,
    ⟨b.place + 24, 4, b.usage⟩, ⟨b.place + 32, 8, first Chunk.place b.chunks 0⟩]

/-- The chunks are linked and described in memory. -/
def ChunksAt (M : Memory) (block : Nat) (chunks : List Chunk) : Prop :=
  Chain Chunk.place (fun c prev next => Holds (minorFields block c prev next) M) 0 chunks 0

/-- The block and its chunks are described in memory. -/
structure BlockAt (M : Memory) (b : Block) (prev next : Nat) : Prop where
  record : Holds (majorFields b prev next) M
  chunks : ChunksAt M b.place b.chunks

section
variable {M M' : Memory} {block prev next : Nat} {b : Block} {c d : Chunk} {cs ds : List Chunk} {fs : List Field}

theorem minor_range : ∀ f ∈ minorFields block c prev next, c.place ≤ f.at_ ∧ f.at_ + f.width ≤ c.user := by
  have := c.user_low
  intro f member
  simp only [minorFields, List.mem_cons, List.not_mem_nil, or_false] at member
  rcases member with rfl | rfl | rfl | rfl | rfl | rfl | rfl <;> simp only [] <;> omega

theorem major_range : ∀ f ∈ majorFields b prev next, b.place ≤ f.at_ ∧ f.at_ + f.width ≤ b.place + 40 := by
  intro f member
  simp only [majorFields, List.mem_cons, List.not_mem_nil, or_false] at member
  rcases member with rfl | rfl | rfl | rfl | rfl | rfl <;> simp only [] <;> omega

theorem ChunksAt.congr (here : ChunksAt M block cs)
    (same : ∀ c ∈ cs, ∀ x, c.place ≤ x → x < c.user → M' x = M x) : ChunksAt M' block cs :=
  here.mono fun c member _ _ held => held.congr minor_range (same c member)

/-- A block is described by its record and by the heads of its chunks. -/
theorem BlockAt.congr (here : BlockAt M b prev next) (header : ∀ x, b.place ≤ x → x < b.place + 40 → M' x = M x)
    (heads : ∀ c ∈ b.chunks, ∀ x, c.place ≤ x → x < c.user → M' x = M x) : BlockAt M' b prev next :=
  ⟨here.record.congr major_range header, here.chunks.congr heads⟩

/-- What lies outside of a block does not describe it. -/
theorem BlockAt.outside (here : BlockAt M b prev next) (same : ∀ x, b.place ≤ x → x < b.stop → M' x = M x) :
    BlockAt M' b prev next := by
  have some := b.tidy.some
  refine here.congr (fun x low high => same x low ?_) fun c member x low high => ?_
  · rw [Block.stop]
    omega
  · obtain ⟨first, last⟩ := b.tidy.inside c member
    have := c.user_stop
    refine same x (by omega) ?_
    rw [Block.stop]
    omega

/-- The field lies outside of the block. -/
def OutOf (b : Block) (f : Field) : Prop := f.at_ + f.width ≤ b.place ∨ b.stop ≤ f.at_

theorem pairwise_majorFields (b : Block) (prev next : Nat) : (majorFields b prev next).Pairwise Field.Apart := by
  simp only [majorFields, List.pairwise_cons, List.mem_cons, List.not_mem_nil, or_false, forall_eq_or_imp, forall_eq,
    Field.Apart, List.Pairwise.nil, and_true, IsEmpty.forall_iff, implies_true]
  omega

theorem OutOf.apart {f g : Field} (out : OutOf b f) (member : g ∈ majorFields b prev next) : f.Apart g := by
  obtain ⟨low, high⟩ := major_range g member
  have some := b.tidy.some
  rw [OutOf, Block.stop] at out
  rw [Field.Apart]
  omega

/-- The chunks of a block lie behind its record. -/
theorem BlockAt.chunks_congr (here : BlockAt M b prev next) (same : ∀ x, b.place + 40 ≤ x → x < b.stop → M' x = M x) :
    ChunksAt M' b.place b.chunks := by
  refine here.chunks.congr fun c member x low high => ?_
  obtain ⟨first, last⟩ := b.tidy.inside c member
  have := c.user_stop
  refine same x (by omega) ?_
  rw [Block.stop]
  omega

/-- Only the link of a block to what comes after it is stored. -/
theorem BlockAt.renext {target : Nat} (here : BlockAt M b prev next) (written : Written fs M M')
    (mine : ⟨b.place + 8, 8, target⟩ ∈ fs) (elsewhere : ∀ f ∈ fs, f = ⟨b.place + 8, 8, target⟩ ∨ OutOf b f) :
    BlockAt M' b prev target := by
  refine ⟨written.change here.record mine (by simp [majorFields]) (separate_of_pairwise (pairwise_majorFields b prev target))
    (fun g member other => ?_) fun f there => (elsewhere f there).imp_right fun out g member => out.apart member,
    here.chunks_congr fun x low high => written.keeps x fun f there => ?_⟩
  · simp only [majorFields, List.mem_cons, List.not_mem_nil, or_false, other, false_or] at member ⊢
    tauto
  · rcases elsewhere f there with rfl | out
    · simp only []
      omega
    · rw [OutOf] at out
      omega

/-- Only the link of a block to what comes before it is stored. -/
theorem BlockAt.reprev {target : Nat} (here : BlockAt M b prev next) (written : Written fs M M')
    (mine : ⟨b.place, 8, target⟩ ∈ fs) (elsewhere : ∀ f ∈ fs, f = ⟨b.place, 8, target⟩ ∨ OutOf b f) :
    BlockAt M' b target next := by
  refine ⟨written.change here.record mine (by simp [majorFields]) (separate_of_pairwise (pairwise_majorFields b target next))
    (fun g member other => ?_) fun f there => (elsewhere f there).imp_right fun out g member => out.apart member,
    here.chunks_congr fun x low high => written.keeps x fun f there => ?_⟩
  · simp only [majorFields, List.mem_cons, List.not_mem_nil, or_false, other, false_or] at member ⊢
    tauto
  · rcases elsewhere f there with rfl | out
    · simp only []
      omega
    · rw [OutOf] at out
      omega

end

end Extron.Liballoc
