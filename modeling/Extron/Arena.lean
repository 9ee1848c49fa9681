import Extron.Searching

/-!
The heap as a whole. An arena is a list of blocks apart from each other; a machine
represents it when its records are linked in memory as the list is, when the pages of
the blocks are the pages taken for them, and when the globals of `kheap.c` say the same.
-/
namespace Extron.Liballoc
open Extron.Multiboot Extron.Regions Extron.Vmm Extron.OwnPages Extron.Startup Extron.Heap
open Extron.Fields Extron.Chains Extron.Kheap Extron.HeapBytes Extron.Outcomes
set_option linter.unusedSimpArgs false

/-- The blocks of the heap, in the order of their links. -/
structure Arena where
  blocks : List Block
  apart : blocks.Pairwise Block.Apart

namespace Arena

/-- The chunks of all blocks. -/
def live (A : Arena) : List Chunk := A.blocks.flatMap Block.chunks

/-- The bytes of all blocks. -/
def total (A : Arena) : Nat := (A.blocks.map fun b => 4096 * b.pages).sum

/-- The bytes of all chunks. -/
def used (A : Arena) : Nat := (A.live.map Chunk.size).sum

/-- No block is empty. -/
def Settled (A : Arena) : Prop := ∀ b ∈ A.blocks, b.chunks ≠ []

end Arena

/-- The page of the heap bit belongs to the block. -/
def Block.Has (b : Block) (i : UInt64) : Prop :=
  b.place ≤ KERNEL_HEAP_START.toNat + 4096 * i.toNat ∧ KERNEL_HEAP_START.toNat + 4096 * i.toNat < b.stop

/-- The pages and the records of the arena are there; the other heap pages taken are
    `others`, and since `start` only the heap has changed. -/
structure Held (s₀ : State) (sections : List Elf64Shdr) (start : State) (others : Set UInt64) (m : Machine) (A : Arena) : Prop where
  rest : AtRest s₀ sections m.kernel
  since : Within heapPages start m.kernel
  bits : ∀ i : UInt64, i.toNat < 2 ^ 25 → (Taken m.kernel i ↔ i ∈ others ∨ ∃ b ∈ A.blocks, b.Has i)
  foreign : ∀ i ∈ others, ∀ b ∈ A.blocks, ¬ b.Has i
  records : Chain Block.place (BlockAt (bytes m)) 0 A.blocks 0

/-- The machine represents the arena: it holds it, and the globals say the same. -/
structure Represents (s₀ : State) (sections : List Elf64Shdr) (start : State) (others : Set UInt64) (m : Machine) (A : Arena) : Prop
    extends Held s₀ sections start others m A where
  root : m.l_memRoot = UInt64.ofNat (first Block.place A.blocks 0)
  bet : m.l_bestBet = NULL ∨ ∃ b ∈ A.blocks, m.l_bestBet = UInt64.ofNat b.place
  allocated : m.l_allocated = UInt64.ofNat A.total
  inuse : m.l_inuse = UInt64.ofNat A.used

/-- Nothing was counted. -/
structure SameCounts (m m' : Machine) : Prop where
  warnings : m'.l_warningCount = m.l_warningCount
  errors : m'.l_errorCount = m.l_errorCount
  overruns : m'.l_possibleOverruns = m.l_possibleOverruns

/-- The client's bytes of every chunk are as they were, and so are the counts. -/
structure Kept (A : Arena) (m m' : Machine) : Prop extends SameCounts m m' where
  bytes : ∀ c ∈ A.live, ∀ x, c.user ≤ x → x < c.user + c.req_size → bytes m' x = bytes m x

/-! ## Sums -/

/-- Intervals apart from each other have as many numbers as their lengths say. -/
theorem card_intervals {α : Type} {f n : α → Nat} {xs : List α} (apart : xs.Pairwise fun x y => f x + n x ≤ f y ∨ f y + n y ≤ f x) :
    ∃ S : Finset Nat, S.card = (xs.map n).sum ∧ ∀ k, k ∈ S ↔ ∃ x ∈ xs, f x ≤ k ∧ k < f x + n x := by
  induction xs with
  | nil => exact ⟨∅, rfl, by simp⟩
  | cons x rest ih =>
    obtain ⟨first, others⟩ := List.pairwise_cons.mp apart
    obtain ⟨S, card, members⟩ := ih others
    have disjoint : Disjoint (Finset.Ico (f x) (f x + n x)) S := by
      rw [Finset.disjoint_left]
      intro k here there
      obtain ⟨y, member, low, high⟩ := (members k).mp there
      have := first y member
      rw [Finset.mem_Ico] at here
      omega
    refine ⟨Finset.Ico (f x) (f x + n x) ∪ S, ?_, fun k => ?_⟩
    · rw [Finset.card_union_of_disjoint disjoint, Nat.card_Ico, card, List.map_cons, List.sum_cons, Nat.add_sub_cancel_left]
    · rw [Finset.mem_union, Finset.mem_Ico, members]
      simp only [List.mem_cons, or_and_right, exists_or, exists_eq_left]

/-- The blocks have no more bytes than the heap. -/
theorem Arena.total_le (A : Arena) : A.total ≤ 2 ^ 37 := by
  obtain ⟨S, card, members⟩ := card_intervals (f := Block.place) (n := fun b => 4096 * b.pages) A.apart
  have sub : S ⊆ Finset.Ico KERNEL_HEAP_START.toNat (KERNEL_HEAP_START.toNat + KERNEL_HEAP_SIZE.toNat) := by
    intro x member
    obtain ⟨b, _, low, high⟩ := (members x).mp member
    have start := b.tidy.low
    have stop := b.tidy.high
    rw [Finset.mem_Ico]
    omega
  have bound := Finset.card_le_card sub
  rw [Nat.card_Ico, Nat.add_sub_cancel_left, toNat_KERNEL_HEAP_SIZE, card] at bound
  exact bound

theorem Arena.length_le (A : Arena) : A.blocks.length ≤ 2 ^ 25 := by
  have total := A.total_le
  have each : ∀ blocks : List Block, 4096 * blocks.length ≤ (blocks.map fun b => 4096 * b.pages).sum := by
    intro blocks
    induction blocks with
    | nil => simp
    | cons b rest ih =>
      have some := b.tidy.some
      rw [List.length_cons, List.map_cons, List.sum_cons]
      omega
  have count := each A.blocks
  rw [Arena.total] at total
  omega

/-! ## Heads -/

/-- The field lies in the record of the block or in the head of a chunk. -/
def InHeads (b : Block) (f : Field) : Prop :=
  b.place ≤ f.at_ ∧ f.at_ + f.width ≤ b.place + 40 ∨ ∃ e ∈ b.chunks, e.place ≤ f.at_ ∧ f.at_ + f.width ≤ e.user

section
variable {b d : Block} {c e : Chunk} {cs ds : List Chunk} {f : Field}

/-- Two chunks of a block are the same or one comes before the other. -/
theorem Block.order_cases (b : Block) (first : c ∈ b.chunks) (second : e ∈ b.chunks) :
    c = e ∨ c.stop ≤ e.place ∨ e.stop ≤ c.place := by
  have either : b.chunks.Pairwise fun c e => c.stop ≤ e.place ∨ e.stop ≤ c.place := b.tidy.order.imp Or.inl
  by_cases same : c = e
  · exact .inl same
  · have symm : Std.Symm fun c e : Chunk => c.stop ≤ e.place ∨ e.stop ≤ c.place := ⟨fun _ _ => Or.symm⟩
    exact .inr (either.forall first second same)

theorem Block.chunk_inside (b : Block) (member : c ∈ b.chunks) : b.place + 40 ≤ c.place ∧ c.stop ≤ b.stop :=
  b.tidy.inside c member

theorem InHeads.within (heads : InHeads b f) : b.place ≤ f.at_ ∧ f.at_ + f.width ≤ b.stop := by
  have some := b.tidy.some
  have edge : b.stop = b.place + 4096 * b.pages := rfl
  rcases heads with ⟨low, high⟩ | ⟨e, member, low, high⟩
  · omega
  · have inside := b.chunk_inside member
    have := e.user_stop
    omega

/-- The client's memory is not in the heads. -/
theorem InHeads.misses (heads : InHeads b f) (member : c ∈ b.chunks) : f.at_ + f.width ≤ c.user ∨ c.stop ≤ f.at_ := by
  have inside := b.chunk_inside member
  have := c.user_low
  rcases heads with ⟨_, high⟩ | ⟨e, other, low, high⟩
  · omega
  · have := e.user_stop
    rcases b.order_cases member other with rfl | order | order
    · exact .inl high
    · omega
    · omega

theorem inHeads_left {block : Nat} {target : Nat} (place : block = b.place) (sub : ∀ d ∈ cs, d ∈ b.chunks) :
    InHeads b (leftLink block cs target) := by
  rcases leftLink_cases block cs target with ⟨_, link⟩ | ⟨others, l, rfl, link⟩
  · rw [link]
    refine .inl ?_
    simp only []
    omega
  · rw [link]
    have := l.user_low
    refine .inr ⟨l, sub l (by simp), ?_⟩
    simp only []
    omega

theorem inHeads_right {target : Nat} (sub : ∀ d ∈ ds, d ∈ b.chunks) : ∀ f ∈ rightLink ds target, InHeads b f := by
  intro f member
  obtain ⟨r, head, rfl⟩ := mem_rightLink.mp member
  have := r.user_low
  refine .inr ⟨r, sub r (List.mem_of_head? head), ?_⟩
  simp only []
  omega

theorem inHeads_insert (split : b.chunks = cs ++ ds) (gap : Gap b.place b.pages cs c ds) :
    ∀ f ∈ insertFields b cs c ds, InHeads (b.insert split gap) f := by
  intro f member
  simp only [insertFields, List.mem_cons, List.mem_append] at member
  rcases member with rfl | rfl | right | minor
  · refine .inl ?_
    show b.place ≤ b.place + 24 ∧ b.place + 24 + 4 ≤ b.place + 40
    omega
  · exact inHeads_left rfl fun d member => List.mem_append_left _ member
  · exact inHeads_right (fun d member => List.mem_append_right _ (.tail _ member)) f right
  · exact .inr ⟨c, List.mem_append_right _ (.head _), minor_range f minor⟩

theorem inHeads_remove (split : b.chunks = cs ++ c :: ds) : ∀ f ∈ removeFields b cs c ds, InHeads b f := by
  have start := c.user_low
  intro f member
  simp only [removeFields, List.mem_cons] at member
  rcases member with rfl | rfl | rfl | right
  · refine .inl ?_
    simp only []
    omega
  · refine .inr ⟨c, by rw [split]; simp, ?_⟩
    simp only []
    omega
  · exact inHeads_left rfl fun d member => by rw [split]; simp [member]
  · exact inHeads_right (fun d member => by rw [split]; simp [member]) f right

end

/-! ## Blocks of an arena -/

section
variable {s₀ start : State} {sections : List Elf64Shdr} {others : Set UInt64} {m m' : Machine} {A : Arena} {b d : Block}
  {xs ys : List Block}

/-- The bytes of a block can be accessed. -/
theorem Held.spans (rep : Held s₀ sections start others m A) (member : b ∈ A.blocks) :
    Spans (bytes m) b.place b.stop := by
  have low := b.tidy.low
  have high := b.tidy.high
  have aligned := b.tidy.aligned
  have edge : b.stop = b.place + 4096 * b.pages := rfl
  intro x above below
  have inside : InHeap x := ⟨by omega, by omega⟩
  obtain ⟨value, small⟩ := inside.bit
  rw [isSome_bytes_iff rep.rest, rep.bits _ small]
  refine ⟨inside, .inr ⟨b, member, ?_⟩⟩
  rw [toNat_KERNEL_HEAP_START] at *
  rw [Block.Has, value, toNat_KERNEL_HEAP_START]
  omega

theorem Held.block (rep : Held s₀ sections start others m A) (list : A.blocks = xs ++ b :: ys) :
    BlockAt (bytes m) b (last Block.place 0 xs) (first Block.place ys 0) := by
  have records := rep.records
  rw [list] at records
  exact (chain_middle.mp records).2.1

/-- Two blocks of an arena at different positions are apart. -/
theorem Arena.apart_of_split (list : A.blocks = xs ++ b :: ys) : ∀ d ∈ xs ++ ys, d.Apart b := by
  have apart := A.apart
  rw [list] at apart
  obtain ⟨_, right, across⟩ := List.pairwise_append.mp apart
  intro d member
  rcases List.mem_append.mp member with first | second
  · exact across d first b (.head _)
  · exact ((List.pairwise_cons.mp right).1 d second).symm

theorem Arena.live_split (list : A.blocks = xs ++ b :: ys) :
    A.live = xs.flatMap Block.chunks ++ (b.chunks ++ ys.flatMap Block.chunks) := by
  rw [Arena.live, list, List.flatMap_append, List.flatMap_cons]

/-- The arena with a block changed where it is. -/
def Arena.replace (A : Arena) (list : A.blocks = xs ++ b :: ys) (place : d.place = b.place) (pages : d.pages = b.pages) : Arena where
  blocks := xs ++ d :: ys
  apart := by
    have stop : d.stop = b.stop := by rw [Block.stop, Block.stop, place, pages]
    have apart := A.apart
    rw [list] at apart
    obtain ⟨left, right, across⟩ := List.pairwise_append.mp apart
    obtain ⟨first, others⟩ := List.pairwise_cons.mp right
    have same : ∀ e : Block, b.Apart e ↔ d.Apart e := by
      intro e
      rw [Block.Apart, Block.Apart, place, stop]
    have same' : ∀ e : Block, e.Apart b ↔ e.Apart d := by
      intro e
      rw [Block.Apart, Block.Apart, place, stop]
    refine List.pairwise_append.mpr ⟨left, List.pairwise_cons.mpr ⟨fun e member => (same e).mp (first e member), others⟩, ?_⟩
    intro e member f other
    rcases List.mem_cons.mp other with rfl | later
    · exact (same' e).mp (across e member b (.head _))
    · exact across e member f (.tail _ later)

/-- When only heads of one block are stored to, the other blocks and the memory of every
    client are as they were. -/
theorem kept_of_heads {M M' : Memory} {ws : List Field} (written : Written ws M M') (heads : ∀ f ∈ ws, InHeads d f)
    (list : A.blocks = xs ++ b :: ys) (place : d.place = b.place) (pages : d.pages = b.pages) (sub : ∀ c ∈ b.chunks, c ∈ d.chunks) :
    (∀ e ∈ xs ++ ys, ∀ x, e.place ≤ x → x < e.stop → M' x = M x) ∧
      ∀ c ∈ A.live, ∀ x, c.user ≤ x → x < c.stop → M' x = M x := by
  have stop : d.stop = b.stop := by rw [Block.stop, Block.stop, place, pages]
  have apart := Arena.apart_of_split list
  have outside : ∀ e ∈ xs ++ ys, ∀ x, e.place ≤ x → x < e.stop → M' x = M x := by
    intro e member x low high
    have separate := apart e member
    refine written.keeps x fun f there => ?_
    have within := (heads f there).within
    rw [Block.Apart] at separate
    omega
  refine ⟨outside, ?_⟩
  intro c member x low high
  rw [Arena.live_split list] at member
  have start := c.user_low
  simp only [List.mem_append, List.mem_flatMap] at member
  rcases member with ⟨e, inXs, inE⟩ | inB | ⟨e, inYs, inE⟩
  · have inside := e.chunk_inside inE
    exact outside e (List.mem_append_left _ inXs) x (by omega) (by omega)
  · refine written.keeps x fun f there => ?_
    have := (heads f there).misses (sub c inB)
    omega
  · have inside := e.chunk_inside inE
    exact outside e (List.mem_append_right _ inYs) x (by omega) (by omega)

end

end Extron.Liballoc
