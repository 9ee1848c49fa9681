import Extron.Clients
import Extron.Leaks

/-!
The heap from the boot on. No page of the heap is taken when `kernel_stage1` returns, and
the globals of `kheap.c` are zero; from there every well-behaved client is served, its
memory keeps what it wrote, and no frame of physical memory leaks.
-/
namespace Extron.Liballoc
open Extron.Multiboot Extron.Format Extron.Pmm Extron.InitPmm Extron.FreeSet Extron.BootJobs Extron.KernelMap Extron.Regions Extron.Vmm
open Extron.OwnPages Extron.Startup Extron.Heap Extron.Leaks
open Extron.Fields Extron.Chains Extron.HeapBytes Extron.Outcomes Extron.Kheap Extron.Stores

/-- The globals of `kheap.c` as they are initialized. -/
def fresh (kernel : State) (ram : UInt64 → UInt8) : Machine where
  kernel := kernel
  ram := ram
  l_memRoot := NULL
  l_bestBet := NULL
  l_allocated := 0
  l_inuse := 0
  l_warningCount := 0
  l_errorCount := 0
  l_possibleOverruns := 0

/-- The arena without blocks. -/
def Arena.empty : Arena := ⟨[], .nil⟩

section
variable {s₀ start : State} {sections : List Elf64Shdr} {others : Set UInt64} {m : Machine} {A : Arena} {S : Store UInt8}

/-- After the boot the heap is empty. -/
theorem simulates_fresh (booted : Booted s₀ sections start) (ram : UInt64 → UInt8) :
    Simulates s₀ sections start ∅ (fresh start ram) .empty := by
  refine ⟨.empty, ⟨⟨booted.rest, .refl start, fun i inside => ?_, by simp, trivial⟩, rfl, .inl rfl, rfl, rfl⟩, ?_, rfl⟩
  · simp [Arena.empty, fresh, booted.unused i inside]
  · intro b member
    cases member

/-- How a run can stop: the kernel panics for want of memory. -/
theorem stops_of_outOfMemory {e : Halt} (stopped : OutOfMemory s₀ sections e m) :
    e = .panic .outOfMemory ∨ e = .panic .heapExhausted := by
  obtain ⟨s, n, _, _, unallocated⟩ := stopped
  cases unallocated with
  | starved starved => exact .inl starved.1
  | exhausted => exact .inr rfl

/-! ## Accounts -/

/-- The pages of the blocks are the bits that are set. -/
theorem card_takenBits (held : Held s₀ sections start ∅ m A) : 4096 * (takenBits m.kernel).card = A.total := by
  have apart : A.blocks.Pairwise fun b d : Block => (b.place - KERNEL_HEAP_START.toNat) / 4096 + b.pages ≤
      (d.place - KERNEL_HEAP_START.toNat) / 4096 ∨ (d.place - KERNEL_HEAP_START.toNat) / 4096 + d.pages ≤
      (b.place - KERNEL_HEAP_START.toNat) / 4096 := by
    refine A.apart.imp fun {b d} apart => ?_
    have := b.tidy.aligned
    have := d.tidy.aligned
    have := b.tidy.low
    have := d.tidy.low
    rw [Block.Apart, Block.stop, Block.stop] at apart
    rw [toNat_KERNEL_HEAP_START] at *
    omega
  obtain ⟨T, card, members⟩ := card_intervals apart
  have index : ∀ b : Block, ∀ i : UInt64, b.Has i ↔
      (b.place - KERNEL_HEAP_START.toNat) / 4096 ≤ i.toNat ∧ i.toNat < (b.place - KERNEL_HEAP_START.toNat) / 4096 + b.pages := by
    intro b i
    obtain ⟨a, _, _, place, has⟩ := b.bits
    rw [has, place, Nat.add_sub_cancel_left, Nat.mul_div_cancel_left _ (by norm_num)]
  have below : ∀ k ∈ T, k < 2 ^ 25 := by
    intro k member
    obtain ⟨b, _, low, high⟩ := (members k).mp member
    obtain ⟨a, _, room, place, _⟩ := b.bits
    rw [place, Nat.add_sub_cancel_left, Nat.mul_div_cancel_left _ (by norm_num)] at high
    omega
  have bits : takenBits m.kernel = T.image UInt64.ofNat := by
    ext i
    rw [mem_takenBits, Finset.mem_image]
    constructor
    · rintro ⟨inside, taken⟩
      obtain ⟨b, member, has⟩ := ((held.bits i inside).mp taken).resolve_left (Set.notMem_empty i)
      exact ⟨i.toNat, (members _).mpr ⟨b, member, (index b i).mp has⟩, UInt64.ofNat_toNat⟩
    · rintro ⟨k, member, rfl⟩
      have value : (UInt64.ofNat k).toNat = k := toNat_ofNat64 (by have := below k member; omega)
      have inside : (UInt64.ofNat k).toNat < 2 ^ 25 := by
        rw [value]
        exact below k member
      obtain ⟨b, there, range⟩ := (members k).mp member
      refine ⟨inside, (held.bits _ inside).mpr (.inr ⟨b, there, (index b _).mpr ?_⟩)⟩
      rw [value]
      exact range
  have injective : Set.InjOn UInt64.ofNat (T : Set Nat) := by
    intro j first k second same
    have value := congrArg UInt64.toNat same
    have := below j first
    have := below k second
    rw [toNat_ofNat64 (by omega), toNat_ofNat64 (by omega)] at value
    exact value
  rw [bits, Finset.card_image_of_injOn injective, card, Arena.total, ← List.sum_map_mul_left]

/-- The chunks of a list of blocks take up no more than the blocks have. -/
theorem used_le (blocks : List Block) :
    ((blocks.flatMap Block.chunks).map Chunk.size).sum ≤ (blocks.map fun b => 4096 * b.pages).sum := by
  induction blocks with
  | nil => exact le_rfl
  | cons b rest ih =>
    have sizes : ∀ chunks : List Chunk, (chunks.map Chunk.size).sum ≤ taken chunks := by
      intro chunks
      induction chunks with
      | nil => exact le_rfl
      | cons c cs ih =>
        rw [List.map_cons, List.sum_cons, taken_cons]
        omega
    have usage := b.usage_le
    have := sizes b.chunks
    rw [Block.usage] at usage
    rw [List.flatMap_cons, List.map_append, List.sum_append, List.map_cons, List.sum_cons]
    omega

/-- When there is no range left, there is no block left. -/
theorem blocks_of_empty (settled : A.Settled) (same : S.at_ = lookup m A.live) (empty : ∀ p, S.at_ p = none) : A.blocks = [] := by
  have none : A.live = [] := by
    rw [List.eq_nil_iff_forall_not_mem]
    intro c member
    have here := lookup_of_mem (m := m) A.live_apart member
    rw [← same, empty] at here
    cases here
  rw [List.eq_nil_iff_forall_not_mem]
  intro b member
  refine settled b member ?_
  rw [List.eq_nil_iff_forall_not_mem]
  intro c inB
  have there : c ∈ A.live := List.mem_flatMap.mpr ⟨b, member, inB⟩
  rw [none] at there
  cases there

/-- What `l_allocated` and `l_inuse` say, and which frames are used for it. -/
structure Accounts (start : State) (S : Store UInt8) (m : Machine) : Prop where
  allocated : m.l_allocated.toNat = 4096 * (takenBits m.kernel).card
  inuse : m.l_inuse ≤ m.l_allocated
  frames : (usedFrames m.kernel).card = (usedFrames start).card + (takenBits m.kernel).card + (heapTables m.kernel).card
  released : (∀ p, S.at_ p = none) → m.l_memRoot = NULL ∧ m.l_allocated = 0 ∧ m.l_inuse = 0 ∧ takenBits m.kernel = ∅

theorem accounts_of_simulates (booted : Booted s₀ sections start) (sim : Simulates s₀ sections start ∅ m S) : Accounts start S m := by
  obtain ⟨A, rep, settled, same⟩ := sim
  have total := A.total_le
  have used : A.used ≤ A.total := used_le A.blocks
  refine ⟨?_, ?_, card_usedFrames booted rep.rest rep.since, fun empty => ?_⟩
  · rw [rep.allocated, toNat_ofNat64 (by omega), card_takenBits rep.toHeld]
  · rw [UInt64.le_iff_toNat_le, rep.allocated, rep.inuse, toNat_ofNat64 (by omega), toNat_ofNat64 (by omega)]
    exact used
  · have none := blocks_of_empty settled same empty
    have zero : A.total = 0 := by rw [Arena.total, none]; rfl
    have nothing := card_takenBits rep.toHeld
    refine ⟨?_, ?_, ?_, Finset.card_eq_zero.mp (by omega)⟩
    · rw [rep.root, none]
      rfl
    · rw [rep.allocated, zero]
      rfl
    · rw [rep.inuse, show A.used = 0 by omega]
      rfl

end

/-! ## Runs -/

/-- Sizes that no sum wraps for, products that are not cut off, ranges that the client has. -/
abbrev Fairly (client : Client UInt8) : Prop := WellBehaved 16 (2 ^ 32 - 4208) (2 ^ 31) client

end Extron.Liballoc
