import Extron.Arena

/-!
How the arena grows: a chunk is put into a block, and a new block is asked from the
page allocator and linked behind the last one.
-/
namespace Extron.Liballoc
open Extron.Multiboot Extron.Paging Extron.Regions Extron.Vmm Extron.OwnPages Extron.Startup Extron.Heap
open Extron.Fields Extron.Chains Extron.HeapBytes Extron.Outcomes Extron.Kheap
set_option linter.unusedSimpArgs false

section
variable {s₀ start : State} {sections : List Elf64Shdr} {others : Set UInt64} {m m' : Machine} {A : Arena} {b d : Block}
  {xs ys : List Block} {c : Chunk} {cs ds : List Chunk}

/-! ## Changing one block -/

/-- What another block with the same pages does not change. -/
theorem exists_replace {P : Nat → Nat → Prop} (list : A.blocks = xs ++ b :: ys) (place : d.place = b.place)
    (pages : d.pages = b.pages) :
    (∃ e ∈ (A.replace list place pages).blocks, P e.place e.pages) ↔ ∃ e ∈ A.blocks, P e.place e.pages := by
  rw [Arena.replace, list]
  simp only [List.mem_append, List.mem_cons]
  constructor
  · rintro ⟨e, left | rfl | right, holds⟩
    · exact ⟨e, .inl left, holds⟩
    · exact ⟨b, .inr (.inl rfl), by rw [← place, ← pages]; exact holds⟩
    · exact ⟨e, .inr (.inr right), holds⟩
  · rintro ⟨e, left | rfl | right, holds⟩
    · exact ⟨e, .inl left, holds⟩
    · exact ⟨d, .inr (.inl rfl), by rw [place, pages]; exact holds⟩
    · exact ⟨e, .inr (.inr right), holds⟩

/-- A machine in which one block was changed where it is. -/
theorem Represents.replace (rep : Represents s₀ sections start others m A) (list : A.blocks = xs ++ b :: ys)
    (place : d.place = b.place) (pages : d.pages = b.pages) (kernel : m'.kernel = m.kernel)
    (outside : ∀ e ∈ xs ++ ys, ∀ x, e.place ≤ x → x < e.stop → bytes m' x = bytes m x)
    (changed : ∀ p q, BlockAt (bytes m) b p q → BlockAt (bytes m') d p q)
    (root : m'.l_memRoot = m.l_memRoot) (bet : m'.l_bestBet = m.l_bestBet ∨ m'.l_bestBet = UInt64.ofNat b.place)
    (allocated : m'.l_allocated = m.l_allocated) (inuse : m'.l_inuse = UInt64.ofNat (A.replace list place pages).used) :
    Represents s₀ sections start others m' (A.replace list place pages) := by
  have has : ∀ i, (∃ e ∈ (A.replace list place pages).blocks, e.Has i) ↔ ∃ e ∈ A.blocks, e.Has i := fun i =>
    exists_replace (P := fun place pages => place ≤ KERNEL_HEAP_START.toNat + 4096 * i.toNat ∧
      KERNEL_HEAP_START.toNat + 4096 * i.toNat < place + 4096 * pages) list place pages
  refine ⟨⟨?_, ?_, ?_, ?_, ?_⟩, ?_, ?_, ?_, inuse⟩
  · rw [kernel]
    exact rep.rest
  · rw [kernel]
    exact rep.since
  · intro i small
    rw [kernel, rep.bits i small, has]
  · intro i member e there holds
    obtain ⟨e', there', holds'⟩ := (has i).mp ⟨e, there, holds⟩
    exact rep.foreign i member e' there' holds'
  · have records := rep.records
    rw [list] at records
    refine records.replace place (fun e member p q here => ?_) changed (fun e member p q here => ?_)
    · exact here.outside (outside e (List.mem_append_left _ member))
    · exact here.outside (outside e (List.mem_append_right _ member))
  · rw [root, rep.root, list, Arena.replace, first_append, first_append, first_cons, first_cons, place]
  · have bets : ∀ v, (∃ e ∈ A.blocks, v = UInt64.ofNat e.place) →
        ∃ e ∈ (A.replace list place pages).blocks, v = UInt64.ofNat e.place := fun v =>
      (exists_replace (P := fun place _ => v = UInt64.ofNat place) list place pages).mpr
    rcases bet with same | here
    · rw [same]
      exact rep.bet.imp_right (bets _)
    · exact .inr (bets _ ⟨b, by rw [list]; simp, here⟩)
  · rw [allocated, rep.allocated, Arena.total, Arena.total, list, Arena.replace]
    simp only [List.map_append, List.map_cons, List.sum_append, List.sum_cons, pages]

/-- The chunks once one block has changed. -/
theorem live_replace (list : A.blocks = xs ++ b :: ys) (place : d.place = b.place) (pages : d.pages = b.pages) :
    (A.replace list place pages).live = xs.flatMap Block.chunks ++ (d.chunks ++ ys.flatMap Block.chunks) :=
  Arena.live_split rfl

theorem used_cons {A A' : Arena} (more : A'.live.Perm (c :: A.live)) : A'.used = c.size + A.used := by
  rw [Arena.used, (more.map Chunk.size).sum_eq, List.map_cons, List.sum_cons]
  rfl

theorem live_insert (list : A.blocks = xs ++ b :: ys) (split : b.chunks = cs ++ ds) (gap : Gap b.place b.pages cs c ds) :
    (A.replace list (b.place_insert split gap) (b.pages_insert split gap)).live.Perm (c :: A.live) := by
  rw [live_replace, Arena.live_split list, split]
  show (xs.flatMap Block.chunks ++ ((cs ++ c :: ds) ++ ys.flatMap Block.chunks)).Perm _
  rw [List.append_assoc, List.append_assoc, List.cons_append, ← List.append_assoc, ← List.append_assoc]
  exact List.perm_middle

/-- A chunk was put into a block of the arena. -/
theorem Represents.put (rep : Represents s₀ sections start others m A) (list : A.blocks = xs ++ b :: ys) (split : b.chunks = cs ++ ds)
    (gap : Gap b.place b.pages cs c ds) (put : Put m m' b cs c ds) :
    Represents s₀ sections start others m' (A.replace list (b.place_insert split gap) (b.pages_insert split gap)) ∧ Kept A m m' := by
  obtain ⟨outside, clients⟩ := kept_of_heads (d := b.insert split gap) put.written (inHeads_insert split gap) list (b.place_insert split gap)
    (b.pages_insert split gap) (by
    rw [split, Block.insert]
    intro e member
    rcases List.mem_append.mp member with first | second
    · exact List.mem_append_left _ first
    · exact List.mem_append_right _ (.tail _ second))
  have same := put.same
  constructor
  · refine rep.replace list (b.place_insert split gap) (b.pages_insert split gap) ?_ outside (fun p q here => here.insert split gap put.written) ?_ (.inl ?_) ?_ ?_
    · rw [same]
    · rw [same]
    · rw [same]
    · rw [same]
    · rw [same, used_cons (live_insert list split gap), Nat.add_comm, UInt64.ofNat_add, ← rep.inuse]
  · refine ⟨⟨?_, ?_, ?_⟩, fun e member x low high => clients e member x low ?_⟩
    · rw [same]
    · rw [same]
    · rw [same]
    · have := e.user_stop
      omega

end

/-! ## Pages -/

/-- The pages of a new block for a chunk of `size` bytes. -/
def pagesFor (size : Nat) : Nat := max 16 ((size + 80 + 4095) / 4096)

/-- The sizes for which no 32-bit sum wraps. -/
def Small (size : Nat) : Prop := size + 4176 ≤ 2 ^ 32

theorem pagesFor_room (size : Nat) : size + 80 ≤ 4096 * pagesFor size := by
  rw [pagesFor]
  omega

theorem pagesFor_lt {size : Nat} (small : Small size) : 4096 * pagesFor size < 2 ^ 32 := by
  rw [Small] at small
  rw [pagesFor]
  omega

theorem toNat_page_count {size : Nat} (small : Small size) : (page_count (UInt32.ofNat size)).toNat = pagesFor size := by
  rw [Small] at small
  have sum : (UInt32.ofNat size + sizeof_major.toUInt32 + sizeof_minor.toUInt32).toNat = size + 80 := by
    have forty : sizeof_major.toUInt32.toNat = 40 := rfl
    have forty' : sizeof_minor.toUInt32.toNat = 40 := rfl
    rw [UInt32.toNat_add, UInt32.toNat_add, toNat_ofNat32 (by omega), forty, forty']
    omega
  have page : l_pageSize.toNat = 4096 := rfl
  have count : l_pageCount.toNat = 16 := rfl
  have least : ∀ st : UInt32, st.toNat = (size + 80 + 4095) / 4096 →
      (if st < l_pageCount then l_pageCount else st).toNat = pagesFor size := by
    intro st rounded
    rw [pagesFor]
    split
    · rename_i few
      rw [UInt32.lt_iff_toNat_lt, rounded, count] at few
      rw [count]
      omega
    · rename_i many
      rw [UInt32.lt_iff_toNat_lt, rounded, count] at many
      rw [rounded]
      omega
  rw [page_count]
  by_cases whole : (UInt32.ofNat size + sizeof_major.toUInt32 + sizeof_minor.toUInt32) % l_pageSize = 0
  · simp only [if_pos whole]
    have value := congrArg UInt32.toNat whole
    rw [UInt32.toNat_mod, sum, page, UInt32.toNat_zero] at value
    refine least _ ?_
    rw [UInt32.toNat_div, sum, page]
    omega
  · simp only [if_neg whole]
    have value : (size + 80) % 4096 ≠ 0 := by
      intro zero
      exact whole (UInt32.toNat_inj.mp (by rw [UInt32.toNat_mod, sum, page, zero]; rfl))
    refine least _ ?_
    rw [UInt32.toNat_add, UInt32.toNat_div, sum, page, UInt32.toNat_one]
    omega

section
variable {s₀ start : State} {sections : List Elf64Shdr} {others : Set UInt64} {m m' : Machine} {A : Arena} {s : State} {n a : UInt64}

/-- A call keeps the globals and the contents of memory. -/
theorem post_call {α : Type} {x : Kernel α} {Q : α → Machine → Prop} {E : Halt → Machine → Prop}
    (holds : Post (fun v s => Q v { m with kernel := s }) (fun e s => E e { m with kernel := s }) (x m.kernel)) :
    Post Q E (call x m) := by
  rw [call]
  cases ran : x m.kernel with
  | ok v s =>
    rw [ran] at holds
    exact holds
  | error e s =>
    rw [ran] at holds
    exact holds

/-- Outside of the pages that a call works on, memory is as it was. -/
theorem bytes_within {pages : Set Nat} {x : Nat} (within : Within pages m.kernel s) (out : pageOf (UInt64.ofNat x) ∉ pages) :
    bytes { m with kernel := s } x = bytes m x := by
  have same := within.leaves _ (pageOf_lt _) out
  simp only [bytes, physical, frameOf, within.root, same]

/-- The pages of an allocation were not there before. -/
theorem allocated_new {x : Nat} (rest : AtRest s₀ sections m.kernel) (allocated : Allocated s₀ sections n a m.kernel s)
    (here : (bytes m x).isSome) : bytes { m with kernel := s } x = bytes m x := by
  obtain ⟨inside, taken⟩ := (isSome_bytes_iff rest).mp here
  refine bytes_within allocated.within ?_
  intro member
  rw [inside.page, pagesFrom, Set.mem_Ico, heapPage, heapPage, heapPage] at member
  exact allocated.gap.clear (bitOf x) (by omega) (by omega) taken

theorem toNat_block_place (high : a.toNat + n.toNat ≤ 2 ^ 25) (some : n ≠ 0) :
    KERNEL_HEAP_START + a * PAGE_SIZE = UInt64.ofNat (KERNEL_HEAP_START.toNat + 4096 * a.toNat) := by
  have count : n.toNat ≠ 0 := fun zero => some (UInt64.toNat_inj.mp zero)
  have value := (heap_address (i := a) (by omega)).1
  apply UInt64.toNat_inj.mp
  rw [value, toNat_ofNat64]
  rw [toNat_KERNEL_HEAP_START]
  omega

/-- The pages of an allocation can be accessed. -/
theorem allocated_spans (allocated : Allocated s₀ sections n a m.kernel s) :
    Spans (bytes { m with kernel := s }) (KERNEL_HEAP_START.toNat + 4096 * a.toNat)
      (KERNEL_HEAP_START.toNat + 4096 * a.toNat + 4096 * n.toNat) := by
  have high := allocated.gap.high
  intro x low below
  have inside : InHeap x := by
    rw [InHeap, toNat_KERNEL_HEAP_SIZE]
    omega
  obtain ⟨value, _⟩ := inside.bit
  have rest : AtRest s₀ sections ({ m with kernel := s } : Machine).kernel := allocated.rest
  rw [isSome_bytes_iff rest]
  exact ⟨inside, (allocated.bits _).mpr (.inr (by omega))⟩

/-! ## A new block -/

/-- How the heap can run out: no frame is free, or the heap has no gap for the pages. -/
def OutOfMemory (s₀ : State) (sections : List Elf64Shdr) (e : Halt) (m : Machine) : Prop :=
  ∃ s n, AtRest s₀ sections s ∧ n ≠ 0 ∧ Unallocated s₀ s n e m.kernel

/-- An empty block that is not linked yet. -/
structure Fresh (s₀ : State) (sections : List Elf64Shdr) (start : State) (others : Set UInt64) (A : Arena) (size : Nat) (m : Machine) (b : Block)
    (m' : Machine) : Prop where
  empty : b.chunks = []
  room : size + 80 ≤ 4096 * b.pages
  rep : Represents s₀ sections start (others ∪ {i | i.toNat < 2 ^ 25 ∧ b.Has i}) { m' with l_allocated := m.l_allocated } A
  new : ∀ i ∈ others, ¬ b.Has i
  record : BlockAt (bytes m') b 0 0
  spans : Spans (bytes m') b.place b.stop
  allocated : m'.l_allocated = m.l_allocated + UInt64.ofNat (4096 * b.pages)
  old : ∀ x, (bytes m x).isSome → bytes m' x = bytes m x
  counts : SameCounts m m'

/-- The block that the pages of an allocation make. -/
def newBlock {pages : Nat} (a : UInt64) (some : 0 < pages) (small : 4096 * pages < 2 ^ 32) (high : a.toNat + pages ≤ 2 ^ 25) : Block where
  place := KERNEL_HEAP_START.toNat + 4096 * a.toNat
  pages := pages
  chunks := []
  tidy := by
    refine ⟨?_, by omega, ?_, some, small, .nil, by simp⟩
    · rw [toNat_KERNEL_HEAP_START]
      omega
    · rw [toNat_KERNEL_HEAP_SIZE]
      omega

theorem newBlock_has {pages : Nat} {some : 0 < pages} {small : 4096 * pages < 2 ^ 32} {high : a.toNat + pages ≤ 2 ^ 25}
    {i : UInt64} : (newBlock a some small high).Has i ↔ a.toNat ≤ i.toNat ∧ i.toNat < a.toNat + pages := by
  rw [Block.Has, Block.stop, newBlock]
  simp only []
  omega

/-- The six stores that make the record of a new block. -/
theorem record_new {b : Block} {ws : List Field} (written : Written ws (bytes m) (bytes m')) (empty : b.chunks = [])
    (same : ws = majorFields b 0 0) : BlockAt (bytes m') b 0 0 := by
  refine ⟨same ▸ written.holds, ?_⟩
  rw [empty]
  trivial

theorem allocate_new_page_post {size : Nat} (rep : Represents s₀ sections start others m A) (small : Small size) :
    Post (fun v m' => ∃ b, v = UInt64.ofNat b.place ∧ Fresh s₀ sections start others A size m b m') (OutOfMemory s₀ sections)
      (allocate_new_page (UInt32.ofNat size) m) := by
  have value := toNat_page_count small
  have below := pagesFor_lt small
  have room := pagesFor_room size
  have count : (page_count (UInt32.ofNat size)).toUInt64.toNat = pagesFor size := by
    rw [UInt32.toNat_toUInt64, value]
  have positive : 0 < pagesFor size := by omega
  have some : (page_count (UInt32.ofNat size)).toUInt64 ≠ 0 := by
    intro zero
    rw [zero, UInt64.toNat_zero] at count
    omega
  rw [allocate_new_page]
  apply post_bind
  refine post_call ((vmm_alloc_pages_post rep.rest some).mono ?_ fun e s stopped => ⟨m.kernel, _, rep.rest, some, stopped⟩)
  rintro v s ⟨a, rfl, _, allocated⟩
  have high := allocated.gap.high
  have spans := allocated_spans (m := m) allocated
  rw [count] at high spans
  rw [toNat_block_place (by rw [count]; exact high) some]
  obtain ⟨b, placed, pages, empty, has⟩ : ∃ b : Block, b.place = KERNEL_HEAP_START.toNat + 4096 * a.toNat ∧ b.pages = pagesFor size ∧
      b.chunks = [] ∧ ∀ i, b.Has i ↔ a.toNat ≤ i.toNat ∧ i.toNat < a.toNat + pagesFor size :=
    ⟨newBlock a positive below high, rfl, rfl, rfl, fun _ => newBlock_has⟩
  have edge : b.stop = b.place + 4096 * pagesFor size := by rw [Block.stop, pages]
  rw [← placed] at spans ⊢
  rw [← edge] at spans
  have stop := b.stop_lt
  have usage : b.usage = 40 := by rw [Block.usage, empty, taken_nil]
  have nonzero : UInt64.ofNat b.place ≠ NULL := by
    have := b.place_pos
    rw [ne_eq, ofNat_eq_NULL (by omega)]
    omega
  obtain ⟨m₀, rfl⟩ : ∃ m₀ : Machine, m₀ = { m with kernel := s } := ⟨_, rfl⟩
  have rest : AtRest s₀ sections ({ m with kernel := s } : Machine).kernel := allocated.rest
  simp only [if_neg nonzero, major_prev_ofNat, major_next_ofNat, major_pages_ofNat, major_size_ofNat, major_usage_ofNat,
    major_first_ofNat]
  obtain ⟨m₁, run, w₁⟩ := (Wrote.refl _).store64 (a := b.place) (v := NULL) (k := 0) rest (spans.mono (by omega) (by omega)) rfl
  rw [bind_ok run]
  obtain ⟨m₂, run, w₂⟩ := w₁.store64 (a := b.place + 8) (v := NULL) (k := 0) rest (spans.mono (by omega) (by omega)) rfl
  rw [bind_ok run]
  obtain ⟨m₃, run, w₃⟩ := w₂.store32 (a := b.place + 16) rest (spans.mono (by omega) (by omega)) (value.trans pages.symm)
  rw [bind_ok run]
  obtain ⟨m₄, run, w₄⟩ := w₃.store32 (a := b.place + 20) (v := page_count (UInt32.ofNat size) * l_pageSize) (k := 4096 * b.pages) rest
    (spans.mono (by omega) (by omega)) (by
      have page : l_pageSize.toNat = 4096 := rfl
      rw [UInt32.toNat_mul, value, page, pages]
      omega)
  rw [bind_ok run]
  obtain ⟨m₅, run, w₅⟩ := w₄.store32 (a := b.place + 24) (v := sizeof_major.toUInt32) (k := b.usage) rest
    (spans.mono (by omega) (by omega)) usage.symm
  rw [bind_ok run]
  obtain ⟨m₆, run, w₆⟩ := w₅.store64 (a := b.place + 32) (v := NULL) (k := first Chunk.place b.chunks 0) rest
    (spans.mono (by omega) (by omega)) (by rw [empty]; rfl)
  rw [bind_ok run]
  have written : Written (majorFields b 0 0) (bytes { m with kernel := s }) (bytes m₆) := by
    rw [w₆.bytes]
    refine written_stores (separate_of_pairwise (pairwise_majorFields b 0 0)) ?_ fun f => Iff.rfl
    intro f member
    have := b.tidy.small
    simp only [majorFields, List.mem_cons, List.not_mem_nil, or_false, usage, empty, first_nil] at member
    rcases member with rfl | rfl | rfl | rfl | rfl | rfl <;> norm_num [Field.Fits] <;> omega
  have record := record_new written empty rfl
  have size' : Field.In ⟨b.place + 20, 4, 4096 * b.pages⟩ (bytes m₆) := record.record _ (by simp [majorFields])
  rw [bind_ok (load32_ok size'), toUInt64_ofNat32 b.tidy.small]
  have globals := w₆.same
  have old : ∀ x, (bytes m x).isSome → bytes m₆ x = bytes m x := by
    intro x here
    rw [written.keeps x fun f member => ?_]
    · exact allocated_new rep.rest allocated here
    · obtain ⟨low, high⟩ := major_range f member
      obtain ⟨inside, taken⟩ := (isSome_bytes_iff rep.rest).mp here
      obtain ⟨bit, _⟩ := inside.bit
      by_contra within
      have clear := allocated.gap.clear (bitOf x) (by omega) (by omega)
      exact clear taken
  have spans₆ : Spans (bytes m₆) b.place b.stop := by
    rw [w₆.bytes]
    exact spans_stores w₆.reach spans
  have kernel : m₆.kernel = s := by rw [globals]
  have allocated₆ : m₆.l_allocated = m.l_allocated := by rw [globals]
  have root : m₆.l_memRoot = m.l_memRoot := by rw [globals]
  have bet : m₆.l_bestBet = m.l_bestBet := by rw [globals]
  have inuse : m₆.l_inuse = m.l_inuse := by rw [globals]
  refine ⟨b, rfl, empty, by omega, ⟨⟨?_, ?_, ?_, ?_, ?_⟩, ?_, ?_, rep.allocated, ?_⟩, ?_, record, spans₆, ?_, old, ?_⟩
  · show AtRest s₀ sections m₆.kernel
    rw [kernel]
    exact rest
  · show Within heapPages start m₆.kernel
    rw [kernel]
    exact rep.since.trans (allocated.within.mono (pagesFrom_heap allocated.gap.high))
  · intro i inside
    show Taken m₆.kernel i ↔ _
    rw [kernel, allocated.bits, rep.bits i inside, count, ← has]
    simp only [Set.mem_union, Set.mem_ofPred_eq, inside, true_and]
    rw [or_right_comm]
  · intro i member d there holds
    rcases member with old | ⟨inside, new⟩
    · exact rep.foreign i old d there holds
    · have new := (has i).mp new
      exact allocated.gap.clear i new.1 (by omega) ((rep.bits i inside).mpr (.inr ⟨d, there, holds⟩))
  · refine rep.records.mono fun d member p q here => here.outside fun x low high => ?_
    exact old x (rep.spans member x low high)
  · exact root.trans rep.root
  · show m₆.l_bestBet = _ ∨ ∃ d ∈ A.blocks, m₆.l_bestBet = _
    rw [bet]
    exact rep.bet
  · exact inuse.trans rep.inuse
  · intro i member holds
    have new := (has i).mp holds
    exact allocated.gap.clear i new.1 (by omega) ((rep.bits i (by omega)).mpr (.inl member))
  · show m₆.l_allocated + _ = _
    rw [allocated₆]
  · have warnings : m₆.l_warningCount = m.l_warningCount := by rw [globals]
    have errors : m₆.l_errorCount = m.l_errorCount := by rw [globals]
    have overruns : m₆.l_possibleOverruns = m.l_possibleOverruns := by rw [globals]
    exact ⟨warnings, errors, overruns⟩

end

end Extron.Liballoc
