import Extron.Growing

/-!
`kmalloc`. The loop over the blocks ends: it goes once from the best bet to the end of
the list, once over the whole list, and then takes a new block, in which the chunk
fits. What it returns is a chunk that was not there before, and no client's memory
changes.
-/
namespace Extron.Liballoc
open Extron.Multiboot Extron.Pmm Extron.Vmm Extron.Startup Extron.Heap
open Extron.Fields Extron.Chains Extron.HeapBytes Extron.Outcomes Extron.Kheap
set_option linter.unusedSimpArgs false

section
variable {s₀ start : State} {sections : List Elf64Shdr} {others : Set UInt64} {m m' : Machine} {A A' : Arena} {b : Block}
  {xs ys : List Block} {size : Nat}

theorem SameCounts.refl (m : Machine) : SameCounts m m := ⟨rfl, rfl, rfl⟩

theorem SameCounts.trans {m'' : Machine} (first : SameCounts m m') (second : SameCounts m' m'') : SameCounts m m'' :=
  ⟨second.warnings.trans first.warnings, second.errors.trans first.errors, second.overruns.trans first.overruns⟩

theorem Kept.refl (A : Arena) (m : Machine) : Kept A m m := ⟨.refl m, fun _ _ _ _ _ => rfl⟩

theorem Kept.trans {m'' : Machine} (first : Kept A m m') (second : Kept A' m' m'') (sub : ∀ c ∈ A.live, c ∈ A'.live) :
    Kept A m m'' :=
  ⟨first.toSameCounts.trans second.toSameCounts, fun c member x low high =>
    (second.bytes c (sub c member) x low high).trans (first.bytes c member x low high)⟩

/-- The client's memory of a chunk can be accessed. -/
theorem Represents.client (rep : Represents s₀ sections start others m A) {c : Chunk} (member : c ∈ A.live) {x : Nat}
    (low : c.place ≤ x) (high : x < c.stop) : (bytes m x).isSome := by
  obtain ⟨b, there, inB⟩ := List.mem_flatMap.mp member
  have inside := b.chunk_inside inB
  exact rep.spans there x (by omega) (by omega)

/-! ## Another block -/

/-- The arena with a block behind the last one. -/
def Arena.push (A : Arena) (b : Block) (apart : ∀ d ∈ A.blocks, d.Apart b) : Arena where
  blocks := A.blocks ++ [b]
  apart := List.pairwise_append.mpr ⟨A.apart, by simp, fun d member e last => List.mem_singleton.mp last ▸ apart d member⟩

theorem live_push {apart : ∀ d ∈ A.blocks, d.Apart b} (empty : b.chunks = []) : (A.push b apart).live = A.live := by
  rw [Arena.live, Arena.push, List.flatMap_append, List.flatMap_singleton, empty, List.append_nil]
  rfl

theorem total_push {apart : ∀ d ∈ A.blocks, d.Apart b} : (A.push b apart).total = A.total + 4096 * b.pages := by
  rw [Arena.total, Arena.total, Arena.push, List.map_append, List.sum_append]
  rfl

/-- Pages in both of two blocks would be bits of both. -/
theorem apart_of_bits {d : Block} (bits : ∀ i : UInt64, i.toNat < 2 ^ 25 → b.Has i → ¬ d.Has i) : d.Apart b := by
  have low := b.tidy.low
  have low' := d.tidy.low
  have high := b.tidy.high
  have high' := d.tidy.high
  have some := b.tidy.some
  have some' := d.tidy.some
  have aligned := b.tidy.aligned
  have aligned' := d.tidy.aligned
  rw [toNat_KERNEL_HEAP_START] at low low' high high'
  rw [toNat_KERNEL_HEAP_SIZE] at high high'
  rw [Block.Apart, Block.stop, Block.stop]
  by_contra meets
  -- the first page of the one that starts later
  have index : (UInt64.ofNat ((max b.place d.place - 0xFFFFC00000000000) / 4096)).toNat =
      (max b.place d.place - 0xFFFFC00000000000) / 4096 := by
    rw [UInt64.toNat_ofNat']
    omega
  refine bits (UInt64.ofNat ((max b.place d.place - 0xFFFFC00000000000) / 4096)) (by omega) ?_ ?_
  · rw [Block.Has, Block.stop, index, toNat_KERNEL_HEAP_START]
    omega
  · rw [Block.Has, Block.stop, index, toNat_KERNEL_HEAP_START]
    omega

theorem Fresh.apart (fresh : Fresh s₀ sections start others A size m b m') : ∀ d ∈ A.blocks, d.Apart b :=
  fun d member => apart_of_bits fun i inside has => fresh.rep.foreign i (.inr ⟨inside, has⟩) d member

/-- A new block that was linked belongs to the arena. -/
theorem Represents.push {m'' : Machine} (rep : Represents s₀ sections start others m A) (fresh : Fresh s₀ sections start others A size m b m')
    (kernel : m''.kernel = m'.kernel)
    (records : Chain Block.place (BlockAt (bytes m'')) 0 (A.blocks ++ [b]) 0)
    (root : m''.l_memRoot = UInt64.ofNat (first Block.place A.blocks b.place)) (bet : m''.l_bestBet = m'.l_bestBet)
    (allocated : m''.l_allocated = m'.l_allocated) (inuse : m''.l_inuse = m'.l_inuse) :
    Represents s₀ sections start others m'' (A.push b fresh.apart) := by
  refine ⟨⟨?_, ?_, ?_, ?_, records⟩, ?_, ?_, ?_, ?_⟩
  · rw [kernel]
    exact fresh.rep.rest
  · rw [kernel]
    exact fresh.rep.since
  · intro i inside
    have bits := fresh.rep.bits i inside
    rw [kernel]
    refine Iff.trans bits ?_
    rw [Arena.push]
    simp only [Set.mem_union, Set.mem_ofPred_eq, inside, true_and, List.mem_append, List.mem_singleton, or_and_right, exists_or,
      exists_eq_left, or_assoc]
    exact or_congr_right or_comm
  · intro i member d there has
    rcases List.mem_append.mp there with old | new
    · exact fresh.rep.foreign i (.inl member) d old has
    · rw [List.mem_singleton.mp new] at has
      exact fresh.new i member has
  · rw [root, Arena.push, first_append, first_cons]
  · rw [bet]
    rcases fresh.rep.bet with none | ⟨d, member, here⟩
    · exact .inl none
    · exact .inr ⟨d, List.mem_append_left _ member, here⟩
  · rw [allocated, fresh.allocated, rep.allocated, total_push, UInt64.ofNat_add]
  · rw [inuse, Arena.used, live_push fresh.empty]
    exact fresh.rep.inuse

theorem toUInt32_ofNat64 (n : Nat) : (UInt64.ofNat n).toUInt32 = UInt32.ofNat n := by
  apply UInt32.toNat_inj.mp
  rw [UInt64.toNat_toUInt32, UInt64.toNat_ofNat', UInt32.toNat_ofNat']
  omega

/-- A new last block: empty, and with room for the chunk. -/
structure Extended (s₀ : State) (sections : List Elf64Shdr) (start : State) (others : Set UInt64) (A : Arena) (size : Nat) (m : Machine) (b : Block)
    (m' : Machine) (A' : Arena) : Prop where
  blocks : A'.blocks = A.blocks ++ [b]
  empty : b.chunks = []
  room : size + 80 ≤ 4096 * b.pages
  rep : Represents s₀ sections start others m' A'
  kept : Kept A m m'

theorem kept_of_old (rep : Represents s₀ sections start others m A) (old : ∀ x, (bytes m x).isSome → bytes m' x = bytes m x)
    (counts : SameCounts m m') : Kept A m m' := by
  refine ⟨counts, fun c member x low high => old x (rep.client member ?_ ?_)⟩
  · have := c.user_low
    omega
  · have := c.user_stop
    omega

/-- The first block of the heap. -/
theorem root_ok (rep : Represents s₀ sections start others m A) (none : A.blocks = [])
    (fresh : Fresh s₀ sections start others A size m b m') :
    ∃ A', Extended s₀ sections start others A size m b { m' with l_memRoot := UInt64.ofNat b.place } A' := by
  refine ⟨A.push b fresh.apart, rfl, fresh.empty, fresh.room, ?_, ?_⟩
  · refine rep.push fresh rfl ?_ ?_ rfl rfl rfl
    · rw [none]
      exact ⟨fresh.record, trivial⟩
    · rw [none]
      rfl
  · exact kept_of_old rep fresh.old ⟨fresh.counts.warnings, fresh.counts.errors, fresh.counts.overruns⟩

/-- Another block behind the last one. -/
theorem extend_post (rep : Represents s₀ sections start others m A) (list : A.blocks = xs ++ [b]) (small : Small size) :
    Post (fun v m' => ∃ d A', v = UInt64.ofNat d.place ∧ Extended s₀ sections start others A size m d m' A') (OutOfMemory s₀ sections)
      (kmalloc.extend (UInt64.ofNat b.place) (UInt64.ofNat size) m) := by
  rw [kmalloc.extend, toUInt32_ofNat64]
  apply post_bind
  refine (allocate_new_page_post rep small).mono ?_ fun _ _ stopped => stopped
  rintro v m₁ ⟨d, rfl, fresh⟩
  have member : b ∈ A.blocks := by rw [list]; simp
  have spansB : Spans (bytes m₁) b.place b.stop := fresh.rep.spans member
  have spansD := fresh.spans
  have apart := fresh.apart b member
  have boundB := b.stop_lt
  have boundD := d.stop_lt
  have edgeB : b.stop = b.place + 4096 * b.pages := rfl
  have edgeD : d.stop = d.place + 4096 * d.pages := rfl
  have someB := b.tidy.some
  have someD := d.tidy.some
  have nonzero : UInt64.ofNat d.place ≠ NULL := by
    have := d.place_pos
    rw [ne_eq, ofNat_eq_NULL (by omega)]
    omega
  have rest : AtRest s₀ sections m₁.kernel := fresh.rep.rest
  rw [Block.Apart] at apart
  rw [major_next_ofNat]
  obtain ⟨m₂, run, w₂⟩ := (Wrote.refl m₁).store64 (a := b.place + 8) rest (spansB.mono (by omega) (by omega)) (toNat_ofNat64 (n := d.place) (by omega))
  rw [bind_ok run, bind_ok (w₂.load64 (in_stores_concat (by norm_num [Field.Fits]; omega)))]
  simp only [ne_eq, nonzero, not_false_eq_true, if_true, major_prev_ofNat]
  obtain ⟨m₃, run, w₃⟩ := w₂.store64 (a := d.place) rest (spansD.mono (by omega) (by omega)) (toNat_ofNat64 (n := b.place) (by omega))
  rw [bind_ok run]
  have written : Written [⟨b.place + 8, 8, d.place⟩, ⟨d.place, 8, b.place⟩] (bytes m₁) (bytes m₃) := by
    rw [w₃.bytes]
    refine written_stores (separate_of_pairwise ?_) ?_ fun f => Iff.rfl
    · simp [Field.Apart]
      omega
    · simp [Field.Fits]
      omega
  have outOf : ∀ e ∈ A.blocks, e ≠ b → ∀ x, e.place ≤ x → x < e.stop → bytes m₃ x = bytes m₁ x := by
    intro e there other x low high
    have apartB := A.apart.forall there member other
    have apartD := fresh.apart e there
    rw [Block.Apart] at apartB apartD
    refine written.keeps x fun f stored => ?_
    simp only [List.mem_cons, List.not_mem_nil, or_false] at stored
    rcases stored with rfl | rfl
    · simp only []
      omega
    · simp only []
      omega
  have globals := w₃.same
  refine ⟨d, A.push d fresh.apart, rfl, rfl, fresh.empty, fresh.room, ?_, ?_⟩
  · refine rep.push fresh w₃.kernel ?_ ?_ ?_ ?_ ?_
    · have records := fresh.rep.records
      rw [list] at records
      obtain ⟨before, here⟩ := chain_concat.mp records
      have distinct : ∀ e ∈ xs, e ≠ b := by
        rintro e there rfl
        have split : A.blocks = xs ++ e :: [] := list
        have := Arena.apart_of_split split e (by simpa using there)
        rw [Block.Apart] at this
        omega
      rw [list, List.append_assoc]
      refine chain_middle.mpr ⟨before.mono fun e there p q held => held.outside (outOf e (by rw [list]; simp [there]) (distinct e there)), ?_,
        ⟨?_, trivial⟩⟩
      · refine here.renext written (by simp) fun f stored => ?_
        simp only [List.mem_cons, List.not_mem_nil, or_false] at stored
        rcases stored with rfl | rfl
        · exact .inl rfl
        · refine .inr ?_
          rw [OutOf]
          simp only []
          omega
      · refine fresh.record.reprev written (by simp) fun f stored => ?_
        simp only [List.mem_cons, List.not_mem_nil, or_false] at stored
        rcases stored with rfl | rfl
        · refine .inr ?_
          rw [OutOf]
          simp only []
          omega
        · exact .inl rfl
    · rw [globals]
      show m₁.l_memRoot = _
      have root := fresh.rep.root
      rw [list, first_append, first_cons] at root ⊢
      exact root
    · rw [globals]
    · rw [globals]
    · rw [globals]
  · have counts : SameCounts m₁ m₃ := by
      rw [globals]
      exact ⟨rfl, rfl, rfl⟩
    refine ⟨fresh.counts.trans counts, fun c member x low high => ?_⟩
    obtain ⟨e, there, inE⟩ := List.mem_flatMap.mp member
    have inside := e.chunk_inside inE
    have apartD := fresh.apart e there
    have start := c.user_low
    have stop := c.user_stop
    have old := rep.client member (x := x) (by omega) (by omega)
    rw [Block.Apart] at apartD
    rw [written.keeps x fun f stored => ?_, fresh.old x old]
    simp only [List.mem_cons, List.not_mem_nil, or_false] at stored
    by_cases same : e = b
    · subst same
      rcases stored with rfl | rfl
      · simp only []
        omega
      · simp only []
        omega
    · have apartB := A.apart.forall there ‹b ∈ A.blocks› same
      rw [Block.Apart] at apartB
      rcases stored with rfl | rfl
      · simp only []
        omega
      · simp only []
        omega

end

/-! ## The loop -/

/-- A chunk was taken for a request, and nothing else changed for the clients. -/
structure Served (s₀ : State) (sections : List Elf64Shdr) (start : State) (others : Set UInt64) (A : Arena) (size req_size : Nat) (m : Machine)
    (v : UInt64) (m' : Machine) (A' : Arena) (c : Chunk) : Prop where
  pointer : v = UInt64.ofNat c.user
  sized : c.size = size
  asked : c.req_size = req_size
  live : A'.live.Perm (c :: A.live)
  settled : A'.Settled
  rep : Represents s₀ sections start others m' A'
  kept : Kept A m m'

/-- The loop is at a block: the others are in use, and if this one is not, the chunk fits. -/
structure Ready (A : Arena) (xs : List Block) (b : Block) (ys : List Block) (size : Nat) : Prop where
  list : A.blocks = xs ++ b :: ys
  used : ∀ d ∈ xs ++ ys, d.chunks ≠ []
  fits : b.chunks = [] → size + 80 ≤ 4096 * b.pages

section
variable {s₀ start : State} {sections : List Elf64Shdr} {others : Set UInt64} {m m' : Machine} {A A' : Arena} {b d : Block}
  {xs ys : List Block} {size req_size : Nat} {v : UInt64} {c : Chunk}

/-- What was done before did not touch the clients either. -/
theorem Served.since {m'' : Machine} {A'' : Arena} (served : Served s₀ sections start others A' size req_size m' v m'' A'' c)
    (kept : Kept A m m') (same : A'.live = A.live) : Served s₀ sections start others A size req_size m v m'' A'' c :=
  { served with live := same ▸ served.live, kept := kept.trans served.kept fun _ member => same ▸ member }

theorem Extended.live (extended : Extended s₀ sections start others A size m b m' A') : A'.live = A.live := by
  rw [Arena.live, extended.blocks, List.flatMap_append, List.flatMap_singleton, extended.empty, List.append_nil]
  rfl

theorem Extended.ready (extended : Extended s₀ sections start others A size m b m' A') (settled : A.Settled) :
    Ready A' A.blocks b [] size :=
  ⟨extended.blocks, fun d member => settled d (by simpa using member), fun _ => extended.room⟩

theorem Ready.member (ready : Ready A xs b ys size) : b ∈ A.blocks := by
  rw [ready.list]
  simp

theorem Ready.settled (ready : Ready A xs b ys size) (some : b.chunks ≠ []) : A.Settled := by
  intro d member
  rw [ready.list] at member
  rcases List.mem_append.mp member with left | right
  · exact ready.used d (List.mem_append_left _ left)
  · rcases List.mem_cons.mp right with rfl | right
    · exact some
    · exact ready.used d (List.mem_append_right _ right)

theorem place_ne_NULL (b : Block) : UInt64.ofNat b.place ≠ NULL := by
  have := b.place_pos
  have := b.stop_lt
  have edge : b.stop = b.place + 4096 * b.pages := rfl
  rw [ne_eq, ofNat_eq_NULL (by omega)]
  omega

/-- The search in the block where the loop is. -/
theorem place_served (rep : Represents s₀ sections start others m A) (ready : Ready A xs b ys size) (fits : req_size + 32 ≤ size)
    (small : Small size) :
    ∃ r m', kmalloc.place (UInt64.ofNat b.place) (UInt64.ofNat size) (UInt64.ofNat req_size) m = .ok r m' ∧
      (r = none ∧ m' = m ∧ b.chunks ≠ [] ∨ ∃ v A' c, r = some v ∧ Served s₀ sections start others A size req_size m v m' A' c) := by
  rw [Small] at small
  obtain ⟨r, m', run, placed⟩ := place_ok rep.rest (rep.block ready.list) (rep.spans ready.member) fits (by omega)
    (fun empty => by have := ready.fits empty; omega)
  refine ⟨r, m', run, ?_⟩
  cases placed with
  | full some => exact .inl ⟨rfl, rfl, some⟩
  | @put m' cs ds c split gap sized asked put =>
    obtain ⟨rep', kept⟩ := rep.put ready.list split gap put
    refine .inr ⟨_, _, c, rfl, rfl, sized, asked, live_insert ready.list split gap, ?_, rep', kept⟩
    intro e member
    rcases List.mem_append.mp member with left | right
    · exact ready.used e (List.mem_append_left _ left)
    · rcases List.mem_cons.mp right with rfl | right
      · exact List.append_ne_nil_of_right_ne_nil _ (List.cons_ne_nil _ _)
      · exact ready.used e (List.mem_append_right _ right)

theorem room_ok (rep : Represents s₀ sections start others m A) (member : b ∈ A.blocks) :
    ∃ diff, kmalloc.room (UInt64.ofNat b.place) m = .ok diff m ∧ diff.toNat = 4096 * b.pages - b.usage := by
  obtain ⟨xs, ys, list⟩ := List.append_of_mem member
  have here := rep.block list
  have total : Field.In ⟨b.place + 20, 4, 4096 * b.pages⟩ (bytes m) := here.record _ (by simp [majorFields])
  have small := b.tidy.small
  have usage := b.usage_le
  refine ⟨(UInt32.ofNat (4096 * b.pages) - UInt32.ofNat b.usage).toUInt64, ?_, ?_⟩
  · rw [kmalloc.room, major_size_ofNat, major_usage_ofNat, bind_ok (load32_ok total), bind_ok (load32_ok here.usageField)]
    rfl
  · rw [UInt32.toNat_toUInt64, UInt32.toNat_sub, toNat_ofNat32 small, toNat_ofNat32 (by omega)]
    omega

/-- Another best bet. -/
theorem Represents.rebet (rep : Represents s₀ sections start others m A) (bet : v = NULL ∨ ∃ b ∈ A.blocks, v = UInt64.ofNat b.place) :
    Represents s₀ sections start others { m with l_bestBet := v } A :=
  ⟨⟨rep.rest, rep.since, rep.bits, rep.foreign, rep.records⟩, rep.root, bet, rep.allocated, rep.inuse⟩

theorem remember_ok (rep : Represents s₀ sections start others m A) (member : b ∈ A.blocks) (bestSize diff : UInt64) :
    ∃ best m', kmalloc.remember (UInt64.ofNat b.place) bestSize diff m = .ok best m' ∧ Represents s₀ sections start others m' A ∧
      Kept A m m' := by
  rw [kmalloc.remember]
  split
  · exact ⟨_, _, rfl, rep.rebet (.inr ⟨b, member, rfl⟩), ⟨rfl, rfl, rfl⟩, fun _ _ _ _ _ => rfl⟩
  · exact ⟨_, m, rfl, rep, .refl A m⟩

/-- In an empty block the search ends at once. -/
theorem search_fresh (rep : Represents s₀ sections start others m A) (ready : Ready A xs b ys size) (empty : b.chunks = [])
    (fits : req_size + 32 ≤ size) (small : Small size) (rounds : Nat) (startedBet : Bool) (bestSize : UInt64) :
    ∃ v m' A' c, kmalloc.search (UInt64.ofNat size) (UInt64.ofNat req_size) (rounds + 1) (UInt64.ofNat b.place) startedBet bestSize m =
      .ok v m' ∧ Served s₀ sections start others A size req_size m v m' A' c := by
  have room := ready.fits empty
  obtain ⟨diff, measured, value⟩ := room_ok rep ready.member
  obtain ⟨best, m₁, remembered, rep₁, kept₁⟩ := remember_ok rep ready.member bestSize diff
  obtain ⟨r, m', run, result⟩ := place_served rep₁ ready fits small
  have enough : ¬ diff < UInt64.ofNat size + sizeof_minor := by
    rw [Small] at small
    rw [lt_ofNat value (by omega), Block.usage, empty, taken_nil]
    omega
  rw [kmalloc.search, if_neg (place_ne_NULL b), bind_ok measured, bind_ok remembered, kmalloc.hop, if_neg enough,
    bind_ok (run_pure _)]
  simp only [bind_ok run]
  rcases result with ⟨_, _, some⟩ | ⟨v, A', c, rfl, served⟩
  · exact absurd empty some
  · exact ⟨v, m', A', c, rfl, served.since kept₁ rfl⟩

/-- What a call of `kmalloc` returns. -/
def Serves (s₀ : State) (sections : List Elf64Shdr) (start : State) (others : Set UInt64) (A : Arena) (size req_size : Nat) (m : Machine) (v : UInt64)
    (m' : Machine) : Prop :=
  ∃ A' c, Served s₀ sections start others A size req_size m v m' A' c

/-- A new block takes the chunk. -/
theorem served_of_extended (extended : Extended s₀ sections start others A size m d m' A') (settled : A.Settled)
    (fits : req_size + 32 ≤ size) (small : Small size) :
    ∃ v m'', kmalloc.place (UInt64.ofNat d.place) (UInt64.ofNat size) (UInt64.ofNat req_size) m' = .ok (some v) m'' ∧
      Serves s₀ sections start others A size req_size m v m'' := by
  obtain ⟨r, m'', run, ⟨_, _, some⟩ | ⟨v, A'', c, rfl, served⟩⟩ := place_served extended.rep (extended.ready settled) fits small
  · exact absurd extended.empty some
  · exact ⟨v, m'', run, A'', c, served.since extended.kept extended.live⟩

theorem Ready.next {e : Block} {others : List Block} (ready : Ready A xs b (e :: others) size) (some : b.chunks ≠ []) :
    Ready A (xs ++ [b]) e others size := by
  refine ⟨by rw [ready.list, List.append_assoc]; rfl, fun d member => ?_, fun empty => absurd empty (ready.used e (by simp))⟩
  have used := ready.settled some
  refine used d ?_
  rw [ready.list]
  simp only [List.mem_append, List.mem_cons, List.not_mem_nil, or_false] at member ⊢
  tauto

theorem Ready.nextField (ready : Ready A xs b ys size) (rep : Represents s₀ sections start others m A) :
    Field.In ⟨b.place + 8, 8, first Block.place ys 0⟩ (bytes m) :=
  (rep.block ready.list).record _ (by simp [majorFields])

/-- The start of the list. -/
theorem Represents.front (rep : Represents s₀ sections start others m A) (settled : A.Settled) (some : A.blocks ≠ []) :
    ∃ e rest, A.blocks = e :: rest ∧ m.l_memRoot = UInt64.ofNat e.place ∧ Ready A [] e rest size := by
  obtain ⟨e, rest, list⟩ := List.exists_cons_of_ne_nil some
  refine ⟨e, rest, list, ?_, list, fun d member => settled d ?_, fun empty => ?_⟩
  · rw [rep.root, list]
    rfl
  · rw [list]
    exact .tail _ member
  · exact absurd empty (settled e (by rw [list]; simp))

/-! CASE 1, by what comes after the block. -/

theorem hop_next {e : Block} {rest : List Block} {diff : UInt64} {startedBet : Bool} (rep : Represents s₀ sections start others m A)
    (ready : Ready A xs b (e :: rest) size) (short : diff < UInt64.ofNat size + sizeof_minor) :
    kmalloc.hop (UInt64.ofNat b.place) (UInt64.ofNat size) diff startedBet m = .ok (.again (UInt64.ofNat e.place) startedBet) m := by
  rw [kmalloc.hop, if_pos short, major_next_ofNat, bind_ok (load64_ok (ready.nextField rep)), first_cons, if_pos (place_ne_NULL e)]
  rfl

theorem hop_restart {diff : UInt64} (rep : Represents s₀ sections start others m A) (ready : Ready A xs b [] size)
    (short : diff < UInt64.ofNat size + sizeof_minor) :
    kmalloc.hop (UInt64.ofNat b.place) (UInt64.ofNat size) diff true m = .ok (.again m.l_memRoot false) m := by
  rw [kmalloc.hop, if_pos short, major_next_ofNat, bind_ok (load64_ok (ready.nextField rep))]
  rfl

theorem hop_extend {diff : UInt64} (rep : Represents s₀ sections start others m A) (ready : Ready A xs b [] size)
    (short : diff < UInt64.ofNat size + sizeof_minor) (small : Small size) :
    Post (fun turn m' => ∃ d A', turn = .through (UInt64.ofNat d.place) ∧ Extended s₀ sections start others A size m d m' A')
      (OutOfMemory s₀ sections) (kmalloc.hop (UInt64.ofNat b.place) (UInt64.ofNat size) diff false m) := by
  have none : ¬ UInt64.ofNat 0 ≠ NULL := fun bad => bad rfl
  have no : ¬ false = true := Bool.false_ne_true
  rw [kmalloc.hop, if_pos short, major_next_ofNat, bind_ok (load64_ok (ready.nextField rep)), first_nil, if_neg none, if_neg no]
  apply post_bind
  refine (extend_post rep ready.list small).mono ?_ fun _ _ stopped => stopped
  rintro v m' ⟨d, A', rfl, extended⟩
  rw [if_neg (place_ne_NULL d)]
  exact ⟨d, A', rfl, extended⟩

/-- The rounds that the loop still makes: to the end of the list, over the whole list when
    it began at the best bet, and to a new block. -/
def left (A : Arena) (ys : List Block) (startedBet : Bool) : Nat :=
  ys.length + (if startedBet then A.blocks.length else 0) + 2

/-- The loop ends with a chunk, or the heap runs out of memory. -/
theorem search_post (fits : req_size + 32 ≤ size) (small : Small size) {rounds : Nat} :
    ∀ {m : Machine} {A : Arena} {b : Block} {xs ys : List Block} {startedBet : Bool} {bestSize : UInt64},
      Represents s₀ sections start others m A → Ready A xs b ys size → left A ys startedBet ≤ rounds →
      Post (Serves s₀ sections start others A size req_size m) (OutOfMemory s₀ sections)
        (kmalloc.search (UInt64.ofNat size) (UInt64.ofNat req_size) rounds (UInt64.ofNat b.place) startedBet bestSize m) := by
  induction rounds with
  | zero =>
    intro m A b xs ys startedBet bestSize _ _ enough
    rw [left] at enough
    omega
  | succ rounds ih =>
    intro m A b xs ys startedBet bestSize rep ready enough
    obtain ⟨diff, measured, value⟩ := room_ok rep ready.member
    obtain ⟨best, m₁, remembered, rep₁, kept₁⟩ := remember_ok rep ready.member bestSize diff
    have since : ∀ {v : UInt64} {m' : Machine}, Serves s₀ sections start others A size req_size m₁ v m' →
        Serves s₀ sections start others A size req_size m v m' := by
      rintro v m' ⟨A', c, served⟩
      exact ⟨A', c, served.since kept₁ rfl⟩
    -- the three ways on: to the next block, to the start of the list, to a new block
    have further : ∀ {e : Block} {rest : List Block}, ys = e :: rest → b.chunks ≠ [] →
        Post (Serves s₀ sections start others A size req_size m) (OutOfMemory s₀ sections)
          (kmalloc.search (UInt64.ofNat size) (UInt64.ofNat req_size) rounds (UInt64.ofNat e.place) startedBet best m₁) := by
      rintro e rest rfl some
      refine (ih rep₁ (ready.next some) ?_).mono (fun _ _ => since) fun _ _ stopped => stopped
      rw [left, List.length_cons] at enough
      rw [left]
      omega
    have restart : ys = [] → startedBet = true → b.chunks ≠ [] →
        Post (Serves s₀ sections start others A size req_size m) (OutOfMemory s₀ sections)
          (kmalloc.search (UInt64.ofNat size) (UInt64.ofNat req_size) rounds m₁.l_memRoot false best m₁) := by
      rintro rfl rfl some
      obtain ⟨e, rest, list, root, front⟩ : ∃ e rest, A.blocks = e :: rest ∧ m₁.l_memRoot = UInt64.ofNat e.place ∧ Ready A [] e rest size :=
        rep₁.front (ready.settled some) (by rw [ready.list]; simp)
      rw [root]
      refine (ih rep₁ front ?_).mono (fun _ _ => since) fun _ _ stopped => stopped
      rw [left, list, List.length_cons] at enough
      rw [left]
      simp at enough ⊢
      omega
    rw [kmalloc.search, if_neg (place_ne_NULL b), bind_ok measured, bind_ok remembered]
    by_cases short : diff < UInt64.ofNat size + sizeof_minor
    · have some : b.chunks ≠ [] := by
        intro empty
        have room := ready.fits empty
        rw [Small] at small
        rw [lt_ofNat value (by omega), Block.usage, empty, taken_nil] at short
        omega
      cases ys with
      | cons e rest =>
        rw [bind_ok (hop_next rep₁ ready short)]
        exact further rfl some
      | nil =>
        cases startedBet with
        | true =>
          rw [bind_ok (hop_restart rep₁ ready short)]
          exact restart rfl rfl some
        | false =>
          apply post_bind
          refine (hop_extend rep₁ ready short small).mono ?_ fun _ _ stopped => stopped
          rintro turn m₂ ⟨d, A', rfl, extended⟩
          obtain ⟨v, m₃, run, serves⟩ := served_of_extended extended (ready.settled some) fits small
          simp only [bind_ok run]
          exact since serves
    · rw [kmalloc.hop, if_neg short, bind_ok (run_pure _)]
      obtain ⟨r, m₂, run, ⟨rfl, rfl, some⟩ | ⟨v, A', c, rfl, served⟩⟩ := place_served rep₁ ready fits small
      · simp only [bind_ok run, major_next_ofNat]
        rw [bind_ok (load64_ok (ready.nextField rep₁))]
        cases ys with
        | cons e rest =>
          rw [first_cons, if_pos (place_ne_NULL e)]
          exact further rfl some
        | nil =>
          have none : ¬ UInt64.ofNat 0 ≠ NULL := fun bad => bad rfl
          rw [first_nil, if_neg none]
          cases startedBet with
          | true => exact restart rfl rfl some
          | false =>
            rw [if_neg Bool.false_ne_true]
            apply post_bind
            refine (extend_post rep₁ ready.list small).mono ?_ fun _ _ stopped => stopped
            rintro v m₃ ⟨d, A', rfl, extended⟩
            have settled := ready.settled some
            obtain ⟨rounds, rfl⟩ : ∃ k, rounds = k + 1 := ⟨rounds - 1, by rw [left] at enough; omega⟩
            obtain ⟨v, m₄, A'', c, ran, served⟩ := search_fresh extended.rep (extended.ready settled) extended.empty fits small
              rounds false best
            rw [if_neg (place_ne_NULL d), ran]
            exact since ⟨A'', c, served.since extended.kept extended.live⟩
      · simp only [bind_ok run]
        exact since ⟨A', c, served⟩

/-! ## The call -/

/-- The loop can begin at any block. -/
structure Begun (A : Arena) (size : Nat) : Prop where
  some : A.blocks ≠ []
  ready : ∀ xs b ys, A.blocks = xs ++ b :: ys → Ready A xs b ys size

theorem begun_of_settled (settled : A.Settled) (some : A.blocks ≠ []) : Begun A size := by
  refine ⟨some, fun xs b ys list => ⟨list, fun d member => settled d ?_, fun empty => absurd empty (settled b ?_)⟩⟩
  · rw [list]
    simp only [List.mem_append, List.mem_cons] at member ⊢
    tauto
  · rw [list]
    simp

theorem begun_of_extended (extended : Extended s₀ sections start others A size m b m' A') (none : A.blocks = []) : Begun A' size := by
  have single : A'.blocks = [b] := by rw [extended.blocks, none, List.nil_append]
  refine ⟨by rw [single]; simp, fun xs d ys list => ?_⟩
  rw [single] at list
  obtain ⟨rfl, rfl, rfl⟩ : xs = [] ∧ d = b ∧ ys = [] := by
    cases xs with
    | nil =>
      obtain ⟨rfl, rest⟩ := List.cons.inj list
      exact ⟨rfl, rfl, rest.symm⟩
    | cons e rest =>
      have empty := (List.cons.inj list).2
      simp at empty
  exact ⟨single, by simp, fun _ => extended.room⟩

theorem left_le (A : Arena) {ys : List Block} (sub : ys.length ≤ A.blocks.length) (startedBet : Bool) :
    left A ys startedBet ≤ addresses := by
  have bound := A.length_le
  rw [left, addresses]
  split <;> omega

/-- The loop from where `kmalloc` begins it: at the best bet when the chunk fits there,
    else at the first block. -/
theorem begin_post (rep : Represents s₀ sections start others m A) (begun : Begun A size) (fits : req_size + 32 ≤ size) (small : Small size)
    {startedBet : Bool} {bestSize : UInt64} {maj : UInt64} (at_ : maj = m.l_memRoot ∨ ∃ b ∈ A.blocks, maj = UInt64.ofNat b.place) :
    Post (Serves s₀ sections start others A size req_size m) (OutOfMemory s₀ sections)
      (kmalloc.search (UInt64.ofNat size) (UInt64.ofNat req_size) addresses maj startedBet bestSize m) := by
  have place : ∃ b ∈ A.blocks, maj = UInt64.ofNat b.place := by
    rcases at_ with rfl | here
    · obtain ⟨e, rest, list⟩ := List.exists_cons_of_ne_nil begun.some
      refine ⟨e, by rw [list]; simp, ?_⟩
      rw [rep.root, list]
      rfl
    · exact here
  obtain ⟨b, member, rfl⟩ := place
  obtain ⟨xs, ys, list⟩ := List.append_of_mem member
  refine search_post fits small rep (begun.ready xs b ys list) (left_le A ?_ startedBet)
  rw [list, List.length_append, List.length_cons]
  omega

theorem size_ofNat (req_size : Nat) : UInt64.ofNat req_size + (ALIGNMENT + ALIGN_INFO) = UInt64.ofNat (req_size + 32) :=
  (UInt64.ofNat_add req_size 32).symm

/-- `kmalloc` returns a new chunk or the heap runs out of memory. -/
theorem serve_post (rep : Represents s₀ sections start others m A) (settled : A.Settled) (small : Small (req_size + 32)) :
    Post (Serves s₀ sections start others A (req_size + 32) req_size m) (OutOfMemory s₀ sections)
      (kmalloc.serve (UInt64.ofNat req_size) m) := by
  have loop : ∀ {m₁ : Machine} {A₁ : Arena}, Represents s₀ sections start others m₁ A₁ → Begun A₁ (req_size + 32) → Kept A m m₁ →
      A₁.live = A.live → Post (Serves s₀ sections start others A (req_size + 32) req_size m) (OutOfMemory s₀ sections)
        ((do
          let m ← get
          if m.l_bestBet ≠ NULL then
            let bestSize ← kmalloc.room m.l_bestBet
            if bestSize > UInt64.ofNat (req_size + 32) + sizeof_minor then
              kmalloc.search (UInt64.ofNat (req_size + 32)) (UInt64.ofNat req_size) addresses m.l_bestBet true bestSize
            else
              kmalloc.search (UInt64.ofNat (req_size + 32)) (UInt64.ofNat req_size) addresses m.l_memRoot false bestSize
          else
            kmalloc.search (UInt64.ofNat (req_size + 32)) (UInt64.ofNat req_size) addresses m.l_memRoot false 0 : Alloc UInt64) m₁) := by
    intro m₁ A₁ rep₁ begun kept same
    have since : ∀ v m', Serves s₀ sections start others A₁ (req_size + 32) req_size m₁ v m' →
        Serves s₀ sections start others A (req_size + 32) req_size m v m' := by
      rintro v m' ⟨A', c, served⟩
      exact ⟨A', c, served.since kept same⟩
    rw [get_bind]
    by_cases none : m₁.l_bestBet = NULL
    · rw [if_neg (not_not_intro none)]
      exact (begin_post rep₁ begun le_rfl small (.inl rfl)).mono since fun _ _ stopped => stopped
    · obtain ⟨b, member, bet⟩ := rep₁.bet.resolve_left none
      obtain ⟨bestSize, measured, _⟩ := room_ok rep₁ member
      rw [if_pos none, bet, bind_ok measured]
      split
      · exact (begin_post rep₁ begun le_rfl small (.inr ⟨b, member, rfl⟩)).mono since fun _ _ stopped => stopped
      · exact (begin_post rep₁ begun le_rfl small (.inl rfl)).mono since fun _ _ stopped => stopped
  rw [kmalloc.serve, size_ofNat]
  simp only []
  rw [get_bind]
  cases list : A.blocks with
  | nil =>
    have root : m.l_memRoot = NULL := by
      rw [rep.root, list]
      rfl
    rw [if_pos root, toUInt32_ofNat64]
    apply post_bind
    refine (allocate_new_page_post rep small).mono ?_ fun _ _ stopped => stopped
    rintro v m₁ ⟨b, rfl, fresh⟩
    obtain ⟨A', extended⟩ := root_ok rep list fresh
    simp only [modify_bind, if_neg (place_ne_NULL b)]
    exact loop extended.rep (begun_of_extended extended list) extended.kept extended.live
  | cons e rest =>
    have root : m.l_memRoot ≠ NULL := by
      rw [rep.root, list, first_cons]
      exact place_ne_NULL e
    rw [if_neg root]
    exact loop rep (begun_of_settled settled (by rw [list]; simp)) (.refl A m) rfl

theorem kmalloc_post (rep : Represents s₀ sections start others m A) (settled : A.Settled) (small : Small (req_size + 32)) :
    Post (Serves s₀ sections start others A (req_size + 32) req_size m) (OutOfMemory s₀ sections) (kmalloc (UInt64.ofNat req_size) m) := by
  have nonzero : UInt64.ofNat req_size + (ALIGNMENT + ALIGN_INFO) ≠ 0 := by
    rw [Small] at small
    intro zero
    have value := congrArg UInt64.toNat zero
    rw [size_ofNat, toNat_ofNat64 (by omega), UInt64.toNat_zero] at value
    omega
  rw [kmalloc, if_neg nonzero]
  exact serve_post rep settled small

end

end Extron.Liballoc
