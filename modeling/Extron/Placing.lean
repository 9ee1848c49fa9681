import Extron.Linking

/-!
The cases of `kmalloc` that put a chunk into a block. Whichever case finds the space,
the fields stored are those that put the chunk between two parts of the block.
-/
namespace Extron.Liballoc
open Extron.Vmm Extron.OwnPages Extron.Startup
open Extron.Fields Extron.Chains Extron.Kheap Extron.HeapBytes Extron.Outcomes
set_option linter.unusedSimpArgs false

/-! ## Addresses of fields -/

section
variable (a : Nat)

@[simp] theorem major_prev_ofNat : Major.prev (UInt64.ofNat a) = UInt64.ofNat a := rfl
@[simp] theorem major_next_ofNat : Major.next (UInt64.ofNat a) = UInt64.ofNat (a + 8) := (UInt64.ofNat_add a 8).symm
@[simp] theorem major_pages_ofNat : Major.pages (UInt64.ofNat a) = UInt64.ofNat (a + 16) := (UInt64.ofNat_add a 16).symm
@[simp] theorem major_size_ofNat : Major.size (UInt64.ofNat a) = UInt64.ofNat (a + 20) := (UInt64.ofNat_add a 20).symm
@[simp] theorem major_usage_ofNat : Major.usage (UInt64.ofNat a) = UInt64.ofNat (a + 24) := (UInt64.ofNat_add a 24).symm
@[simp] theorem major_first_ofNat : Major.first (UInt64.ofNat a) = UInt64.ofNat (a + 32) := (UInt64.ofNat_add a 32).symm
@[simp] theorem minor_prev_ofNat : Minor.prev (UInt64.ofNat a) = UInt64.ofNat a := rfl
@[simp] theorem minor_next_ofNat : Minor.next (UInt64.ofNat a) = UInt64.ofNat (a + 8) := (UInt64.ofNat_add a 8).symm
@[simp] theorem minor_block_ofNat : Minor.block (UInt64.ofNat a) = UInt64.ofNat (a + 16) := (UInt64.ofNat_add a 16).symm
@[simp] theorem minor_magic_ofNat : Minor.magic (UInt64.ofNat a) = UInt64.ofNat (a + 24) := (UInt64.ofNat_add a 24).symm
@[simp] theorem minor_size_ofNat : Minor.size (UInt64.ofNat a) = UInt64.ofNat (a + 28) := (UInt64.ofNat_add a 28).symm
@[simp] theorem minor_req_size_ofNat : Minor.req_size (UInt64.ofNat a) = UInt64.ofNat (a + 32) := (UInt64.ofNat_add a 32).symm
@[simp] theorem add_sizeof_major : UInt64.ofNat a + sizeof_major = UInt64.ofNat (a + 40) := (UInt64.ofNat_add a 40).symm
@[simp] theorem add_sizeof_minor : UInt64.ofNat a + sizeof_minor = UInt64.ofNat (a + 40) := (UInt64.ofNat_add a 40).symm

end

/-! ## Numbers -/

theorem toNat_ofNat64 {n : Nat} (small : n < 2 ^ 64) : (UInt64.ofNat n).toNat = n := by
  rw [UInt64.toNat_ofNat', Nat.mod_eq_of_lt small]

theorem toNat_ofNat32 {n : Nat} (small : n < 2 ^ 32) : (UInt32.ofNat n).toNat = n := by
  rw [UInt32.toNat_ofNat', Nat.mod_eq_of_lt small]

theorem toNat_toUInt32 {n : Nat} (small : n < 2 ^ 32) : (UInt64.ofNat n).toUInt32.toNat = n := by
  rw [UInt64.toNat_toUInt32, toNat_ofNat64 (by omega), Nat.mod_eq_of_lt small]

theorem toUInt64_ofNat32 {n : Nat} (small : n < 2 ^ 32) : (UInt32.ofNat n).toUInt64 = UInt64.ofNat n := by
  apply UInt64.toNat_inj.mp
  rw [UInt32.toNat_toUInt64, toNat_ofNat32 small, toNat_ofNat64 (by omega)]

theorem ofNat_eq_NULL {n : Nat} (small : n < 2 ^ 64) : UInt64.ofNat n = NULL ↔ n = 0 := by
  rw [← UInt64.toNat_inj, toNat_ofNat64 small]
  rfl

/-- A difference of addresses in order. -/
theorem sub_ofNat {n k : Nat} (le : k ≤ n) (small : n < 2 ^ 64) : UInt64.ofNat n - UInt64.ofNat k = UInt64.ofNat (n - k) := by
  apply UInt64.toNat_inj.mp
  rw [UInt64.toNat_sub, toNat_ofNat64 small, toNat_ofNat64 (by omega), toNat_ofNat64 (by omega)]
  omega

/-! ## What every case does -/

/-- `kmalloc` has put the chunk between two parts of the block. -/
structure Put (m m' : Machine) (b : Block) (cs : List Chunk) (c : Chunk) (ds : List Chunk) : Prop where
  same : m' = { m with ram := m'.ram, l_inuse := m.l_inuse + UInt64.ofNat c.size }
  written : Written (insertFields b cs c ds) (bytes m) (bytes m')

section
variable {s₀ : State} {sections : List Multiboot.Elf64Shdr} {m m' : Machine} {ws : List Field} {b : Block} {c : Chunk}
  {cs ds : List Chunk} {a u prev next : Nat}

/-- A store to another global goes past a sequence of stores. -/
theorem Wrote.inuse (wrote : Wrote ws m m') (x : UInt64) : Wrote ws { m with l_inuse := x } { m' with l_inuse := x } := by
  refine ⟨?_, wrote.reach, wrote.bytes⟩
  rw [wrote.same]

theorem charge_ok (wrote : Wrote ws m m') (rest : AtRest s₀ sections m.kernel)
    (usage : Field.In ⟨a + 24, 4, u⟩ (bytes m)) (apart : ∀ f ∈ ws, f.Apart ⟨a + 24, 4, u⟩) (spans : Spans (bytes m) (a + 24) (a + 28))
    (small : u + (40 + c.size) < 2 ^ 32) :
    ∃ m'', charge (UInt64.ofNat a) (UInt64.ofNat c.size) m' = .ok () m'' ∧
      Wrote (ws ++ [⟨a + 24, 4, u + (40 + c.size)⟩]) { m with l_inuse := m.l_inuse + UInt64.ofNat c.size } m'' := by
  have sum : ((UInt32.ofNat u).toUInt64 + UInt64.ofNat (c.size + 40)).toUInt32.toNat = u + (40 + c.size) := by
    rw [toUInt64_ofNat32 (by omega), ← UInt64.ofNat_add, toNat_toUInt32 (by omega)]
    omega
  rw [charge, major_usage_ofNat, bind_ok (wrote.load32 (usage.stores apart)), add_sizeof_minor]
  obtain ⟨m'', run, after⟩ := wrote.store32 rest spans sum
  rw [bind_ok run]
  have inuse : m''.l_inuse = m.l_inuse := by
    rw [after.same]
  refine ⟨{ m'' with l_inuse := m.l_inuse + UInt64.ofNat c.size }, ?_, Wrote.inuse after _⟩
  rw [← inuse]
  rfl

theorem align_diff_ofNat (small : c.place < 2 ^ 64 - 128) :
    align_diff (UInt64.ofNat (c.place + 40)) = UInt64.ofNat (c.user - (c.place + 56)) := by
  have sum : UInt64.ofNat (c.place + 40) + ALIGN_INFO = UInt64.ofNat (c.place + 56) := (UInt64.ofNat_add (c.place + 40) 16).symm
  have low : (UInt64.ofNat (c.place + 56) &&& (ALIGNMENT - 1)).toNat = (c.place + 56) % 16 := by
    rw [Words.and_low _ (ALIGNMENT - 1) (k := 4) (by decide), toNat_ofNat64 (by omega)]
    norm_num
  have sixteen : ALIGNMENT.toNat = 16 := rfl
  rw [align_diff, sum]
  apply UInt64.toNat_inj.mp
  rw [toNat_ofNat64 (by rw [Chunk.user]; omega), Chunk.user]
  by_cases zero : (c.place + 56) % 16 = 0
  · have none : UInt64.ofNat (c.place + 56) &&& (ALIGNMENT - 1) = 0 := UInt64.toNat_inj.mp (low.trans zero)
    simp only [none, ne_eq, not_true_eq_false, if_false]
    rw [UInt64.toNat_zero]
    omega
  · have some : UInt64.ofNat (c.place + 56) &&& (ALIGNMENT - 1) ≠ 0 := by
      intro none
      rw [none] at low
      exact zero low.symm
    simp only [ne_eq, some, not_false_eq_true, if_true]
    rw [UInt64.toNat_sub, low, sixteen]
    omega

theorem align_ok (wrote : Wrote ws m m') (rest : AtRest s₀ sections m.kernel) (small : c.place < 2 ^ 64 - 128)
    (spans : Spans (bytes m) (c.user - 16) (c.user - 15)) :
    ∃ m'', ALIGN (UInt64.ofNat (c.place + 40)) m' = .ok (UInt64.ofNat c.user) m'' ∧
      Wrote (ws ++ [⟨c.user - 16, 1, c.user - (c.place + 40)⟩]) m m'' := by
  have low := c.user_low
  have high := c.user_high
  have aligned : UInt64.ofNat (c.place + 40) + ALIGN_INFO + align_diff (UInt64.ofNat (c.place + 40)) = UInt64.ofNat c.user := by
    have sixteen : ALIGN_INFO = UInt64.ofNat 16 := rfl
    rw [align_diff_ofNat small, sixteen, ← UInt64.ofNat_add, ← UInt64.ofNat_add]
    congr 1
    omega
  have before : UInt64.ofNat c.user - ALIGN_INFO = UInt64.ofNat (c.user - 16) :=
    sub_ofNat (k := 16) (by omega) (by omega)
  have value : (align_diff (UInt64.ofNat (c.place + 40)) + ALIGN_INFO).toUInt8.toNat = c.user - (c.place + 40) := by
    have sixteen : ALIGN_INFO.toNat = 16 := rfl
    rw [align_diff_ofNat small, UInt64.toNat_toUInt8, UInt64.toNat_add, sixteen, toNat_ofNat64 (by omega)]
    omega
  have width : c.user - 16 + 1 = c.user - 15 := by omega
  rw [ALIGN]
  simp only [aligned, before]
  rw [← width] at spans
  obtain ⟨m'', run, after⟩ := wrote.store8 rest spans value
  rw [bind_ok run]
  exact ⟨m'', rfl, after⟩

/-- The stores of a case, with the memory in which they are found. -/
theorem put_of_wrote (split : b.chunks = cs ++ ds) (gap : Gap b.place b.pages cs c ds) (fit : ∀ f ∈ insertFields b cs c ds, f.Fits)
    (wrote : Wrote ws { m with l_inuse := m.l_inuse + UInt64.ofNat c.size } m')
    (same : ∀ f, f ∈ ws ↔ f ∈ insertFields b cs c ds) : Put m m' b cs c ds := by
  refine ⟨wrote.same, ?_⟩
  have stored := wrote.bytes
  have before : bytes { m with l_inuse := m.l_inuse + UInt64.ofNat c.size } = bytes m := rfl
  rw [stored, before]
  exact written_stores (separate_insertFields split gap) fit same

/-- What is stored fits its fields. -/
theorem insertFields_fit (split : b.chunks = cs ++ ds) (gap : Gap b.place b.pages cs c ds) :
    ∀ f ∈ insertFields b cs c ds, f.Fits := by
  obtain ⟨lefts, rights, _⟩ := gap.sides split
  have stop := b.stop_lt
  have high := gap.high
  have usage := (b.insert split gap).usage_le
  have small := b.tidy.small
  have fits := c.fits
  have userHigh := c.user_high
  have userLow := c.user_low
  have lastBound : last Chunk.place 0 cs < 2 ^ 64 := by
    rcases List.eq_nil_or_concat' cs with rfl | ⟨others, l, rfl⟩
    · simp
    · have := lefts l (by simp)
      rw [last_concat]
      rw [Chunk.stop] at this high
      rw [Block.stop] at stop
      omega
  have firstBound : first Chunk.place ds 0 < 2 ^ 64 := by
    cases ds with
    | nil => simp
    | cons r rest =>
      have inside := (split ▸ b.tidy : Tidy b.place b.pages (cs ++ r :: rest)).inside r (by simp)
      rw [first_cons]
      rw [Chunk.stop] at inside
      rw [Block.stop] at stop
      omega
  rw [usage_insert] at usage
  have pages : (b.insert split gap).pages = b.pages := rfl
  rw [pages] at usage
  rw [Block.stop] at stop
  rw [Chunk.stop] at high
  intro f member
  rw [Field.Fits]
  simp only [insertFields, List.mem_cons, List.mem_append] at member
  rcases member with rfl | rfl | right | minor
  · norm_num
    omega
  · rcases leftLink_cases b.place cs c.place with ⟨_, link⟩ | ⟨_, _, _, link⟩
    · rw [link]
      norm_num
      omega
    · rw [link]
      norm_num
      omega
  · obtain ⟨r, _, rfl⟩ := mem_rightLink.mp right
    norm_num
    omega
  · simp only [minorFields, List.mem_cons, List.not_mem_nil, or_false] at minor
    rcases minor with rfl | rfl | rfl | rfl | rfl | rfl | rfl
    · norm_num
      omega
    · norm_num
      omega
    · norm_num
      omega
    · exact lt_of_lt_of_eq LIBALLOC_MAGIC.toNat_lt (by norm_num)
    · norm_num
      omega
    · norm_num
      omega
    · norm_num
      omega

end

/-! ## The cases -/

section
variable {s₀ : State} {sections : List Multiboot.Elf64Shdr} {m : Machine} {b : Block} {c : Chunk} {cs ds : List Chunk}
  {prev next : Nat}

/-- The bounds that a chunk in a gap of a block keeps. -/
structure Bounds (b : Block) (c : Chunk) : Prop where
  low : b.place + 40 ≤ c.place
  high : c.place + 40 + c.size ≤ b.stop
  stop : b.stop < 2 ^ 64 - 2 ^ 32
  usage : b.usage + (40 + c.size) < 2 ^ 32
  fits : c.req_size + 32 ≤ c.size
  userLow : c.place + 56 ≤ c.user
  userHigh : c.user ≤ c.place + 71

theorem Gap.bounds (split : b.chunks = cs ++ ds) (gap : Gap b.place b.pages cs c ds) : Bounds b c := by
  have usage := (b.insert split gap).usage_le
  have small := b.tidy.small
  have pages : (b.insert split gap).pages = b.pages := rfl
  rw [usage_insert, pages] at usage
  exact ⟨gap.low, gap.high, b.stop_lt, by omega, c.fits, c.user_low, c.user_high⟩

/-- The record's own field of the usage. -/
theorem BlockAt.usageField (here : BlockAt (bytes m) b prev next) : Field.In ⟨b.place + 24, 4, b.usage⟩ (bytes m) :=
  here.record _ (by simp [majorFields])

theorem brand_new_ok (rest : AtRest s₀ sections m.kernel) (here : BlockAt (bytes m) b prev next)
    (spans : Spans (bytes m) b.place b.stop) (split : b.chunks = [] ++ []) (gap : Gap b.place b.pages [] c [])
    (place : c.place = b.place + 40) :
    ∃ m', kmalloc.brand_new (UInt64.ofNat b.place) (UInt64.ofNat c.size) (UInt64.ofNat c.req_size) m =
        .ok (UInt64.ofNat c.user) m' ∧ Put m m' b [] c [] := by
  obtain ⟨low, high, stop, usage, fits, userLow, userHigh⟩ := gap.bounds split
  rw [kmalloc.brand_new, major_first_ofNat, add_sizeof_major, ← place]
  obtain ⟨m₁, run, w₁⟩ := (Wrote.refl m).store64 (a := b.place + 32) rest (spans.mono (by omega) (by omega)) (toNat_ofNat64 (n := c.place) (by omega))
  rw [bind_ok run, bind_ok (w₁.load64 (in_stores_concat (by norm_num [Field.Fits]; omega)))]
  simp only [minor_magic_ofNat, minor_prev_ofNat, minor_next_ofNat, minor_block_ofNat, minor_size_ofNat, minor_req_size_ofNat,
    add_sizeof_minor]
  obtain ⟨m₂, run, w₂⟩ := w₁.store32 (a := c.place + 24) (v := LIBALLOC_MAGIC) rest (spans.mono (by omega) (by omega)) rfl
  rw [bind_ok run]
  obtain ⟨m₃, run, w₃⟩ := w₂.store64 (a := c.place) (v := NULL) (k := 0) rest (spans.mono (by omega) (by omega)) rfl
  rw [bind_ok run]
  obtain ⟨m₄, run, w₄⟩ := w₃.store64 (a := c.place + 8) (v := NULL) (k := 0) rest (spans.mono (by omega) (by omega)) rfl
  rw [bind_ok run]
  obtain ⟨m₅, run, w₅⟩ := w₄.store64 (a := c.place + 16) rest (spans.mono (by omega) (by omega)) (toNat_ofNat64 (n := b.place) (by omega))
  rw [bind_ok run]
  obtain ⟨m₆, run, w₆⟩ := w₅.store32 (a := c.place + 28) rest (spans.mono (by omega) (by omega)) (toNat_toUInt32 (n := c.size) (by omega))
  rw [bind_ok run]
  obtain ⟨m₇, run, w₇⟩ := w₆.store32 (a := c.place + 32) rest (spans.mono (by omega) (by omega)) (toNat_toUInt32 (n := c.req_size) (by omega))
  rw [bind_ok run]
  obtain ⟨m₈, run, w₈⟩ := charge_ok w₇ rest here.usageField (by simp [Field.Apart]; omega)
    (spans.mono (by omega) (by omega)) usage
  rw [bind_ok run]
  obtain ⟨m₉, run, w₉⟩ := align_ok (c := c) w₈ rest (by omega) (spans.mono (by omega) (by omega))
  refine ⟨m₉, run, put_of_wrote split gap (insertFields_fit split gap) w₉ fun f => ?_⟩
  simp only [insertFields, minorFields, leftLink, rightLink, List.getLast?_nil, List.head?_nil, first_nil, last_nil, List.nil_append,
    List.cons_append, List.mem_cons, List.not_mem_nil, or_false]
  tauto

theorem squeeze_ok {r : Chunk} (rest : AtRest s₀ sections m.kernel) (here : BlockAt (bytes m) b prev next)
    (spans : Spans (bytes m) b.place b.stop) (split : b.chunks = [] ++ r :: ds) (gap : Gap b.place b.pages [] c (r :: ds))
    (place : c.place = b.place + 40) :
    ∃ m', kmalloc.squeeze (UInt64.ofNat b.place) (UInt64.ofNat c.size) (UInt64.ofNat c.req_size) m =
        .ok (UInt64.ofNat c.user) m' ∧ Put m m' b [] c (r :: ds) := by
  obtain ⟨low, high, stop, usage, fits, userLow, userHigh⟩ := gap.bounds split
  have after : c.place + 40 + c.size ≤ r.place := gap.before r rfl
  have inside := (b.tidy.inside r (by rw [split]; simp)).2
  rw [Chunk.stop, ← Block.stop] at inside
  have front : Field.In ⟨b.place + 32, 8, r.place⟩ (bytes m) := by
    have field := here.record ⟨b.place + 32, 8, first Chunk.place b.chunks 0⟩ (by simp [majorFields])
    rw [split] at field
    exact field
  rw [kmalloc.squeeze, major_first_ofNat, bind_ok ((Wrote.refl m).load64 front), add_sizeof_major, ← place]
  simp only [minor_prev_ofNat]
  obtain ⟨m₁, run, w₁⟩ := (Wrote.refl m).store64 (a := r.place) rest (spans.mono (by omega) (by omega)) (toNat_ofNat64 (n := c.place) (by omega))
  rw [bind_ok run, bind_ok (w₁.load64 (in_stores_concat (by norm_num [Field.Fits]; omega)))]
  simp only [minor_next_ofNat]
  obtain ⟨m₂, run, w₂⟩ := w₁.store64 (a := c.place + 8) rest (spans.mono (by omega) (by omega)) (toNat_ofNat64 (n := r.place) (by omega))
  rw [bind_ok run]
  obtain ⟨m₃, run, w₃⟩ := w₂.store64 (a := b.place + 32) rest (spans.mono (by omega) (by omega)) (toNat_ofNat64 (n := c.place) (by omega))
  rw [bind_ok run, bind_ok (w₃.load64 (in_stores_concat (by norm_num [Field.Fits]; omega)))]
  simp only [minor_magic_ofNat, minor_prev_ofNat, minor_next_ofNat, minor_block_ofNat, minor_size_ofNat, minor_req_size_ofNat,
    add_sizeof_minor]
  obtain ⟨m₄, run, w₄⟩ := w₃.store32 (a := c.place + 24) (v := LIBALLOC_MAGIC) rest (spans.mono (by omega) (by omega)) rfl
  rw [bind_ok run]
  obtain ⟨m₅, run, w₅⟩ := w₄.store64 (a := c.place) (v := NULL) (k := 0) rest (spans.mono (by omega) (by omega)) rfl
  rw [bind_ok run]
  obtain ⟨m₆, run, w₆⟩ := w₅.store64 (a := c.place + 16) rest (spans.mono (by omega) (by omega)) (toNat_ofNat64 (n := b.place) (by omega))
  rw [bind_ok run]
  obtain ⟨m₇, run, w₇⟩ := w₆.store32 (a := c.place + 28) rest (spans.mono (by omega) (by omega)) (toNat_toUInt32 (n := c.size) (by omega))
  rw [bind_ok run]
  obtain ⟨m₈, run, w₈⟩ := w₇.store32 (a := c.place + 32) rest (spans.mono (by omega) (by omega)) (toNat_toUInt32 (n := c.req_size) (by omega))
  rw [bind_ok run]
  obtain ⟨m₉, run, w₉⟩ := charge_ok w₈ rest here.usageField (by simp [Field.Apart]; omega)
    (spans.mono (by omega) (by omega)) usage
  rw [bind_ok run]
  obtain ⟨m₁₀, run, w₁₀⟩ := align_ok (c := c) w₉ rest (by omega) (spans.mono (by omega) (by omega))
  refine ⟨m₁₀, run, put_of_wrote split gap (insertFields_fit split gap) w₁₀ fun f => ?_⟩
  simp only [insertFields, minorFields, leftLink, rightLink, List.getLast?_nil, List.head?_cons, first_cons, last_nil, List.nil_append,
    List.cons_append, List.mem_cons, List.not_mem_nil, or_false]
  tauto

/-- A field of the record of a chunk. -/
theorem BlockAt.minorField {l : Chunk} {f : Field} (here : BlockAt (bytes m) b prev next) (split : b.chunks = cs ++ l :: ds)
    (member : f ∈ minorFields b.place l (last Chunk.place 0 cs) (first Chunk.place ds 0)) : f.In (bytes m) := by
  have chunks := here.chunks
  rw [ChunksAt, split] at chunks
  exact (chain_middle.mp chunks).2.1 f member

/-- Where a chunk ends, by its record. -/
theorem stop_ofNat {l : Chunk} (small : l.size < 2 ^ 32) :
    UInt64.ofNat (l.place + 40) + (UInt32.ofNat l.size).toUInt64 = UInt64.ofNat l.stop := by
  rw [toUInt64_ofNat32 small, ← UInt64.ofNat_add]
  rfl

theorem at_end_ok {others : List Chunk} {l : Chunk} (rest : AtRest s₀ sections m.kernel) (here : BlockAt (bytes m) b prev next)
    (spans : Spans (bytes m) b.place b.stop) (split : b.chunks = (others ++ [l]) ++ [])
    (gap : Gap b.place b.pages (others ++ [l]) c []) (place : c.place = l.stop) :
    ∃ m', kmalloc.at_end (UInt64.ofNat b.place) (UInt64.ofNat c.size) (UInt64.ofNat c.req_size) (UInt64.ofNat l.place) m =
        .ok (UInt64.ofNat c.user) m' ∧ Put m m' b (others ++ [l]) c [] := by
  obtain ⟨low, high, stop, usage, fits, userLow, userHigh⟩ := gap.bounds split
  have inside := (b.tidy.inside l (by rw [split]; simp)).1
  have split' : b.chunks = others ++ l :: [] := by rw [split, List.append_nil]
  have size : Field.In ⟨l.place + 28, 4, l.size⟩ (bytes m) := here.minorField split' (by simp [minorFields])
  rw [Chunk.stop] at place
  rw [kmalloc.at_end, minor_size_ofNat, bind_ok ((Wrote.refl m).load32 size)]
  simp only [add_sizeof_minor, stop_ofNat (show l.size < 2 ^ 32 by have := size.fits; norm_num [Field.Fits] at this; omega), minor_next_ofNat]
  rw [Chunk.stop, ← place]
  obtain ⟨m₁, run, w₁⟩ := (Wrote.refl m).store64 (a := l.place + 8) rest (spans.mono (by omega) (by omega)) (toNat_ofNat64 (n := c.place) (by omega))
  rw [bind_ok run, bind_ok (w₁.load64 (in_stores_concat (by norm_num [Field.Fits]; omega)))]
  simp only [minor_magic_ofNat, minor_prev_ofNat, minor_next_ofNat, minor_block_ofNat, minor_size_ofNat, minor_req_size_ofNat,
    add_sizeof_minor]
  obtain ⟨m₂, run, w₂⟩ := w₁.store64 (a := c.place) rest (spans.mono (by omega) (by omega)) (toNat_ofNat64 (n := l.place) (by omega))
  rw [bind_ok run]
  obtain ⟨m₃, run, w₃⟩ := w₂.store64 (a := c.place + 8) (v := NULL) (k := 0) rest (spans.mono (by omega) (by omega)) rfl
  rw [bind_ok run]
  obtain ⟨m₄, run, w₄⟩ := w₃.store32 (a := c.place + 24) (v := LIBALLOC_MAGIC) rest (spans.mono (by omega) (by omega)) rfl
  rw [bind_ok run]
  obtain ⟨m₅, run, w₅⟩ := w₄.store64 (a := c.place + 16) rest (spans.mono (by omega) (by omega)) (toNat_ofNat64 (n := b.place) (by omega))
  rw [bind_ok run]
  obtain ⟨m₆, run, w₆⟩ := w₅.store32 (a := c.place + 28) rest (spans.mono (by omega) (by omega)) (toNat_toUInt32 (n := c.size) (by omega))
  rw [bind_ok run]
  obtain ⟨m₇, run, w₇⟩ := w₆.store32 (a := c.place + 32) rest (spans.mono (by omega) (by omega)) (toNat_toUInt32 (n := c.req_size) (by omega))
  rw [bind_ok run]
  obtain ⟨m₈, run, w₈⟩ := charge_ok w₇ rest here.usageField (by simp [Field.Apart]; omega)
    (spans.mono (by omega) (by omega)) usage
  rw [bind_ok run]
  obtain ⟨m₉, run, w₉⟩ := align_ok (c := c) w₈ rest (by omega) (spans.mono (by omega) (by omega))
  refine ⟨m₉, run, put_of_wrote split gap (insertFields_fit split gap) w₉ fun f => ?_⟩
  have link : leftLink b.place (others ++ [l]) c.place = ⟨l.place + 8, 8, c.place⟩ := by simp [leftLink]
  simp only [insertFields, minorFields, link, rightLink, List.head?_nil, first_nil, last_concat, List.nil_append,
    List.cons_append, List.mem_cons, List.not_mem_nil, or_false]
  tauto

theorem between_ok {others : List Chunk} {l r : Chunk} (rest : AtRest s₀ sections m.kernel)
    (here : BlockAt (bytes m) b prev next) (spans : Spans (bytes m) b.place b.stop)
    (split : b.chunks = (others ++ [l]) ++ r :: ds) (gap : Gap b.place b.pages (others ++ [l]) c (r :: ds))
    (place : c.place = l.stop) :
    ∃ m', kmalloc.between (UInt64.ofNat b.place) (UInt64.ofNat c.size) (UInt64.ofNat c.req_size) (UInt64.ofNat l.place) m =
        .ok (UInt64.ofNat c.user) m' ∧ Put m m' b (others ++ [l]) c (r :: ds) := by
  obtain ⟨low, high, stop, usage, fits, userLow, userHigh⟩ := gap.bounds split
  have inside := (b.tidy.inside l (by rw [split]; simp)).1
  have after : c.place + 40 + c.size ≤ r.place := gap.before r rfl
  have insideNext := (b.tidy.inside r (by rw [split]; simp)).2
  rw [Chunk.stop, ← Block.stop] at insideNext
  have split' : b.chunks = others ++ l :: r :: ds := by rw [split, List.append_assoc]; rfl
  have size : Field.In ⟨l.place + 28, 4, l.size⟩ (bytes m) := here.minorField split' (by simp [minorFields])
  have link : Field.In ⟨l.place + 8, 8, r.place⟩ (bytes m) := here.minorField split' (by simp [minorFields])
  rw [Chunk.stop] at place
  rw [kmalloc.between, minor_size_ofNat, bind_ok ((Wrote.refl m).load32 size)]
  simp only [add_sizeof_minor, stop_ofNat (show l.size < 2 ^ 32 by have := size.fits; norm_num [Field.Fits] at this; omega)]
  rw [Chunk.stop, ← place]
  simp only [minor_magic_ofNat, minor_prev_ofNat, minor_next_ofNat, minor_block_ofNat, minor_size_ofNat, minor_req_size_ofNat,
    add_sizeof_minor]
  obtain ⟨m₁, run, w₁⟩ := (Wrote.refl m).store32 (a := c.place + 24) (v := LIBALLOC_MAGIC) rest (spans.mono (by omega) (by omega)) rfl
  rw [bind_ok run, bind_ok (w₁.load64 (link.stores (by simp [Field.Apart]; omega)))]
  obtain ⟨m₂, run, w₂⟩ := w₁.store64 (a := c.place + 8) rest (spans.mono (by omega) (by omega)) (toNat_ofNat64 (n := r.place) (by omega))
  rw [bind_ok run]
  obtain ⟨m₃, run, w₃⟩ := w₂.store64 (a := c.place) rest (spans.mono (by omega) (by omega)) (toNat_ofNat64 (n := l.place) (by omega))
  rw [bind_ok run]
  obtain ⟨m₄, run, w₄⟩ := w₃.store32 (a := c.place + 28) rest (spans.mono (by omega) (by omega)) (toNat_toUInt32 (n := c.size) (by omega))
  rw [bind_ok run]
  obtain ⟨m₅, run, w₅⟩ := w₄.store32 (a := c.place + 32) rest (spans.mono (by omega) (by omega)) (toNat_toUInt32 (n := c.req_size) (by omega))
  rw [bind_ok run]
  obtain ⟨m₆, run, w₆⟩ := w₅.store64 (a := c.place + 16) rest (spans.mono (by omega) (by omega)) (toNat_ofNat64 (n := b.place) (by omega))
  rw [bind_ok run, bind_ok (w₆.load64 (link.stores (by simp [Field.Apart]; omega)))]
  simp only [minor_prev_ofNat]
  obtain ⟨m₇, run, w₇⟩ := w₆.store64 (a := r.place) rest (spans.mono (by omega) (by omega)) (toNat_ofNat64 (n := c.place) (by omega))
  rw [bind_ok run]
  obtain ⟨m₈, run, w₈⟩ := w₇.store64 (a := l.place + 8) rest (spans.mono (by omega) (by omega)) (toNat_ofNat64 (n := c.place) (by omega))
  rw [bind_ok run]
  obtain ⟨m₉, run, w₉⟩ := charge_ok w₈ rest here.usageField (by simp [Field.Apart]; omega)
    (spans.mono (by omega) (by omega)) usage
  rw [bind_ok run]
  obtain ⟨m₁₀, run, w₁₀⟩ := align_ok (c := c) w₉ rest (by omega) (spans.mono (by omega) (by omega))
  refine ⟨m₁₀, run, put_of_wrote split gap (insertFields_fit split gap) w₁₀ fun f => ?_⟩
  have link : leftLink b.place (others ++ [l]) c.place = ⟨l.place + 8, 8, c.place⟩ := by simp [leftLink]
  simp only [insertFields, minorFields, link, rightLink, List.head?_cons, first_cons, last_concat, List.nil_append,
    List.cons_append, List.mem_cons, List.not_mem_nil, or_false]
  tauto

end

end Extron.Liballoc
