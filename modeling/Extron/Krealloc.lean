import Extron.Copying
import Extron.Kfree

/-!
`kcalloc` and `krealloc`. What is stored into the memory of a client leaves the records
as they are. `kcalloc` fills new memory with zeros; `krealloc` keeps the chunk when it is
large enough, and else moves the bytes to a new one.
-/
namespace Extron.Liballoc
open Extron.Multiboot Extron.Pmm Extron.Regions Extron.Vmm Extron.OwnPages Extron.Startup Extron.Heap
open Extron.Fields Extron.Chains Extron.HeapBytes Extron.Outcomes Extron.Kheap
set_option linter.unusedSimpArgs false

section
variable {s₀ start : State} {sections : List Elf64Shdr} {others : Set UInt64} {m m' : Machine} {A : Arena} {b d : Block} {c e : Chunk}

/-! ## Chunks of an arena -/

/-- Chunks that do not overlap. -/
def Chunk.Apart (c e : Chunk) : Prop := c.stop ≤ e.place ∨ e.stop ≤ c.place

theorem Chunk.Apart.symm (apart : c.Apart e) : e.Apart c := Or.symm apart

/-- The chunks of an arena do not overlap. -/
theorem Arena.live_apart (A : Arena) : A.live.Pairwise Chunk.Apart := by
  rw [Arena.live, List.pairwise_flatMap]
  refine ⟨fun b _ => b.tidy.order.imp Or.inl, A.apart.imp fun {b d} apart c inB e inD => ?_⟩
  have insideB := b.chunk_inside inB
  have insideD := d.chunk_inside inD
  rw [Block.Apart] at apart
  rw [Chunk.Apart]
  omega

theorem apart_of_perm {chunks : List Chunk} (live : A.live.Perm (c :: chunks)) : ∀ e ∈ chunks, c.Apart e :=
  (List.pairwise_cons.mp ((live.pairwise_iff Chunk.Apart.symm).mp A.live_apart)).1

/-- The memory of a client is not in the record of any block or chunk. -/
theorem client_apart (member : c ∈ A.live) {x : Nat} (low : c.user ≤ x) (high : x < c.stop) (there : b ∈ A.blocks) :
    ¬ (b.place ≤ x ∧ x < b.place + 40) ∧ ∀ e ∈ b.chunks, ¬ (e.place ≤ x ∧ x < e.user) := by
  obtain ⟨d, inBlocks, inD⟩ := List.mem_flatMap.mp member
  have inside := d.chunk_inside inD
  have start := c.user_low
  by_cases same : b = d
  · subst same
    refine ⟨by omega, fun e other => ?_⟩
    have := e.user_stop
    rcases b.order_cases inD other with rfl | order | order
    · omega
    · omega
    · omega
  · have apart := A.apart.forall there inBlocks same
    have edge := b.stop_ge
    rw [Block.Apart] at apart
    refine ⟨by omega, fun e other => ?_⟩
    have := b.chunk_inside other
    have := e.user_stop
    omega

/-! ## Stores of a client -/

/-- When no record changes, the arena is as it was. -/
theorem Represents.congr (rep : Represents s₀ sections start others m A) (same : m' = { m with ram := m'.ram })
    (records : ∀ b ∈ A.blocks, (∀ x, b.place ≤ x → x < b.place + 40 → bytes m' x = bytes m x) ∧
      ∀ c ∈ b.chunks, ∀ x, c.place ≤ x → x < c.user → bytes m' x = bytes m x) : Represents s₀ sections start others m' A := by
  refine ⟨⟨?_, ?_, ?_, rep.foreign,
    rep.records.mono fun b member p q here => here.congr (records b member).1 (records b member).2⟩, ?_, ?_, ?_, ?_⟩
  · rw [same]
    exact rep.rest
  · rw [same]
    exact rep.since
  · rw [same]
    exact rep.bits
  · rw [same]
    exact rep.root
  · rw [same]
    exact rep.bet
  · rw [same]
    exact rep.allocated
  · rw [same]
    exact rep.inuse

/-- What a client stores into its memory. -/
theorem Represents.fill {a n : Nat} {value : Nat → Option UInt8} (rep : Represents s₀ sections start others m A) (member : c ∈ A.live)
    (filled : Filled m m' a n value) (low : c.user ≤ a) (high : a + n ≤ c.stop) : Represents s₀ sections start others m' A := by
  refine rep.congr filled.same fun b there => ⟨fun x above below => ?_, fun e inB x above below => ?_⟩
  · refine filled.outside x ?_
    by_contra within
    exact (client_apart member (x := x) (by omega) (by omega) there).1 ⟨above, below⟩
  · refine filled.outside x ?_
    by_contra within
    exact (client_apart member (x := x) (by omega) (by omega) there).2 e inB ⟨above, below⟩

theorem Filled.counts {a n : Nat} {value : Nat → Option UInt8} (filled : Filled m m' a n value) : SameCounts m m' := by
  have same := filled.same
  refine ⟨?_, ?_, ?_⟩
  · rw [same]
  · rw [same]
  · rw [same]

/-- The memory of another client stays. -/
theorem Filled.elsewhere {a n : Nat} {value : Nat → Option UInt8} (filled : Filled m m' a n value) (low : c.user ≤ a)
    (high : a + n ≤ c.stop) (apart : c.Apart e) {x : Nat} (above : e.user ≤ x) (below : x < e.user + e.req_size) :
    bytes m' x = bytes m x := by
  have := e.user_low
  have := e.user_stop
  have := c.user_low
  rw [Chunk.Apart] at apart
  exact filled.outside x (by omega)

theorem Represents.client_spans (rep : Represents s₀ sections start others m A) (member : c ∈ A.live) :
    Spans (bytes m) c.user (c.user + c.req_size) := by
  have := c.user_low
  have := c.user_stop
  exact fun x low high => rep.client member (by omega) (by omega)

theorem user_lt (member : c ∈ A.live) : c.stop < 2 ^ 64 - 2 ^ 32 := by
  obtain ⟨b, _, inB⟩ := List.mem_flatMap.mp member
  have := (b.chunk_inside inB).2
  have := b.stop_lt
  omega

end

/-! ## `kcalloc` -/

/-- What a call of `kcalloc` returns: a new chunk of `n` bytes, all of them zero. -/
structure Zeroed (s₀ : State) (sections : List Elf64Shdr) (start : State) (others : Set UInt64) (A : Arena) (n : Nat) (m : Machine) (v : UInt64)
    (m' : Machine) (A' : Arena) (c : Chunk) : Prop extends Served s₀ sections start others A (n + 32) n m v m' A' c where
  zero : ∀ i < n, bytes m' (c.user + i) = some 0

section
variable {s₀ start : State} {sections : List Elf64Shdr} {others : Set UInt64} {m m' : Machine} {A : Arena}

/-- The `int` is the product without its upper half, when that has no sign. -/
theorem real_size_ofNat {nobj size : UInt64} {n : Nat} (product : nobj.toNat * size.toNat % 2 ^ 32 = n) (small : n < 2 ^ 31) :
    real_size nobj size = UInt64.ofNat n := by
  have low : (nobj * size).toUInt32.toNat = n := by
    rw [UInt64.toNat_toUInt32, UInt64.toNat_mul, ← product]
    omega
  apply UInt64.toNat_inj.mp
  rw [toNat_ofNat64 (by omega), real_size]
  show ((nobj * size).toUInt32.toBitVec.signExtend 64).toNat = n
  have positive : (nobj * size).toUInt32.toBitVec.msb = false := by
    rw [BitVec.msb_eq_false_iff_two_mul_lt]
    show 2 * (nobj * size).toUInt32.toNat < 2 ^ 32
    omega
  rw [BitVec.signExtend_eq_setWidth_of_msb_false positive, BitVec.toNat_setWidth]
  show (nobj * size).toUInt32.toNat % 2 ^ 64 = n
  omega

/-- `kcalloc` has room for the product modulo 2^32, and clears it. -/
theorem kcalloc_post {nobj size : UInt64} {n : Nat} (rep : Represents s₀ sections start others m A) (settled : A.Settled)
    (product : nobj.toNat * size.toNat % 2 ^ 32 = n) (small : n < 2 ^ 31) :
    Post (fun v m' => ∃ A' c, Zeroed s₀ sections start others A n m v m' A' c) (OutOfMemory s₀ sections) (kcalloc nobj size m) := by
  have few : Small (n + 32) := by
    rw [Small]
    omega
  rw [kcalloc, real_size_ofNat product small]
  apply post_bind
  refine (kmalloc_post rep settled few).mono ?_ fun _ _ stopped => stopped
  rintro v m₁ ⟨A', c, served⟩
  have member : c ∈ A'.live := served.live.mem_iff.mpr (.head _)
  have spans := served.rep.client_spans member
  have stop := c.user_stop
  rw [served.asked] at spans stop
  obtain ⟨m₂, run, filled⟩ := liballoc_memset_ok (v := 0) (n := n) served.rep.rest (by omega) spans
  rw [served.pointer, bind_ok run]
  refine ⟨A', c, { served with pointer := rfl, rep := served.rep.fill member filled le_rfl stop, kept := ?_, zero := filled.inside }⟩
  have cleared : Kept A m₁ m₂ :=
    ⟨filled.counts, fun e there x low high => filled.elsewhere le_rfl stop (apart_of_perm served.live e there) low high⟩
  exact served.kept.trans cleared fun _ there => there

end

/-! ## `krealloc` -/

/-- The chunk when fewer bytes are asked for. -/
def Chunk.shrink (c : Chunk) {n : Nat} (le : n ≤ c.req_size) : Chunk :=
  { c with req_size := n, fits := by have := c.fits; omega }

section
variable {s₀ start : State} {sections : List Elf64Shdr} {others : Set UInt64} {m m' : Machine} {A : Arena} {b : Block} {c : Chunk}
  {xs ys : List Block} {cs ds : List Chunk} {n prev next : Nat}

theorem shrink_gap (split : b.chunks = cs ++ c :: ds) (le : n ≤ c.req_size) :
    Gap (b.remove split).place (b.remove split).pages cs (c.shrink le) ds := by
  obtain ⟨low, after, before, high⟩ := (split ▸ b.tidy : Tidy b.place b.pages (cs ++ c :: ds)).gap
  exact ⟨low, after, before, high⟩

theorem chunks_remove (split : b.chunks = cs ++ c :: ds) : (b.remove split).chunks = cs ++ ds := rfl

/-- The block in which a chunk was asked to be smaller. -/
def Block.shrink (b : Block) (split : b.chunks = cs ++ c :: ds) (le : n ≤ c.req_size) : Block :=
  (b.remove split).insert (chunks_remove split) (shrink_gap split le)

theorem place_shrink (split : b.chunks = cs ++ c :: ds) (le : n ≤ c.req_size) : (b.shrink split le).place = b.place := rfl

theorem pages_shrink (split : b.chunks = cs ++ c :: ds) (le : n ≤ c.req_size) : (b.shrink split le).pages = b.pages := rfl

theorem usage_shrink (split : b.chunks = cs ++ c :: ds) (le : n ≤ c.req_size) : (b.shrink split le).usage = b.usage := by
  rw [Block.shrink, usage_insert, ← usage_remove split]
  rfl

theorem BlockAt.shrink {M M' : Memory} (here : BlockAt M b prev next) (split : b.chunks = cs ++ c :: ds) (le : n ≤ c.req_size)
    (written : Written [⟨c.place + 32, 4, n⟩] M M') : BlockAt M' (b.shrink split le) prev next := by
  obtain ⟨lefts, rights, _, low, _⟩ := sides_of_split split
  have start := c.user_low
  have stop := c.user_stop
  have elsewhere : ∀ e : Chunk, e.stop ≤ c.place ∨ c.stop ≤ e.place → ∀ f ∈ [(⟨c.place + 32, 4, n⟩ : Field)], Elsewhere e f := by
    intro e apart f member
    have := e.user_stop
    rw [List.mem_singleton.mp member, Elsewhere]
    simp only []
    omega
  constructor
  · have same : majorFields (b.shrink split le) prev next = majorFields b prev next := by
      have front : first Chunk.place (b.shrink split le).chunks 0 = first Chunk.place b.chunks 0 := by
        rw [split]
        exact (first_append cs (c.shrink le :: ds) 0).trans (first_append cs (c :: ds) 0).symm
      rw [majorFields, majorFields, usage_shrink, front]
      rfl
    rw [same]
    refine here.record.congr major_range fun x _ below => written.keeps x fun f member => ?_
    rw [List.mem_singleton.mp member]
    simp only []
    omega
  · have chunks := here.chunks
    rw [ChunksAt, split] at chunks
    refine chunks.replace rfl (fun e member p q held => ?_) (fun p q held => ?_) (fun e member p q held => ?_)
    · exact keep_minor written (elsewhere e (.inl (lefts e member).2)) held
    · refine written.change held (List.mem_singleton.mpr rfl) (f := ⟨c.place + 32, 4, n⟩) (by simp [minorFields, Chunk.shrink])
        (separate_of_pairwise (pairwise_minorFields b.place (c.shrink le) p q)) (fun g member other => ?_)
        fun f there => .inl (List.mem_singleton.mp there)
      have user : (c.shrink le).user = c.user := rfl
      simp only [minorFields, Chunk.shrink, user, List.mem_cons, List.not_mem_nil, or_false, other, false_or] at member ⊢
      tauto
    · exact keep_minor written (elsewhere e (.inr (rights e member).2)) held

/-- What a call of `krealloc` returns: a chunk of `n` bytes that begins with the bytes of
    the old one; the other chunks stay. -/
structure Moved (s₀ : State) (sections : List Elf64Shdr) (start : State) (others : Set UInt64) (A : Arena) (c : Chunk) (n : Nat) (m : Machine)
    (v : UInt64) (m' : Machine) (A' : Arena) (e : Chunk) (chunks : List Chunk) : Prop where
  pointer : v = UInt64.ofNat e.user
  asked : e.req_size = n
  old : A.live.Perm (c :: chunks)
  live : A'.live.Perm (e :: chunks)
  settled : A'.Settled
  rep : Represents s₀ sections start others m' A'
  counts : SameCounts m m'
  bytes : ∀ d ∈ chunks, ∀ x, d.user ≤ x → x < d.user + d.req_size → bytes m' x = bytes m x
  content : ∀ i < c.req_size, i < n → HeapBytes.bytes m' (e.user + i) = HeapBytes.bytes m (c.user + i)

/-- The size is stored into the record; nothing moves. -/
theorem shrink_ok (rep : Represents s₀ sections start others m A) (settled : A.Settled) (member : c ∈ A.live) (le : n ≤ c.req_size) :
    ∃ m' A' e chunks, store32 (UInt64.ofNat (c.place + 32)) (UInt64.ofNat n).toUInt32 m = .ok () m' ∧
      Moved s₀ sections start others A c n m (UInt64.ofNat c.user) m' A' e chunks := by
  obtain ⟨xs, b, ys, cs, ds, list, split⟩ := split_of_live member
  have inBlocks : b ∈ A.blocks := by rw [list]; simp
  have here := rep.block list
  obtain ⟨low, high, stop, _, fits, _, _⟩ := around split
  have sizeField : Field.In ⟨c.place + 28, 4, c.size⟩ (bytes m) := here.minorField split (by simp [minorFields])
  have few : c.size < 2 ^ 32 := by
    have := sizeField.fits
    norm_num [Field.Fits] at this
    omega
  obtain ⟨m', run, wrote⟩ := (Wrote.refl m).store32 (a := c.place + 32) rep.rest ((rep.spans inBlocks).mono (by omega) (by omega))
    (toNat_toUInt32 (n := n) (by omega))
  have written : Written [⟨c.place + 32, 4, n⟩] (bytes m) (bytes m') := by
    rw [wrote.bytes]
    refine written_stores (separate_of_pairwise (List.pairwise_singleton _ _)) ?_ fun f => Iff.rfl
    intro f there
    rw [List.mem_singleton.mp there, Field.Fits]
    norm_num
    omega
  have heads : ∀ f ∈ [(⟨c.place + 32, 4, n⟩ : Field)], InHeads b f := by
    intro f there
    have := c.user_low
    rw [List.mem_singleton.mp there]
    refine .inr ⟨c, by rw [split]; simp, ?_⟩
    simp only []
    omega
  obtain ⟨outside, clients⟩ := kept_of_heads (d := b) written heads list rfl rfl fun _ there => there
  have same := wrote.same
  have old := live_remove list split
  -- in two steps: without the chunk, and with it again
  have list₁ : (A.replace list (b.place_remove split) (b.pages_remove split)).blocks = xs ++ b.remove split :: ys := rfl
  have live : (A.replace list (place_shrink split le) (pages_shrink split le)).live.Perm
      (c.shrink le :: (A.replace list (b.place_remove split) (b.pages_remove split)).live) :=
    live_insert list₁ (chunks_remove split) (shrink_gap split le)
  refine ⟨m', A.replace list (place_shrink split le) (pages_shrink split le), c.shrink le, _, run, rfl, rfl, old, live, fun d there => ?_, ?_, ?_, ?_, ?_⟩
  · rcases List.mem_append.mp there with earlier | later
    · exact settled d (by rw [list]; simp [earlier])
    · rcases List.mem_cons.mp later with rfl | later
      · exact List.append_ne_nil_of_right_ne_nil _ (List.cons_ne_nil _ _)
      · exact settled d (by rw [list]; simp [later])
  · refine rep.replace list (place_shrink split le) (pages_shrink split le) ?_ outside (fun p q here => here.shrink split le written) ?_ (.inl ?_) ?_ ?_
    · rw [same]
    · rw [same]
    · rw [same]
    · rw [same]
    · rw [same, used_cons live]
      show m.l_inuse = _
      rw [rep.inuse, used_cons old]
      rfl
  · rw [same]
    exact ⟨rfl, rfl, rfl⟩
  · intro d there x above below
    have := d.user_stop
    exact clients d (old.mem_iff.mpr (.tail _ there)) x above (by omega)
  · intro i first _
    have := c.user_stop
    have user : (c.shrink le).user = c.user := rfl
    rw [user]
    exact clients c member _ (Nat.le_add_right _ _) (by omega)

/-- The bytes are copied to a new chunk, and the old one is given back. -/
theorem move_ok {v : UInt64} {m₁ : Machine} {A₁ : Arena} {e : Chunk} (member : c ∈ A.live) (more : c.req_size < n)
    (served : Served s₀ sections start others A (n + 32) n m v m₁ A₁ e) :
    ∃ m₂ m₃ A₃ chunks, liballoc_memcpy v (UInt64.ofNat c.user) (UInt64.ofNat c.req_size) m₁ = .ok v m₂ ∧
      kfree (UInt64.ofNat c.user) m₂ = .ok () m₃ ∧ Moved s₀ sections start others A c n m v m₃ A₃ e chunks := by
  have inA₁ : c ∈ A₁.live := served.live.mem_iff.mpr (.tail _ member)
  have newA₁ : e ∈ A₁.live := served.live.mem_iff.mpr (.head _)
  have apart : e.Apart c := apart_of_perm served.live c member
  have source := served.rep.client_spans inA₁
  have target := served.rep.client_spans newA₁
  have stop := user_lt inA₁
  have stopC := c.user_stop
  have lowC := c.user_low
  have stopE := e.user_stop
  have lowE := e.user_low
  have asked := served.asked
  obtain ⟨m₂, run, filled⟩ := liballoc_memcpy_ok (n := c.req_size) served.rep.rest (by omega) source (target.mono le_rfl (by omega))
    (by rw [Chunk.Apart] at apart; omega)
  have rep₂ := served.rep.fill newA₁ filled le_rfl (by omega)
  obtain ⟨m₃, A₃, ran, freed⟩ := kfree_ok rep₂ served.settled inA₁
  -- the chunks that are neither the old one nor the new one
  obtain ⟨before, after, list⟩ := List.append_of_mem member
  have old : A.live.Perm (c :: (before ++ after)) := list ▸ List.perm_middle
  have live : A₃.live.Perm (e :: (before ++ after)) := by
    refine List.Perm.cons_inv (a := c) ?_
    calc c :: A₃.live
      _ |>.Perm A₁.live := freed.live.symm
      _ |>.Perm (e :: A.live) := served.live
      _ |>.Perm (e :: c :: (before ++ after)) := old.cons e
      _ |>.Perm (c :: e :: (before ++ after)) := .swap c e _
  have kept : ∀ d ∈ before ++ after, ∀ x, d.user ≤ x → x < d.user + d.req_size → bytes m₃ x = bytes m x := by
    intro d there x above below
    have inA : d ∈ A.live := old.mem_iff.mpr (.tail _ there)
    rw [freed.kept.bytes d (live.mem_iff.mpr (.tail _ there)) x above below,
      filled.elsewhere (c := e) le_rfl (by omega) (apart_of_perm served.live d inA) above below, served.kept.bytes d inA x above below]
  refine ⟨m₂, m₃, A₃, before ++ after, by rw [served.pointer]; exact run, ran, served.pointer, asked, old, live, freed.settled, freed.rep,
    (served.kept.toSameCounts.trans filled.counts).trans freed.kept.toSameCounts, kept, fun i below _ => ?_⟩
  rw [freed.kept.bytes e (live.mem_iff.mpr (.head _)) _ (Nat.le_add_right _ _) (by omega), filled.inside i below,
    served.kept.bytes c member _ (Nat.le_add_right _ _) (by omega)]

/-- `krealloc` of a live pointer to a size that is not zero. -/
theorem krealloc_post (rep : Represents s₀ sections start others m A) (settled : A.Settled) (member : c ∈ A.live) (some : 0 < n)
    (small : Small (n + 32)) :
    Post (fun v m' => ∃ A' e chunks, Moved s₀ sections start others A c n m v m' A' e chunks) (OutOfMemory s₀ sections)
      (krealloc (UInt64.ofNat c.user) (UInt64.ofNat n) m) := by
  obtain ⟨nonzero, unaligned, min, magic, req_size⟩ := record_ok rep member
  have stop := user_lt member
  have stopC := c.user_stop
  have fits : c.req_size < 2 ^ 32 := by
    obtain ⟨xs, b, ys, cs, ds, list, split⟩ := split_of_live member
    have field : Field.In ⟨c.place + 32, 4, c.req_size⟩ (bytes m) := (rep.block list).minorField split (by simp [minorFields])
    have := field.fits
    norm_num [Field.Fits] at this
    omega
  rw [Small] at small
  have size : UInt64.ofNat n ≠ 0 := by
    intro zero
    have value := congrArg UInt64.toNat zero
    rw [toNat_ofNat64 (by omega), UInt64.toNat_zero] at value
    omega
  have enough : (UInt32.ofNat c.req_size).toUInt64 ≥ UInt64.ofNat n ↔ n ≤ c.req_size := by
    rw [toUInt64_ofNat32 fits, ge_iff_le, UInt64.le_iff_toNat_le, toNat_ofNat64 (by omega), toNat_ofNat64 (by omega)]
  rw [krealloc, if_neg size, if_neg nonzero, bind_ok unaligned]
  simp only [min, minor_magic_ofNat, minor_req_size_ofNat]
  rw [bind_ok magic, if_neg (not_not_intro rfl), bind_ok req_size]
  by_cases less : n ≤ c.req_size
  · obtain ⟨m', A', e, chunks, run, moved⟩ := shrink_ok rep settled member less
    rw [if_pos (enough.mpr less), bind_ok run]
    exact ⟨A', e, chunks, moved⟩
  · rw [if_neg (mt enough.mp less)]
    apply post_bind
    refine (kmalloc_post rep settled small).mono ?_ fun _ _ stopped => stopped
    rintro v m₁ ⟨A₁, e, served⟩
    obtain ⟨m₂, m₃, A₃, chunks, copied, ran, moved⟩ := move_ok member (by omega) served
    rw [toUInt64_ofNat32 fits, bind_ok copied, bind_ok ran]
    exact ⟨A₃, e, chunks, moved⟩

end

end Extron.Liballoc
