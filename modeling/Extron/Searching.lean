import Extron.Placing

/-!
The search for space within one block. CASE 4 walks over the chunks and looks behind
each one; with cases 2 and 3, a block is used wherever a gap of it is large enough.
-/
namespace Extron.Liballoc
open Extron.Vmm Extron.OwnPages Extron.Startup
open Extron.Fields Extron.Chains Extron.Kheap Extron.HeapBytes Extron.Outcomes
set_option linter.unusedSimpArgs false

/-- What the search in a block reports: nothing, with everything as it was, or the
    pointer of a chunk that was put in. -/
inductive Placed (m : Machine) (b : Block) (size req_size : Nat) : Option UInt64 → Machine → Prop
  | full (some : b.chunks ≠ []) : Placed m b size req_size none m
  | put {m' : Machine} {cs ds : List Chunk} {c : Chunk} (split : b.chunks = cs ++ ds) (gap : Gap b.place b.pages cs c ds)
      (sized : c.size = size) (asked : c.req_size = req_size) (put : Put m m' b cs c ds) :
      Placed m b size req_size (some (UInt64.ofNat c.user)) m'

section
variable {s₀ : State} {sections : List Multiboot.Elf64Shdr} {m : Machine} {b : Block} {l : Chunk} {cs ds : List Chunk}
  {prev next size req_size : Nat}

/-- Behind a distance there is room for a record and `size` bytes. -/
theorem ge_ofNat {distance : UInt64} {n : Nat} (value : distance.toNat = n) (small : size + 40 < 2 ^ 64) :
    distance ≥ UInt64.ofNat size + sizeof_minor ↔ size + 40 ≤ n := by
  rw [ge_iff_le, add_sizeof_minor, UInt64.le_iff_toNat_le, toNat_ofNat64 small, value]

theorem lt_ofNat {distance : UInt64} {n : Nat} (value : distance.toNat = n) (small : size + 40 < 2 ^ 64) :
    distance < UInt64.ofNat size + sizeof_minor ↔ n < size + 40 := by
  rw [add_sizeof_minor, UInt64.lt_iff_toNat_lt, toNat_ofNat64 small, value]

/-- The distance from the end of a chunk to an address behind it. -/
theorem toNat_behind (target : Nat) {v : UInt64} (le : l.stop ≤ target) (small : target < 2 ^ 64) (size : l.size < 2 ^ 32)
    (value : v = UInt64.ofNat target) :
    (v - UInt64.ofNat l.place - sizeof_minor - (UInt32.ofNat l.size).toUInt64).toNat = target - l.stop := by
  have forty : sizeof_minor = UInt64.ofNat 40 := rfl
  rw [Chunk.stop] at le ⊢
  rw [value, toUInt64_ofNat32 size, forty, sub_ofNat (by omega) small, sub_ofNat (by omega) (by omega),
    sub_ofNat (by omega) (by omega), toNat_ofNat64 (by omega)]
  omega

theorem within_ok (rest : AtRest s₀ sections m.kernel) (here : BlockAt (bytes m) b prev next)
    (spans : Spans (bytes m) b.place b.stop) (fits : req_size + 32 ≤ size) (small : size + 40 < 2 ^ 64)
    {rounds : Nat} (enough : ds.length + 1 < rounds) (split : b.chunks = cs ++ l :: ds) :
    ∃ r m', kmalloc.within (UInt64.ofNat b.place) (UInt64.ofNat size) (UInt64.ofNat req_size) rounds (UInt64.ofNat l.place) m =
      .ok r m' ∧ Placed m b size req_size r m' := by
  induction ds generalizing cs l rounds with
  | nil =>
    obtain ⟨rounds, rfl⟩ : ∃ k, rounds = k + 2 := ⟨rounds - 2, by simp at enough; omega⟩
    obtain ⟨low, high⟩ := b.tidy.inside l (by rw [split]; simp)
    have bound := b.stop_lt
    rw [← Block.stop] at high
    have inStop : l.place < l.stop := by
      rw [Chunk.stop]
      omega
    have nonzero : UInt64.ofNat l.place ≠ NULL := by
      rw [ne_eq, ofNat_eq_NULL (by omega)]
      omega
    have link : Field.In ⟨l.place + 8, 8, 0⟩ (bytes m) := here.minorField split (by simp [minorFields])
    have sizeField : Field.In ⟨l.place + 28, 4, l.size⟩ (bytes m) := here.minorField split (by simp [minorFields])
    have total : Field.In ⟨b.place + 20, 4, 4096 * b.pages⟩ (bytes m) := here.record _ (by simp [majorFields])
    have lSmall : l.size < 2 ^ 32 := by
      have := sizeField.fits
      norm_num [Field.Fits] at this
      omega
    have stop : UInt64.ofNat b.place + (UInt32.ofNat (4096 * b.pages)).toUInt64 = UInt64.ofNat b.stop := by
      rw [toUInt64_ofNat32 b.tidy.small, ← UInt64.ofNat_add]
      rfl
    have distance := toNat_behind b.stop high (by omega) lSmall rfl
    have none : UInt64.ofNat 0 = NULL := rfl
    rw [kmalloc.within, if_neg nonzero, minor_next_ofNat, bind_ok ((Wrote.refl m).load64 link)]
    simp only [none, if_true, major_size_ofNat, minor_size_ofNat]
    rw [bind_ok ((Wrote.refl m).load32 total), bind_ok ((Wrote.refl m).load32 sizeField), stop]
    by_cases room : size + 40 ≤ b.stop - l.stop
    · have split' : b.chunks = (cs ++ [l]) ++ [] := by rw [split, List.append_nil]
      have gap : Gap b.place b.pages (cs ++ [l]) ⟨l.stop, size, req_size, fits⟩ [] := by
        refine ⟨?_, by simp, by simp, ?_⟩
        · show b.place + 40 ≤ l.stop
          omega
        · show l.stop + 40 + size ≤ b.stop
          omega
      obtain ⟨m', run, put⟩ := at_end_ok rest here spans split' gap rfl
      rw [if_pos ((ge_ofNat distance small).mpr room), bind_ok run]
      exact ⟨_, m', rfl, .put split' gap rfl rfl put⟩
    · rw [if_neg (mt (ge_ofNat distance small).mp room), kmalloc.within, if_pos rfl]
      exact ⟨_, m, rfl, .full (by rw [split]; simp)⟩
  | cons r others ih =>
    obtain ⟨rounds, rfl⟩ : ∃ k, rounds = k + 1 := ⟨rounds - 1, by simp at enough; omega⟩
    have inside := b.tidy.inside
    have tidy := b.tidy
    rw [split] at tidy
    obtain ⟨low, high⟩ := b.tidy.inside l (by rw [split]; simp)
    obtain ⟨_, highNext⟩ := b.tidy.inside r (by rw [split]; simp)
    have before : l.stop ≤ r.place := (List.pairwise_cons.mp (List.pairwise_append.mp tidy.order).2.1).1 r (.head _)
    have bound := b.stop_lt
    rw [← Block.stop] at high highNext
    have inStop : l.place < l.stop := by
      rw [Chunk.stop]
      omega
    have inStopNext : r.place < r.stop := by
      rw [Chunk.stop]
      omega
    have nonzero : UInt64.ofNat l.place ≠ NULL := by
      rw [ne_eq, ofNat_eq_NULL (by omega)]
      omega
    have some : UInt64.ofNat r.place ≠ NULL := by
      rw [ne_eq, ofNat_eq_NULL (by omega)]
      omega
    have link : Field.In ⟨l.place + 8, 8, r.place⟩ (bytes m) := here.minorField split (by simp [minorFields])
    have sizeField : Field.In ⟨l.place + 28, 4, l.size⟩ (bytes m) := here.minorField split (by simp [minorFields])
    have lSmall : l.size < 2 ^ 32 := by
      have := sizeField.fits
      norm_num [Field.Fits] at this
      omega
    have distance := toNat_behind r.place before (by omega) lSmall rfl
    have split' : b.chunks = (cs ++ [l]) ++ r :: others := by rw [split, List.append_assoc]; rfl
    rw [kmalloc.within, if_neg nonzero, minor_next_ofNat, bind_ok ((Wrote.refl m).load64 link)]
    simp only [if_neg some, minor_size_ofNat]
    rw [bind_ok ((Wrote.refl m).load32 sizeField)]
    by_cases room : size + 40 ≤ r.place - l.stop
    · have gap : Gap b.place b.pages (cs ++ [l]) ⟨l.stop, size, req_size, fits⟩ (r :: others) := by
        refine ⟨?_, by simp, ?_, ?_⟩
        · show b.place + 40 ≤ l.stop
          omega
        · intro d head
          simp only [List.head?_cons, Option.mem_def, Option.some.injEq] at head
          rw [← head]
          show l.stop + 40 + size ≤ r.place
          omega
        · show l.stop + 40 + size ≤ b.stop
          omega
      obtain ⟨m', run, put⟩ := between_ok rest here spans split' gap rfl
      rw [if_pos ((ge_ofNat distance small).mpr room), bind_ok run]
      exact ⟨_, m', rfl, .put split' gap rfl rfl put⟩
    · rw [if_neg (mt (ge_ofNat distance small).mp room)]
      exact ih (by simp at enough; omega) split'

/-- Cases 2 to 4 put a chunk into the block or leave everything as it is; an empty block
    takes any chunk that fits into it. -/
theorem place_ok (rest : AtRest s₀ sections m.kernel) (here : BlockAt (bytes m) b prev next)
    (spans : Spans (bytes m) b.place b.stop) (fits : req_size + 32 ≤ size) (small : size + 40 < 2 ^ 64)
    (room : b.chunks = [] → 40 + (40 + size) ≤ 4096 * b.pages) :
    ∃ r m', kmalloc.place (UInt64.ofNat b.place) (UInt64.ofNat size) (UInt64.ofNat req_size) m = .ok r m' ∧
      Placed m b size req_size r m' := by
  have bound := b.stop_lt
  have front : Field.In ⟨b.place + 32, 8, first Chunk.place b.chunks 0⟩ (bytes m) := here.record _ (by simp [majorFields])
  rw [kmalloc.place, major_first_ofNat, bind_ok ((Wrote.refl m).load64 front)]
  cases list : b.chunks with
  | nil =>
    have gap : Gap b.place b.pages [] ⟨b.place + 40, size, req_size, fits⟩ [] := by
      refine ⟨le_rfl, by simp, by simp, ?_⟩
      have := room list
      show b.place + 40 + 40 + size ≤ b.place + 4096 * b.pages
      omega
    obtain ⟨m', run, put⟩ := brand_new_ok rest here spans list gap rfl
    have none : UInt64.ofNat 0 = NULL := rfl
    rw [first_nil, if_pos none, bind_ok run]
    exact ⟨_, m', rfl, .put list gap rfl rfl put⟩
  | cons r others =>
    obtain ⟨low, high⟩ := b.tidy.inside r (by rw [list]; simp)
    rw [← Block.stop, Chunk.stop] at high
    have some : UInt64.ofNat r.place ≠ NULL := by
      rw [ne_eq, ofNat_eq_NULL (by omega)]
      omega
    have distance : (UInt64.ofNat r.place - UInt64.ofNat b.place - sizeof_major).toNat = r.place - (b.place + 40) := by
      have forty : sizeof_major = UInt64.ofNat 40 := rfl
      rw [forty, sub_ofNat (by omega) (by omega), sub_ofNat (by omega) (by omega), toNat_ofNat64 (by omega)]
      omega
    rw [first_cons, if_neg some]
    by_cases space : size + 40 ≤ r.place - (b.place + 40)
    · have gap : Gap b.place b.pages [] ⟨b.place + 40, size, req_size, fits⟩ (r :: others) := by
        refine ⟨le_rfl, by simp, ?_, ?_⟩
        · intro d head
          simp only [List.head?_cons, Option.mem_def, Option.some.injEq] at head
          rw [← head]
          show b.place + 40 + 40 + size ≤ r.place
          omega
        · show b.place + 40 + 40 + size ≤ b.place + 4096 * b.pages
          rw [Block.stop] at high
          omega
      obtain ⟨m', run, put⟩ := squeeze_ok rest here spans list gap rfl
      rw [if_pos ((ge_ofNat distance small).mpr space), bind_ok run]
      exact ⟨_, m', rfl, .put list gap rfl rfl put⟩
    · rw [if_neg (mt (ge_ofNat distance small).mp space)]
      refine within_ok rest here spans fits small ?_ (show b.chunks = [] ++ r :: others from list)
      have count := length_le_taken b.chunks
      have usage := b.usage_le
      have pages := b.tidy.small
      rw [Block.usage] at usage
      rw [list, List.length_cons] at count
      rw [list] at usage
      rw [Multiboot.addresses]
      omega

end

end Extron.Liballoc
