import Extron.Kmalloc

/-!
`kfree`. The byte before the client's memory leads back to the record of the chunk,
and the record to its block. The chunk is taken out of the block; when it was the last
one, the block is unlinked and its pages go back to the page allocator.
-/
namespace Extron.Liballoc
open Extron.Multiboot Extron.Pmm Extron.Regions Extron.Vmm Extron.OwnPages Extron.Startup Extron.Heap
open Extron.Fields Extron.Chains Extron.HeapBytes Extron.Outcomes Extron.Kheap
set_option linter.unusedSimpArgs false

/-! ## From the pointer to the record -/

/-- A byte without its sign bit is the same number as a `char`. -/
theorem toNat_char {b : UInt8} (small : b.toNat < 128) : b.toInt8.toInt64.toUInt64.toNat = b.toNat := by
  show (b.toBitVec.signExtend 64).toNat = b.toNat
  have positive : b.toBitVec.msb = false := by
    rw [BitVec.msb_eq_false_iff_two_mul_lt]
    show 2 * b.toNat < 2 ^ 8
    omega
  rw [BitVec.signExtend_eq_setWidth_of_msb_false positive, BitVec.toNat_setWidth]
  show b.toNat % 2 ^ 64 = b.toNat
  have := b.toNat_lt
  omega

section
variable {s₀ : State} {sections : List Elf64Shdr} {m m' : Machine} {b : Block} {c : Chunk} {cs ds : List Chunk} {ws : List Field}
  {prev next : Nat}

theorem fetch_one {M : Memory} {a w : Nat} (here : Field.In ⟨a, 1, w⟩ M) : ∃ v : UInt8, M a = some v ∧ v.toNat = w := by
  have fetched : fetch M 1 a = some w := here
  rw [fetch] at fetched
  obtain ⟨v, first, rest⟩ := Option.bind_eq_some_iff.mp fetched
  obtain ⟨high, none, total⟩ := Option.bind_eq_some_iff.mp rest
  cases none
  cases total
  exact ⟨v, first, by omega⟩

theorem unalign_ok (here : Field.In ⟨c.user - 16, 1, c.user - (c.place + 40)⟩ (bytes m)) (small : c.place < 2 ^ 64 - 128) :
    UNALIGN (UInt64.ofNat c.user) m = .ok (UInt64.ofNat (c.place + 40)) m := by
  obtain ⟨v, stored, value⟩ := fetch_one here
  have low := c.user_low
  have high := c.user_high
  have before : UInt64.ofNat c.user - ALIGN_INFO = UInt64.ofNat (c.user - 16) := sub_ofNat (k := 16) (by omega) (by omega)
  have diff : v.toInt8.toInt64.toUInt64 = UInt64.ofNat (c.user - (c.place + 40)) := by
    apply UInt64.toNat_inj.mp
    rw [toNat_char (by omega), value, toNat_ofNat64 (by omega)]
  have near : UInt64.ofNat (c.user - (c.place + 40)) < ALIGNMENT + ALIGN_INFO := by
    rw [UInt64.lt_iff_toNat_lt, toNat_ofNat64 (by omega)]
    show c.user - (c.place + 40) < 32
    omega
  rw [UNALIGN, before, bind_ok (load8_ok stored)]
  simp only [diff, if_pos near, run_pure]
  rw [sub_ofNat (by omega) (by omega)]
  congr 2
  omega

/-! ## Taking a chunk out -/

/-- `kfree` has taken the chunk out of the block. -/
structure Cut (m m' : Machine) (b : Block) (cs : List Chunk) (c : Chunk) (ds : List Chunk) : Prop where
  same : m' = { m with ram := m'.ram, l_inuse := m.l_inuse - UInt64.ofNat c.size }
  written : Written (removeFields b cs c ds) (bytes m) (bytes m')

/-- The bounds that a chunk of a block and its neighbours keep. -/
structure Around (b : Block) (cs : List Chunk) (c : Chunk) (ds : List Chunk) : Prop where
  low : b.place + 40 ≤ c.place
  high : c.place + 40 + c.size ≤ b.stop
  stop : b.stop < 2 ^ 64 - 2 ^ 32
  positive : 0 < b.place
  fits : c.req_size + 32 ≤ c.size
  left : ∀ others l, cs = others ++ [l] → b.place + 40 ≤ l.place ∧ l.place + 72 ≤ c.place
  right : ∀ r others, ds = r :: others → c.place + 40 + c.size ≤ r.place ∧ r.place + 72 ≤ b.stop

theorem around (split : b.chunks = cs ++ c :: ds) : Around b cs c ds := by
  obtain ⟨lefts, rights, _, low, high⟩ := sides_of_split split
  refine ⟨low, high, b.stop_lt, b.place_pos, c.fits, ?_, ?_⟩
  · rintro others l rfl
    obtain ⟨first, last⟩ := lefts l (by simp)
    have := l.fits
    rw [Chunk.stop] at last
    omega
  · rintro r others rfl
    obtain ⟨_, first⟩ := rights r (by simp)
    have inside := (b.chunk_inside (c := r) (by rw [split]; simp)).2
    have := r.fits
    rw [Chunk.stop] at first inside
    omega

/-- A place of a chunk of a block, or of nothing. -/
theorem Around.last_lt (around : Around b cs c ds) : last Chunk.place 0 cs < c.place := by
  have := around.low
  have := around.positive
  rcases List.eq_nil_or_concat' cs with rfl | ⟨others, l, rfl⟩
  · rw [last_nil]
    omega
  · have := around.left others l rfl
    rw [last_concat]
    omega

theorem Around.first_lt (around : Around b cs c ds) : first Chunk.place ds 0 < b.stop := by
  have := around.low
  have := around.high
  cases ds with
  | nil =>
    rw [first_nil]
    omega
  | cons r others =>
    have := around.right r others rfl
    rw [first_cons]
    omega

theorem removeFields_fit (split : b.chunks = cs ++ c :: ds) : ∀ f ∈ removeFields b cs c ds, f.Fits := by
  have bounds := around split
  have stop := bounds.stop
  have lastBound := bounds.last_lt
  have firstBound := bounds.first_lt
  have high := bounds.high
  have usage := b.usage_le
  have small := b.tidy.small
  intro f member
  rw [Field.Fits]
  simp only [removeFields, List.mem_cons] at member
  rcases member with rfl | rfl | rfl | right
  · norm_num
    omega
  · exact lt_of_lt_of_eq LIBALLOC_DEAD.toNat_lt (by norm_num)
  · rcases leftLink_cases b.place cs (first Chunk.place ds 0) with ⟨_, link⟩ | ⟨_, _, _, link⟩
    · rw [link]
      norm_num
      omega
    · rw [link]
      norm_num
      omega
  · obtain ⟨r, _, rfl⟩ := mem_rightLink.mp right
    norm_num
    omega

/-- The link to what comes after a chunk, by its own record. -/
theorem unlink_left (rest : AtRest s₀ sections m.kernel) (here : BlockAt (bytes m) b prev next)
    (spans : Spans (bytes m) b.place b.stop) (split : b.chunks = cs ++ c :: ds) (wrote : Wrote ws m m')
    (clear : ∀ f ∈ ws, f.at_ + f.width ≤ c.place ∨ c.place + 16 ≤ f.at_) :
    ∃ m'', (do
        let prev ← load64 (UInt64.ofNat c.place)
        if prev ≠ NULL then
          store64 (Minor.next prev) (← load64 (UInt64.ofNat (c.place + 8)))
        let prev ← load64 (UInt64.ofNat c.place)
        if prev = NULL then
          store64 (Major.first (UInt64.ofNat b.place)) (← load64 (UInt64.ofNat (c.place + 8))) : Alloc Unit) m' = .ok () m'' ∧
      Wrote (ws ++ [leftLink b.place cs (first Chunk.place ds 0)]) m m'' := by
  have bounds := around split
  have firstBound := bounds.first_lt
  obtain ⟨low, high, stop, positive, fits, left, _⟩ := bounds
  have nextField : Field.In ⟨c.place + 8, 8, first Chunk.place ds 0⟩ (bytes m) := here.minorField split (by simp [minorFields])
  have prevField : Field.In ⟨c.place, 8, last Chunk.place 0 cs⟩ (bytes m) := here.minorField split (by simp [minorFields])
  have apartNext : ∀ f ∈ ws, f.Apart ⟨c.place + 8, 8, first Chunk.place ds 0⟩ := by
    intro f member
    have := clear f member
    rw [Field.Apart]
    simp only []
    omega
  have apartPrev : ∀ f ∈ ws, f.Apart ⟨c.place, 8, last Chunk.place 0 cs⟩ := by
    intro f member
    have := clear f member
    rw [Field.Apart]
    simp only []
    omega
  rw [bind_ok (wrote.load64 (prevField.stores apartPrev))]
  rcases List.eq_nil_or_concat' cs with rfl | ⟨others, l, rfl⟩
  · obtain ⟨m₁, run, w₁⟩ := wrote.store64 (a := b.place + 32) rest (spans.mono (by omega) (by omega))
      (toNat_ofNat64 (n := first Chunk.place ds 0) (by omega))
    have none : UInt64.ofNat 0 = NULL := rfl
    simp only [last_nil, none, ne_eq, not_true_eq_false, if_false]
    rw [bind_ok (wrote.load64 (prevField.stores apartPrev))]
    simp only [last_nil, none, if_true, major_first_ofNat]
    rw [bind_ok (wrote.load64 (nextField.stores apartNext)), run]
    exact ⟨m₁, rfl, w₁⟩
  · obtain ⟨lLow, lHigh⟩ := left others l rfl
    have nonzero : UInt64.ofNat l.place ≠ NULL := by
      rw [ne_eq, ofNat_eq_NULL (by omega)]
      omega
    have link : leftLink b.place (others ++ [l]) (first Chunk.place ds 0) = ⟨l.place + 8, 8, first Chunk.place ds 0⟩ := by
      simp [leftLink]
    rw [last_concat] at prevField
    obtain ⟨m₁, run, w₁⟩ := wrote.store64 (a := l.place + 8) rest (spans.mono (by omega) (by omega))
      (toNat_ofNat64 (n := first Chunk.place ds 0) (by omega))
    simp only [last_concat, ne_eq, nonzero, not_false_eq_true, if_true, minor_next_ofNat]
    rw [bind_ok (wrote.load64 (nextField.stores apartNext)), bind_ok run, bind_ok (w₁.load64 (prevField.stores fun f member => ?_)),
      if_neg nonzero, link]
    · exact ⟨m₁, rfl, w₁⟩
    · rcases List.mem_append.mp member with earlier | here
      · exact apartPrev f earlier
      · rw [List.mem_singleton.mp here, Field.Apart]
        simp only []
        omega

/-- The links around a chunk. -/
theorem unlink_minor_ok (rest : AtRest s₀ sections m.kernel) (here : BlockAt (bytes m) b prev next)
    (spans : Spans (bytes m) b.place b.stop) (split : b.chunks = cs ++ c :: ds) (wrote : Wrote ws m m')
    (clear : ∀ f ∈ ws, f.at_ + f.width ≤ c.place ∨ c.place + 16 ≤ f.at_) :
    ∃ m'', kfree.unlink_minor (UInt64.ofNat b.place) (UInt64.ofNat c.place) m' = .ok () m'' ∧
      Wrote (ws ++ rightLink ds (last Chunk.place 0 cs) ++ [leftLink b.place cs (first Chunk.place ds 0)]) m m'' := by
  have bounds := around split
  have lastBound := bounds.last_lt
  obtain ⟨low, high, stop, positive, fits, _, right⟩ := bounds
  have nextField : Field.In ⟨c.place + 8, 8, first Chunk.place ds 0⟩ (bytes m) := here.minorField split (by simp [minorFields])
  have prevField : Field.In ⟨c.place, 8, last Chunk.place 0 cs⟩ (bytes m) := here.minorField split (by simp [minorFields])
  have loaded : load64 (UInt64.ofNat (c.place + 8)) m' = .ok (UInt64.ofNat (first Chunk.place ds 0)) m' := by
    refine wrote.load64 (nextField.stores fun f member => ?_)
    have := clear f member
    rw [Field.Apart]
    simp only []
    omega
  have back : load64 (UInt64.ofNat c.place) m' = .ok (UInt64.ofNat (last Chunk.place 0 cs)) m' := by
    refine wrote.load64 (prevField.stores fun f member => ?_)
    have := clear f member
    rw [Field.Apart]
    simp only []
    omega
  rw [kfree.unlink_minor]
  simp only [minor_next_ofNat, minor_prev_ofNat]
  rw [bind_ok loaded]
  cases ds with
  | nil =>
    have none : ¬ UInt64.ofNat 0 ≠ NULL := fun bad => bad rfl
    rw [first_nil, if_neg none, rightLink, List.head?_nil, List.append_nil]
    exact unlink_left rest here spans split wrote clear
  | cons r others =>
    obtain ⟨rLow, rHigh⟩ := right r others rfl
    have nonzero : UInt64.ofNat r.place ≠ NULL := by
      rw [ne_eq, ofNat_eq_NULL (by omega)]
      omega
    have link : rightLink (r :: others) (last Chunk.place 0 cs) = [⟨r.place, 8, last Chunk.place 0 cs⟩] := rfl
    obtain ⟨m₁, run, w₁⟩ := wrote.store64 (a := r.place) rest (spans.mono (by omega) (by omega))
      (toNat_ofNat64 (n := last Chunk.place 0 cs) (by omega))
    rw [first_cons, if_pos nonzero, bind_ok back, minor_prev_ofNat, bind_ok run, link]
    refine unlink_left rest here spans split w₁ fun f member => ?_
    rcases List.mem_append.mp member with earlier | here
    · exact clear f earlier
    · rw [List.mem_singleton.mp here]
      simp only []
      omega

/-- The stores of `kfree`, and where it goes from there. -/
theorem release_ok (rest : AtRest s₀ sections m.kernel) (here : BlockAt (bytes m) b prev next)
    (spans : Spans (bytes m) b.place b.stop) (split : b.chunks = cs ++ c :: ds) :
    ∃ m', Cut m m' b cs c ds ∧
      (cs ++ ds = [] → kfree.release (UInt64.ofNat c.place) m = kfree.drop_major (UInt64.ofNat b.place) m') ∧
      (cs ++ ds ≠ [] → kfree.release (UInt64.ofNat c.place) m = kfree.rebet (UInt64.ofNat b.place) m') := by
  have bounds := around split
  obtain ⟨low, high, stop, positive, fits, _, _⟩ := bounds
  have usage := usage_remove split
  have least : 40 ≤ (b.remove split).usage := by
    rw [Block.usage]
    omega
  have most := b.usage_le
  have small := b.tidy.small
  have blockField : Field.In ⟨c.place + 16, 8, b.place⟩ (bytes m) := here.minorField split (by simp [minorFields])
  have sizeField : Field.In ⟨c.place + 28, 4, c.size⟩ (bytes m) := here.minorField split (by simp [minorFields])
  have forty : sizeof_minor = UInt64.ofNat 40 := rfl
  have less : ((UInt32.ofNat b.usage).toUInt64 - (UInt64.ofNat c.size + sizeof_minor)).toUInt32.toNat = b.usage - (40 + c.size) := by
    rw [toUInt64_ofNat32 (by omega), add_sizeof_minor, sub_ofNat (by omega) (by omega), toNat_toUInt32 (by omega)]
    omega
  rw [kfree.release, minor_block_ofNat, bind_ok (load64_ok blockField), minor_size_ofNat, bind_ok (load32_ok sizeField),
    modify_bind, toUInt64_ofNat32 (by omega), major_usage_ofNat]
  have rest₀ : AtRest s₀ sections ({ m with l_inuse := m.l_inuse - UInt64.ofNat c.size } : Machine).kernel := rest
  have here₀ : BlockAt (bytes { m with l_inuse := m.l_inuse - UInt64.ofNat c.size }) b prev next := here
  have spans₀ : Spans (bytes { m with l_inuse := m.l_inuse - UInt64.ofNat c.size }) b.place b.stop := spans
  rw [bind_ok (load32_ok here₀.usageField)]
  obtain ⟨m₁, run, w₁⟩ := (Wrote.refl _).store32 (a := b.place + 24) rest₀ (spans₀.mono (by omega) (by omega)) less
  rw [bind_ok run, minor_magic_ofNat]
  obtain ⟨m₂, run, w₂⟩ := w₁.store32 (a := c.place + 24) (v := LIBALLOC_DEAD) rest₀ (spans₀.mono (by omega) (by omega)) rfl
  rw [bind_ok run]
  obtain ⟨m₃, run, w₃⟩ := unlink_minor_ok rest₀ here₀ spans₀ split w₂ (by simp; omega)
  rw [bind_ok run]
  have written : Written (removeFields b cs c ds) (bytes m) (bytes m₃) := by
    have before : bytes { m with l_inuse := m.l_inuse - UInt64.ofNat c.size } = bytes m := rfl
    rw [w₃.bytes, before]
    refine written_stores (separate_removeFields split) (removeFields_fit split) fun f => ?_
    simp only [removeFields, List.nil_append, List.mem_append, List.mem_cons, List.not_mem_nil, or_false, false_or]
    tauto
  have front : Field.In ⟨b.place + 32, 8, first Chunk.place (cs ++ ds) 0⟩ (bytes m₃) :=
    (here.remove split written).record _ (by simp [majorFields, Block.remove])
  refine ⟨m₃, ⟨w₃.same, written⟩, fun none => ?_, fun some => ?_⟩
  · rw [none, first_nil] at front
    rw [major_first_ofNat, bind_ok (load64_ok front)]
    rfl
  · obtain ⟨d, others, list⟩ := List.exists_cons_of_ne_nil some
    have there : d ∈ cs ++ ds := by rw [list]; simp
    have inside := (b.remove split).chunk_inside (show d ∈ (b.remove split).chunks from there)
    have edge : (b.remove split).stop = b.stop := rfl
    have last := d.fits
    rw [Chunk.stop, b.place_remove split, edge] at inside
    have nonzero : UInt64.ofNat d.place ≠ NULL := by
      rw [ne_eq, ofNat_eq_NULL (by omega)]
      omega
    rw [list, first_cons] at front
    rw [major_first_ofNat, bind_ok (load64_ok front), if_neg nonzero]

end

/-! ## The arena -/

section
variable {s₀ start : State} {sections : List Elf64Shdr} {others : Set UInt64} {m m' : Machine} {A : Arena} {b d : Block}
  {xs ys : List Block} {c : Chunk} {cs ds : List Chunk}

theorem live_remove (list : A.blocks = xs ++ b :: ys) (split : b.chunks = cs ++ c :: ds) :
    A.live.Perm (c :: (A.replace list (b.place_remove split) (b.pages_remove split)).live) := by
  rw [live_replace, Arena.live_split list, split]
  show List.Perm _ (c :: (xs.flatMap Block.chunks ++ ((cs ++ ds) ++ ys.flatMap Block.chunks)))
  rw [List.append_assoc, List.append_assoc, List.cons_append, ← List.append_assoc, ← List.append_assoc]
  exact List.perm_middle

/-- A chunk was taken out of a block of the arena. -/
theorem Represents.cut (rep : Represents s₀ sections start others m A) (list : A.blocks = xs ++ b :: ys) (split : b.chunks = cs ++ c :: ds)
    (cut : Cut m m' b cs c ds) :
    Represents s₀ sections start others m' (A.replace list (b.place_remove split) (b.pages_remove split)) ∧ Kept A m m' := by
  obtain ⟨outside, clients⟩ := kept_of_heads (d := b) cut.written (inHeads_remove split) list rfl rfl fun _ member => member
  have same := cut.same
  constructor
  · refine rep.replace list (b.place_remove split) (b.pages_remove split) ?_ outside (fun p q here => here.remove split cut.written) ?_
      (.inl ?_) ?_ ?_
    · rw [same]
    · rw [same]
    · rw [same]
    · rw [same]
    · rw [same, rep.inuse, used_cons (live_remove list split), UInt64.ofNat_add]
      show UInt64.ofNat c.size + _ - UInt64.ofNat c.size = _
      rw [UInt64.add_comm, UInt64.add_sub_cancel]
  · refine ⟨⟨?_, ?_, ?_⟩, fun e member x low high => clients e member x low ?_⟩
    · rw [same]
    · rw [same]
    · rw [same]
    · have := e.user_stop
      omega

/-- What is left of the block may be the new best bet. -/
theorem rebet_ok (rep : Represents s₀ sections start others m A) (member : b ∈ A.blocks) :
    ∃ bet, kfree.rebet (UInt64.ofNat b.place) m = .ok () { m with l_bestBet := bet } ∧
      Represents s₀ sections start others { m with l_bestBet := bet } A := by
  have fields : ∀ d ∈ A.blocks, Field.In ⟨d.place + 20, 4, 4096 * d.pages⟩ (bytes m) ∧ Field.In ⟨d.place + 24, 4, d.usage⟩ (bytes m) := by
    intro d there
    obtain ⟨xs, ys, list⟩ := List.append_of_mem there
    have here := rep.block list
    exact ⟨here.record _ (by simp [majorFields]), here.usageField⟩
  obtain ⟨total, used⟩ := fields b member
  rw [kfree.rebet, get_bind]
  by_cases none : m.l_bestBet = NULL
  · rw [if_neg (not_not_intro none)]
    exact ⟨m.l_bestBet, rfl, rep⟩
  · obtain ⟨d, there, bet⟩ := rep.bet.resolve_left none
    obtain ⟨total', used'⟩ := fields d there
    rw [if_pos none, bet]
    simp only [major_size_ofNat, major_usage_ofNat]
    rw [bind_ok (load32_ok total'), bind_ok (load32_ok used'), bind_ok (load32_ok total), bind_ok (load32_ok used)]
    split
    · exact ⟨UInt64.ofNat b.place, rfl, rep.rebet (.inr ⟨b, member, rfl⟩)⟩
    · exact ⟨m.l_bestBet, rfl, rep⟩

end

/-! ## Giving a block back -/

/-- The link of the last of the blocks to what comes after it. -/
def leftBlock (xs : List Block) (target : Nat) : List Field :=
  match xs.getLast? with
  | none => []
  | some l => [⟨l.place + 8, 8, target⟩]

/-- The link of the first of the blocks to what comes before it. -/
def rightBlock (ys : List Block) (target : Nat) : List Field :=
  match ys.head? with
  | none => []
  | some r => [⟨r.place, 8, target⟩]

/-- What is stored to take a block out of the list. -/
def dropFields (xs ys : List Block) : List Field :=
  leftBlock xs (first Block.place ys 0) ++ rightBlock ys (last Block.place 0 xs)

/-- The arena without one block. -/
def Arena.drop (A : Arena) {xs ys : List Block} {b : Block} (list : A.blocks = xs ++ b :: ys) : Arena where
  blocks := xs ++ ys
  apart := by
    have apart := A.apart
    rw [list] at apart
    exact apart.sublist (List.Sublist.append_left (List.sublist_cons_self b ys) xs)

section
variable {s₀ start : State} {sections : List Elf64Shdr} {others : Set UInt64} {m m' : Machine} {A : Arena} {b d : Block}
  {xs ys : List Block} {f : Field} {target : Nat} {ws : List Field}

theorem mem_leftBlock : f ∈ leftBlock xs target ↔ ∃ l, xs.getLast? = some l ∧ f = ⟨l.place + 8, 8, target⟩ := by
  rcases List.eq_nil_or_concat' xs with rfl | ⟨others, l, rfl⟩ <;> simp [leftBlock]

theorem mem_rightBlock : f ∈ rightBlock ys target ↔ ∃ r, ys.head? = some r ∧ f = ⟨r.place, 8, target⟩ := by
  cases ys <;> simp [rightBlock]

/-- The links lie in the records of other blocks. -/
theorem dropFields_in (member : f ∈ dropFields xs ys) : ∃ d ∈ xs ++ ys, d.place ≤ f.at_ ∧ f.at_ + f.width ≤ d.place + 16 := by
  rcases List.mem_append.mp member with left | right
  · obtain ⟨l, last, rfl⟩ := mem_leftBlock.mp left
    refine ⟨l, List.mem_append_left _ (List.mem_of_getLast? last), ?_⟩
    simp only []
    omega
  · obtain ⟨r, head, rfl⟩ := mem_rightBlock.mp right
    refine ⟨r, List.mem_append_right _ (List.mem_of_head? head), ?_⟩
    simp only []
    omega

theorem Block.stop_ge (b : Block) : b.place + 4096 ≤ b.stop := by
  have some := b.tidy.some
  rw [Block.stop]
  omega

/-- What lies in the first bytes of one block is out of another. -/
theorem outOf_of_in (apart : d.Apart b) (low : d.place ≤ f.at_) (high : f.at_ + f.width ≤ d.place + 16) : OutOf b f := by
  have := d.stop_ge
  rw [Block.Apart] at apart
  rw [OutOf]
  omega

theorem separate_dropFields (list : A.blocks = xs ++ b :: ys) : Separate (dropFields xs ys) := by
  have apart := A.apart
  rw [list] at apart
  have across := (List.pairwise_append.mp apart).2.2
  refine separate_of_pairwise (List.pairwise_append.mpr ⟨?_, ?_, ?_⟩)
  · rcases List.eq_nil_or_concat' xs with rfl | ⟨others, l, rfl⟩ <;> simp [leftBlock]
  · cases ys <;> simp [rightBlock]
  · intro f left g right
    obtain ⟨l, last, rfl⟩ := mem_leftBlock.mp left
    obtain ⟨r, head, rfl⟩ := mem_rightBlock.mp right
    have apart := across l (List.mem_of_getLast? last) r (.tail _ (List.mem_of_head? head))
    have := l.stop_ge
    have := r.stop_ge
    rw [Block.Apart] at apart
    rw [Field.Apart]
    simp only []
    omega

theorem first_place_lt (ys : List Block) : first Block.place ys 0 < 2 ^ 64 - 2 ^ 32 := by
  cases ys with
  | nil => simp
  | cons r rest =>
    have := r.stop_lt
    have := r.stop_ge
    rw [first_cons]
    omega

theorem last_place_lt (xs : List Block) : last Block.place 0 xs < 2 ^ 64 - 2 ^ 32 := by
  rcases List.eq_nil_or_concat' xs with rfl | ⟨others, l, rfl⟩
  · simp
  · have := l.stop_lt
    have := l.stop_ge
    rw [last_concat]
    omega

theorem dropFields_fit : ∀ f ∈ dropFields xs ys, f.Fits := by
  have := first_place_lt ys
  have := last_place_lt xs
  intro f member
  rw [Field.Fits]
  rcases List.mem_append.mp member with left | right
  · obtain ⟨l, _, rfl⟩ := mem_leftBlock.mp left
    norm_num
    omega
  · obtain ⟨r, _, rfl⟩ := mem_rightBlock.mp right
    norm_num
    omega

/-- The list of records without one of them. -/
theorem records_drop {M M' : Memory} (list : A.blocks = xs ++ b :: ys) (records : Chain Block.place (BlockAt M) 0 A.blocks 0)
    (written : Written (dropFields xs ys) M M') : Chain Block.place (BlockAt M') 0 (xs ++ ys) 0 := by
  have apart := A.apart
  rw [list] at apart records
  obtain ⟨left, right, across⟩ := List.pairwise_append.mp apart
  obtain ⟨_, right⟩ := List.pairwise_cons.mp right
  -- the one link, and the records that neither link lies in
  have linkLeft : ∀ f ∈ leftBlock xs (first Block.place ys 0), ∀ d ∈ ys, OutOf d f := by
    intro f member d there
    obtain ⟨l, last, rfl⟩ := mem_leftBlock.mp member
    refine outOf_of_in (across l (List.mem_of_getLast? last) d (.tail _ there)) ?_ ?_ <;> simp only [] <;> omega
  have linkRight : ∀ f ∈ rightBlock ys (last Block.place 0 xs), ∀ d ∈ xs, OutOf d f := by
    intro f member d there
    obtain ⟨r, head, rfl⟩ := mem_rightBlock.mp member
    refine outOf_of_in (across d there r (.tail _ (List.mem_of_head? head))).symm ?_ ?_ <;> simp only [] <;> omega
  have keep : ∀ d, (∀ f ∈ dropFields xs ys, OutOf d f) → ∀ p q, BlockAt M d p q → BlockAt M' d p q := by
    intro d out p q here
    refine here.outside fun x low high => written.keeps x fun f member => ?_
    have := out f member
    rw [OutOf] at this
    omega
  refine records.unlink (fun l last p here => ?_) (fun d member => keep d fun f there => ?_) (fun r head q here => ?_)
    (fun d member => keep d fun f there => ?_)
  · refine here.renext written (List.mem_append_left _ (mem_leftBlock.mpr ⟨l, last, rfl⟩)) fun f there => ?_
    rcases List.mem_append.mp there with mine | other
    · obtain ⟨l', last', rfl⟩ := mem_leftBlock.mp mine
      rw [Option.mem_def, last'] at last
      cases last
      exact .inl rfl
    · exact .inr (linkRight f other l (List.mem_of_getLast? last))
  · rcases List.mem_append.mp there with mine | other
    · obtain ⟨l, last, rfl⟩ := mem_leftBlock.mp mine
      obtain ⟨others, rfl⟩ := List.getLast?_eq_some_iff.mp last
      rw [List.dropLast_concat] at member
      refine outOf_of_in ((List.pairwise_append.mp left).2.2 d member l (by simp)).symm ?_ ?_ <;> simp only [] <;> omega
    · exact linkRight f other d (List.mem_of_mem_dropLast member)
  · refine here.reprev written (List.mem_append_right _ (mem_rightBlock.mpr ⟨r, head, rfl⟩)) fun f there => ?_
    rcases List.mem_append.mp there with other | mine
    · exact .inr (linkLeft f other r (List.mem_of_head? head))
    · obtain ⟨r', head', rfl⟩ := mem_rightBlock.mp mine
      rw [Option.mem_def, head'] at head
      cases head
      exact .inl rfl
  · rcases List.mem_append.mp there with other | mine
    · exact linkLeft f other d (List.mem_of_mem_tail member)
    · obtain ⟨r, head, rfl⟩ := mem_rightBlock.mp mine
      obtain ⟨rest, rfl⟩ := List.head?_eq_some_iff.mp head
      refine outOf_of_in ((List.pairwise_cons.mp right).1 d member) ?_ ?_ <;> simp only [] <;> omega

/-- The bits of a block. -/
theorem Block.bits (b : Block) :
    ∃ a : UInt64, UInt64.ofNat b.place = KERNEL_HEAP_START + a * PAGE_SIZE ∧ a.toNat + b.pages ≤ 2 ^ 25 ∧
      b.place = KERNEL_HEAP_START.toNat + 4096 * a.toNat ∧ ∀ i, b.Has i ↔ a.toNat ≤ i.toNat ∧ i.toNat < a.toNat + b.pages := by
  have low := b.tidy.low
  have high := b.tidy.high
  have some := b.tidy.some
  have aligned := b.tidy.aligned
  rw [toNat_KERNEL_HEAP_START] at low high
  rw [toNat_KERNEL_HEAP_SIZE] at high
  have index : (UInt64.ofNat ((b.place - 0xFFFFC00000000000) / 4096)).toNat = (b.place - 0xFFFFC00000000000) / 4096 := by
    rw [UInt64.toNat_ofNat']
    omega
  have place : b.place = KERNEL_HEAP_START.toNat + 4096 * (UInt64.ofNat ((b.place - 0xFFFFC00000000000) / 4096)).toNat := by
    rw [index, toNat_KERNEL_HEAP_START]
    omega
  refine ⟨UInt64.ofNat ((b.place - 0xFFFFC00000000000) / 4096), ?_, by omega, place, fun i => ?_⟩
  · apply UInt64.toNat_inj.mp
    rw [(heap_address (by omega)).1, ← place, toNat_ofNat64 (by omega)]
  · rw [Block.Has, Block.stop]
    omega

/-- Releasing the pages of a block changes no other byte. -/
theorem bytes_release {pages : Set Nat} {s : State} {a : UInt64} {x : Nat} (within : Within pages m.kernel s)
    (sub : pages ⊆ pagesFrom a.toNat b.pages) (place : b.place = KERNEL_HEAP_START.toNat + 4096 * a.toNat)
    (out : x < b.place ∨ b.stop ≤ x) : bytes { m with kernel := s } x = bytes m x := by
  by_cases inside : InHeap x
  · refine bytes_within within fun member => ?_
    have index := inside.bit.1
    have member := sub member
    rw [inside.page, pagesFrom, Set.mem_Ico, heapPage, heapPage, heapPage, index] at member
    have low := inside.1
    rw [Block.stop] at out
    omega
  · rw [bytes, bytes, if_neg inside, if_neg inside]

theorem call_ok {α : Type} {x : Kernel α} {v : α} {s : State} (run : x m.kernel = .ok v s) :
    call x m = .ok v { m with kernel := s } := by
  rw [call, run]

/-- The fields were stored, and then the pages of the block went back. -/
structure GaveBack (s₀ : State) (sections : List Elf64Shdr) (m : Machine) (b : Block) (ws : List Field) (m₁ : Machine) (s : State)
    (a : UInt64) (m' : Machine) : Prop where
  wrote : Wrote ws m m₁
  machine : m' = { m₁ with kernel := s, l_allocated := m.l_allocated - UInt64.ofNat (4096 * b.pages) }
  freeing : Freeing s₀ sections a m.kernel b.pages s
  room : a.toNat + b.pages ≤ 2 ^ 25
  place : b.place = KERNEL_HEAP_START.toNat + 4096 * a.toNat
  has : ∀ i, b.Has i ↔ a.toNat ≤ i.toNat ∧ i.toNat < a.toNat + b.pages

/-- The size and the pages of a block that was unlinked. -/
theorem give_back_ok (held : Held s₀ sections start others m A) (list : A.blocks = xs ++ b :: ys) (wrote : Wrote ws m m')
    (out : ∀ f ∈ ws, OutOf b f) :
    ∃ m₁ s a m'', (do
        let size ← load32 (UInt64.ofNat (b.place + 20))
        modify fun m => { m with l_allocated := m.l_allocated - size.toUInt64 }
        let pages ← load32 (UInt64.ofNat (b.place + 16))
        let _ ← liballoc_free (UInt64.ofNat b.place) pages.toUInt64 : Alloc Unit) m' = .ok () m'' ∧
      GaveBack s₀ sections m b ws m₁ s a m'' := by
  have member : b ∈ A.blocks := by rw [list]; simp
  have small := b.tidy.small
  have here := held.block list
  have size : Field.In ⟨b.place + 20, 4, 4096 * b.pages⟩ (bytes m) := here.record _ (by simp [majorFields])
  have pages : Field.In ⟨b.place + 16, 4, b.pages⟩ (bytes m) := here.record _ (by simp [majorFields])
  have globals := wrote.same
  have allocated : m'.l_allocated = m.l_allocated := by rw [globals]
  obtain ⟨a, address, room, place, has⟩ := b.bits
  have count : (UInt32.ofNat b.pages).toUInt64.toNat = b.pages := by
    rw [UInt32.toNat_toUInt64, toNat_ofNat32 (by omega)]
  -- every page of the block is mapped, so the release does not stop
  have ended : Post (fun r s => r = 0 ∧ Freeing s₀ sections a m.kernel b.pages s) (fun _ _ => False)
      (vmm_free_pages (UInt64.ofNat b.place) (UInt32.ofNat b.pages).toUInt64 m.kernel) := by
    rw [address]
    refine (vmm_free_pages_post held.rest (by omega)).mono (fun r s here => count ▸ here) ?_
    rintro e s ⟨k, below, unmet⟩
    have index : (a + UInt64.ofNat k).toNat = a.toNat + k := toNat_offset (by omega)
    exact unmet.clear ((held.bits _ (by omega)).mpr (.inr ⟨b, member, (has _).mpr (by omega)⟩))
  obtain ⟨r, s, run, rfl, freeing⟩ := ended.returns
  refine ⟨m', s, a, { m' with kernel := s, l_allocated := m.l_allocated - UInt64.ofNat (4096 * b.pages) }, ?_, wrote, rfl, freeing, room, place, has⟩
  have sizeIn : (⟨b.place + 20, 4, 4096 * b.pages⟩ : Field) ∈ majorFields b 0 0 := by simp [majorFields]
  have pagesIn : (⟨b.place + 16, 4, b.pages⟩ : Field) ∈ majorFields b 0 0 := by simp [majorFields]
  rw [bind_ok (wrote.load32 (size.stores fun f there => (out f there).apart sizeIn)), modify_bind]
  have loaded : load32 (UInt64.ofNat (b.place + 16)) { m' with l_allocated := m'.l_allocated - (UInt32.ofNat (4096 * b.pages)).toUInt64 } =
      .ok (UInt32.ofNat b.pages) { m' with l_allocated := m'.l_allocated - (UInt32.ofNat (4096 * b.pages)).toUInt64 } := by
    refine load32_ok ?_
    show Field.In ⟨b.place + 16, 4, b.pages⟩ (bytes m')
    rw [wrote.bytes]
    exact pages.stores fun f there => (out f there).apart pagesIn
  have freed : liballoc_free (UInt64.ofNat b.place) (UInt32.ofNat b.pages).toUInt64
      { m' with l_allocated := m'.l_allocated - (UInt32.ofNat (4096 * b.pages)).toUInt64 } =
      .ok 0 { m' with kernel := s, l_allocated := m'.l_allocated - (UInt32.ofNat (4096 * b.pages)).toUInt64 } := by
    refine call_ok ?_
    show vmm_free_pages _ _ m'.kernel = _
    rw [wrote.kernel, run]
  rw [bind_ok loaded, bind_ok freed, allocated, toUInt64_ofNat32 small]
  rfl

/-- The links of a block, by its own record, after stores elsewhere. -/
theorem links_ok (held : Held s₀ sections start others m A) (list : A.blocks = xs ++ b :: ys) (wrote : Wrote ws m m')
    (out : ∀ f ∈ ws, OutOf b f) :
    load64 (UInt64.ofNat b.place) m' = .ok (UInt64.ofNat (last Block.place 0 xs)) m' ∧
      load64 (UInt64.ofNat (b.place + 8)) m' = .ok (UInt64.ofNat (first Block.place ys 0)) m' := by
  have here := held.block list
  have prev : Field.In ⟨b.place, 8, last Block.place 0 xs⟩ (bytes m) := here.record _ (by simp [majorFields])
  have next : Field.In ⟨b.place + 8, 8, first Block.place ys 0⟩ (bytes m) := here.record _ (by simp [majorFields])
  have prevIn : (⟨b.place, 8, last Block.place 0 xs⟩ : Field) ∈ majorFields b (last Block.place 0 xs) 0 := by simp [majorFields]
  have nextIn : (⟨b.place + 8, 8, first Block.place ys 0⟩ : Field) ∈ majorFields b 0 (first Block.place ys 0) := by simp [majorFields]
  exact ⟨wrote.load64 (prev.stores fun f there => (out f there).apart prevIn),
    wrote.load64 (next.stores fun f there => (out f there).apart nextIn)⟩

theorem drop_right_ok (held : Held s₀ sections start others m A) (list : A.blocks = xs ++ b :: ys) (wrote : Wrote ws m m')
    (out : ∀ f ∈ ws, OutOf b f) :
    ∃ m₁ s a m'', (do
        let next ← load64 (UInt64.ofNat (b.place + 8))
        if next ≠ NULL then
          store64 (Major.prev next) (← load64 (UInt64.ofNat b.place))
        let size ← load32 (UInt64.ofNat (b.place + 20))
        modify fun m => { m with l_allocated := m.l_allocated - size.toUInt64 }
        let pages ← load32 (UInt64.ofNat (b.place + 16))
        let _ ← liballoc_free (UInt64.ofNat b.place) pages.toUInt64 : Alloc Unit) m' = .ok () m'' ∧
      GaveBack s₀ sections m b (ws ++ rightBlock ys (last Block.place 0 xs)) m₁ s a m'' := by
  obtain ⟨back, forth⟩ := links_ok held list wrote out
  have bound := last_place_lt xs
  rw [bind_ok forth]
  cases ys with
  | nil =>
    have none : ¬ UInt64.ofNat 0 ≠ NULL := fun bad => bad rfl
    rw [first_nil, if_neg none, rightBlock, List.head?_nil, List.append_nil]
    exact give_back_ok held list wrote out
  | cons r rest =>
    have member : r ∈ A.blocks := by rw [list]; simp
    have apart := Arena.apart_of_split list r (by simp)
    have edge := r.stop_ge
    obtain ⟨m₁, run, w₁⟩ := wrote.store64 (a := r.place) held.rest ((held.spans member).mono le_rfl (by omega))
      (toNat_ofNat64 (n := last Block.place 0 xs) (by omega))
    have link : rightBlock (r :: rest) (last Block.place 0 xs) = [⟨r.place, 8, last Block.place 0 xs⟩] := rfl
    rw [first_cons, if_pos (place_ne_NULL r), bind_ok back, major_prev_ofNat, bind_ok run, link]
    refine give_back_ok held list w₁ fun f there => ?_
    rcases List.mem_append.mp there with earlier | here
    · exact out f earlier
    · rw [List.mem_singleton.mp here]
      refine outOf_of_in apart ?_ ?_ <;> simp only [] <;> omega

theorem drop_left_ok (held : Held s₀ sections start others m A) (list : A.blocks = xs ++ b :: ys) :
    ∃ m₁ s a m', (do
        let prev ← load64 (UInt64.ofNat b.place)
        if prev ≠ NULL then
          store64 (Major.next prev) (← load64 (UInt64.ofNat (b.place + 8)))
        let next ← load64 (UInt64.ofNat (b.place + 8))
        if next ≠ NULL then
          store64 (Major.prev next) (← load64 (UInt64.ofNat b.place))
        let size ← load32 (UInt64.ofNat (b.place + 20))
        modify fun m => { m with l_allocated := m.l_allocated - size.toUInt64 }
        let pages ← load32 (UInt64.ofNat (b.place + 16))
        let _ ← liballoc_free (UInt64.ofNat b.place) pages.toUInt64 : Alloc Unit) m = .ok () m' ∧
      GaveBack s₀ sections m b (dropFields xs ys) m₁ s a m' := by
  obtain ⟨back, forth⟩ := links_ok held list (.refl m) (by simp)
  have bound := first_place_lt ys
  rw [bind_ok back, dropFields]
  rcases List.eq_nil_or_concat' xs with rfl | ⟨others, l, rfl⟩
  · have none : ¬ UInt64.ofNat 0 ≠ NULL := fun bad => bad rfl
    rw [last_nil, if_neg none, leftBlock, List.getLast?_nil]
    exact drop_right_ok held list (.refl m) (by simp)
  · have member : l ∈ A.blocks := by rw [list]; simp
    have apart := Arena.apart_of_split list l (by simp)
    have edge := l.stop_ge
    obtain ⟨m₁, run, w₁⟩ := (Wrote.refl m).store64 (a := l.place + 8) held.rest ((held.spans member).mono (by omega) (by omega))
      (toNat_ofNat64 (n := first Block.place ys 0) (by omega))
    have link : leftBlock (others ++ [l]) (first Block.place ys 0) = [] ++ [⟨l.place + 8, 8, first Block.place ys 0⟩] := by
      simp [leftBlock]
    rw [last_concat, if_pos (place_ne_NULL l), bind_ok forth, major_next_ofNat, bind_ok run, link]
    have others := drop_right_ok held list w₁ fun f there => by
      rw [List.mem_singleton.mp there]
      refine outOf_of_in apart ?_ ?_ <;> simp only [] <;> omega
    rw [last_concat] at others
    exact others

theorem live_drop (list : A.blocks = xs ++ b :: ys) (empty : b.chunks = []) : (A.drop list).live = A.live := by
  rw [Arena.live_split list, empty, Arena.live, Arena.drop, List.flatMap_append, List.nil_append]

theorem total_drop (list : A.blocks = xs ++ b :: ys) : A.total = (A.drop list).total + 4096 * b.pages := by
  rw [Arena.total, Arena.total, Arena.drop, list]
  simp only [List.map_append, List.map_cons, List.sum_append, List.sum_cons]
  omega

/-- The arena is as before but for the block. -/
theorem Held.drop {m₁ : Machine} {s : State} {a : UInt64} (held : Held s₀ sections start others m A) (list : A.blocks = xs ++ b :: ys)
    (empty : b.chunks = []) (back : GaveBack s₀ sections m b (dropFields xs ys) m₁ s a m')
    (root : m.l_memRoot = UInt64.ofNat (first Block.place (xs ++ ys) 0))
    (bet : m.l_bestBet = NULL ∨ ∃ d ∈ xs ++ ys, m.l_bestBet = UInt64.ofNat d.place)
    (allocated : m.l_allocated = UInt64.ofNat A.total) (inuse : m.l_inuse = UInt64.ofNat A.used) :
    Represents s₀ sections start others m' (A.drop list) ∧ Kept A m m' := by
  obtain ⟨wrote, machine, freeing, room, place, has⟩ := back
  have globals := wrote.same
  have member : b ∈ A.blocks := by rw [list]; simp
  have apart := Arena.apart_of_split list
  have written : Written (dropFields xs ys) (bytes m) (bytes m₁) := by
    rw [wrote.bytes]
    exact written_stores (separate_dropFields list) dropFields_fit fun f => Iff.rfl
  -- outside of the block the release changes nothing
  have released : ∀ x, x < b.place ∨ b.stop ≤ x → bytes m' x = bytes m₁ x := by
    intro x out
    have within : Within (pagesFrom a.toNat b.pages) m₁.kernel s := by
      rw [wrote.kernel]
      exact freeing.within
    rw [machine]
    exact bytes_release within (subset_refl _) place out
  have outside : ∀ d ∈ xs ++ ys, ∀ x, d.place ≤ x → x < d.stop → bytes m' x = bytes m₁ x := by
    intro d there x low high
    have separate := apart d there
    rw [Block.Apart] at separate
    exact released x (by omega)
  have kernel : m'.kernel = s := by rw [machine]
  refine ⟨⟨⟨?_, ?_, ?_, ?_, ?_⟩, ?_, ?_, ?_, ?_⟩, ⟨?_, ?_, ?_⟩, ?_⟩
  · rw [kernel]
    exact freeing.rest held.rest
  · rw [kernel]
    exact held.since.trans (freeing.within.mono (pagesFrom_heap room))
  · intro i inside
    rw [kernel, freeing.bits, held.bits i inside, ← has]
    have others : (∃ d ∈ A.blocks, d.Has i) ↔ (∃ d ∈ xs ++ ys, d.Has i) ∨ b.Has i := by
      rw [list]
      simp only [List.mem_append, List.mem_cons]
      constructor
      · rintro ⟨d, left | rfl | right, here⟩
        · exact .inl ⟨d, .inl left, here⟩
        · exact .inr here
        · exact .inl ⟨d, .inr right, here⟩
      · rintro (⟨d, left | right, here⟩ | here)
        · exact ⟨d, .inl left, here⟩
        · exact ⟨d, .inr (.inr right), here⟩
        · exact ⟨b, .inr (.inl rfl), here⟩
    rw [others, Arena.drop]
    constructor
    · rintro ⟨foreign | there | here, out⟩
      · exact .inl foreign
      · exact .inr there
      · exact absurd here out
    · rintro (foreign | ⟨d, there, here⟩)
      · exact ⟨.inl foreign, held.foreign i foreign b member⟩
      · refine ⟨.inr (.inl ⟨d, there, here⟩), fun both => ?_⟩
        have separate := apart d there
        rw [Block.Apart] at separate
        rw [Block.Has] at here both
        omega
  · intro i foreign d there
    exact held.foreign i foreign d (by rw [list]; simp only [Arena.drop, List.mem_append, List.mem_cons] at there ⊢; tauto)
  · refine (records_drop list held.records written).mono fun d there p q here => here.outside fun x low high => ?_
    exact outside d there x low high
  · rw [machine, globals]
    exact root
  · rw [machine, globals]
    exact bet
  · rw [machine]
    show m.l_allocated - _ = _
    rw [allocated, total_drop list, UInt64.ofNat_add, UInt64.add_sub_cancel]
  · rw [machine, globals, Arena.used, live_drop list empty]
    exact inuse
  · rw [machine, globals]
  · rw [machine, globals]
  · rw [machine, globals]
  · intro c inA x low high
    obtain ⟨d, there, inD⟩ := List.mem_flatMap.mp inA
    have inside := d.chunk_inside inD
    have start := c.user_low
    have stop := c.user_stop
    have other : d ∈ xs ++ ys := by
      rw [list] at there
      simp only [List.mem_append, List.mem_cons] at there ⊢
      rcases there with left | rfl | right
      · exact .inl left
      · rw [empty] at inD
        cases inD
      · exact .inr right
    rw [outside d other x (by omega) (by omega)]
    refine written.keeps x fun f stored => ?_
    obtain ⟨e, inRest, first, last⟩ := dropFields_in stored
    have inBlocks : e ∈ A.blocks := by
      rw [list]
      simp only [List.mem_append, List.mem_cons] at inRest ⊢
      tauto
    by_cases same : e = d
    · subst same
      omega
    · have separate := A.apart.forall inBlocks there same
      have := e.stop_ge
      rw [Block.Apart] at separate
      omega

theorem place_inj {e : Block} (apart : d.Apart e) : UInt64.ofNat d.place ≠ UInt64.ofNat e.place := by
  have := d.stop_lt
  have := d.stop_ge
  have := e.stop_lt
  have := e.stop_ge
  rw [Block.Apart] at apart
  intro same
  have value := congrArg UInt64.toNat same
  rw [toNat_ofNat64 (by omega), toNat_ofNat64 (by omega)] at value
  omega

theorem drop_major_ok (rep : Represents s₀ sections start others m A) (list : A.blocks = xs ++ b :: ys) (empty : b.chunks = []) :
    ∃ m', kfree.drop_major (UInt64.ofNat b.place) m = .ok () m' ∧ Represents s₀ sections start others m' (A.drop list) ∧ Kept A m m' := by
  have apart := Arena.apart_of_split list
  -- the two globals are changed first; memory is as it was
  have after : ∀ root bet : UInt64, root = UInt64.ofNat (first Block.place (xs ++ ys) 0) →
      (bet = NULL ∨ ∃ d ∈ xs ++ ys, bet = UInt64.ofNat d.place) →
      ∃ m', (do
        let prev ← load64 (UInt64.ofNat b.place)
        if prev ≠ NULL then
          store64 (Major.next prev) (← load64 (UInt64.ofNat (b.place + 8)))
        let next ← load64 (UInt64.ofNat (b.place + 8))
        if next ≠ NULL then
          store64 (Major.prev next) (← load64 (UInt64.ofNat b.place))
        let size ← load32 (UInt64.ofNat (b.place + 20))
        modify fun m => { m with l_allocated := m.l_allocated - size.toUInt64 }
        let pages ← load32 (UInt64.ofNat (b.place + 16))
        let _ ← liballoc_free (UInt64.ofNat b.place) pages.toUInt64 : Alloc Unit) { m with l_memRoot := root, l_bestBet := bet } =
          .ok () m' ∧ Represents s₀ sections start others m' (A.drop list) ∧ Kept A m m' := by
    intro root bet isRoot isBet
    have held : Held s₀ sections start others { m with l_memRoot := root, l_bestBet := bet } A :=
      ⟨rep.rest, rep.since, rep.bits, rep.foreign, rep.records⟩
    obtain ⟨m₁, s, a, m', run, back⟩ := drop_left_ok held list
    obtain ⟨rep', kept⟩ := held.drop list empty back isRoot isBet rep.allocated rep.inuse
    exact ⟨m', run, rep', ⟨kept.warnings, kept.errors, kept.overruns⟩, kept.bytes⟩
  have otherBet : m.l_bestBet ≠ UInt64.ofNat b.place → m.l_bestBet = NULL ∨ ∃ d ∈ xs ++ ys, m.l_bestBet = UInt64.ofNat d.place := by
    intro different
    rcases rep.bet with none | ⟨d, there, here⟩
    · exact .inl none
    · rw [list] at there
      simp only [List.mem_append, List.mem_cons] at there
      rcases there with left | rfl | right
      · exact .inr ⟨d, List.mem_append_left _ left, here⟩
      · exact absurd here different
      · exact .inr ⟨d, List.mem_append_right _ right, here⟩
  rw [kfree.drop_major, get_bind]
  simp only [major_prev_ofNat, major_next_ofNat, major_size_ofNat, major_pages_ofNat]
  cases xs with
  | nil =>
    have root : m.l_memRoot = UInt64.ofNat b.place := by
      rw [rep.root, list]
      rfl
    have forth := (links_ok rep.toHeld list (.refl m) (by simp)).2
    rw [if_pos root, bind_ok forth]
    simp only [modify_bind]
    by_cases bet : m.l_bestBet = UInt64.ofNat b.place
    · rw [if_pos bet]
      exact after _ NULL rfl (.inl rfl)
    · rw [if_neg bet]
      exact after _ m.l_bestBet rfl (otherBet bet)
  | cons e rest =>
    have root : m.l_memRoot = UInt64.ofNat e.place := by
      rw [rep.root, list]
      rfl
    have different : m.l_memRoot ≠ UInt64.ofNat b.place := by
      rw [root]
      exact place_inj (apart e (by simp))
    rw [if_neg different]
    by_cases bet : m.l_bestBet = UInt64.ofNat b.place
    · rw [if_pos bet, modify_bind]
      exact after m.l_memRoot NULL root (.inl rfl)
    · rw [if_neg bet]
      exact after m.l_memRoot m.l_bestBet root (otherBet bet)

end

/-! ## The call -/

/-- A chunk was given back, and nothing else changed for the clients. -/
structure Freed (s₀ : State) (sections : List Elf64Shdr) (start : State) (others : Set UInt64) (A : Arena) (c : Chunk) (m m' : Machine) (A' : Arena) :
    Prop where
  live : A.live.Perm (c :: A'.live)
  settled : A'.Settled
  rep : Represents s₀ sections start others m' A'
  kept : Kept A' m m'

section
variable {s₀ start : State} {sections : List Elf64Shdr} {others : Set UInt64} {m m' : Machine} {A : Arena} {c : Chunk}

/-- Where a chunk of the arena lies. -/
theorem split_of_live (member : c ∈ A.live) :
    ∃ xs b ys cs ds, A.blocks = xs ++ b :: ys ∧ b.chunks = cs ++ c :: ds := by
  obtain ⟨b, there, inB⟩ := List.mem_flatMap.mp member
  obtain ⟨xs, ys, list⟩ := List.append_of_mem there
  obtain ⟨cs, ds, split⟩ := List.append_of_mem inB
  exact ⟨xs, b, ys, cs, ds, list, split⟩

/-- What is left after a chunk was taken out: a block that is in use, or no block. -/
inductive Left (s₀ : State) (sections : List Elf64Shdr) (start : State) (others : Set UInt64) (A : Arena) {xs ys : List Block} {b : Block}
    (list : A.blocks = xs ++ b :: ys) {cs ds : List Chunk} {c : Chunk} (split : b.chunks = cs ++ c :: ds) (m₁ m' : Machine) : Prop
  | used (some : cs ++ ds ≠ []) (bet : UInt64) (machine : m' = { m₁ with l_bestBet := bet })
      (rep : Represents s₀ sections start others m' (A.replace list (b.place_remove split) (b.pages_remove split))) :
      Left s₀ sections start others A list split m₁ m'
  | dropped (empty : cs ++ ds = []) {A' : Arena} (blocks : A'.blocks = xs ++ ys)
      (live : A'.live = (A.replace list (b.place_remove split) (b.pages_remove split)).live)
      (rep : Represents s₀ sections start others m' A') (kept : Kept A' m₁ m') : Left s₀ sections start others A list split m₁ m'

theorem release_left {xs ys : List Block} {b : Block} {cs ds : List Chunk} (rep : Represents s₀ sections start others m A)
    (list : A.blocks = xs ++ b :: ys) (split : b.chunks = cs ++ c :: ds) :
    ∃ m₁ m', kfree.release (UInt64.ofNat c.place) m = .ok () m' ∧ Cut m m₁ b cs c ds ∧
      Left s₀ sections start others A list split m₁ m' := by
  have inBlocks : b ∈ A.blocks := by rw [list]; simp
  obtain ⟨m₁, cut, emptied, left⟩ := release_ok rep.rest (rep.block list) (rep.spans inBlocks) split
  obtain ⟨rep₁, _⟩ := rep.cut list split cut
  have list₁ : (A.replace list (b.place_remove split) (b.pages_remove split)).blocks = xs ++ b.remove split :: ys := rfl
  by_cases empty : cs ++ ds = []
  · obtain ⟨m', run, rep', kept'⟩ := drop_major_ok rep₁ list₁ empty
    have live := live_drop list₁ empty
    exact ⟨m₁, m', (emptied empty).trans run, cut, .dropped empty rfl live rep'
      ⟨kept'.toSameCounts, fun e there => kept'.bytes e (live ▸ there)⟩⟩
  · obtain ⟨bet, run, rep'⟩ := rebet_ok rep₁ (b := b.remove split) (by rw [list₁]; simp)
    exact ⟨m₁, _, (left empty).trans run, cut, .used empty bet rfl rep'⟩

theorem release_post (rep : Represents s₀ sections start others m A) (settled : A.Settled) (member : c ∈ A.live) :
    ∃ m' A', kfree.release (UInt64.ofNat c.place) m = .ok () m' ∧ Freed s₀ sections start others A c m m' A' := by
  obtain ⟨xs, b, ys, cs, ds, list, split⟩ := split_of_live member
  obtain ⟨m₁, m', run, cut, left⟩ := release_left rep list split
  obtain ⟨_, kept₁⟩ := rep.cut list split cut
  have live₁ := live_remove list split
  have sub : ∀ e ∈ (A.replace list (b.place_remove split) (b.pages_remove split)).live, e ∈ A.live := fun e there =>
    live₁.mem_iff.mpr (.tail _ there)
  cases left with
  | used some bet machine rep' =>
    refine ⟨m', _, run, live₁, fun d there => ?_, rep', ?_⟩
    · rcases List.mem_append.mp there with earlier | later
      · exact settled d (by rw [list]; simp [earlier])
      · rcases List.mem_cons.mp later with rfl | later
        · exact some
        · exact settled d (by rw [list]; simp [later])
    · rw [machine]
      exact ⟨⟨kept₁.warnings, kept₁.errors, kept₁.overruns⟩, fun e there => kept₁.bytes e (sub e there)⟩
  | @dropped empty A' blocks live rep' kept' =>
    refine ⟨m', A', run, live ▸ live₁, fun d there => settled d ?_, rep', ?_⟩
    · rw [list]
      rw [blocks] at there
      simp only [List.mem_append, List.mem_cons] at there ⊢
      tauto
    · have before : Kept A' m m₁ := ⟨kept₁.toSameCounts, fun e there => kept₁.bytes e (sub e (live ▸ there))⟩
      exact before.trans kept' fun _ there => there

/-- What `kfree` and `krealloc` read before they do anything: the record of the pointer. -/
theorem record_ok (rep : Represents s₀ sections start others m A) (member : c ∈ A.live) :
    UInt64.ofNat c.user ≠ NULL ∧ UNALIGN (UInt64.ofNat c.user) m = .ok (UInt64.ofNat (c.place + 40)) m ∧
      UInt64.ofNat (c.place + 40) - sizeof_minor = UInt64.ofNat c.place ∧
      load32 (UInt64.ofNat (c.place + 24)) m = .ok LIBALLOC_MAGIC m ∧
      load32 (UInt64.ofNat (c.place + 32)) m = .ok (UInt32.ofNat c.req_size) m := by
  obtain ⟨xs, b, ys, cs, ds, list, split⟩ := split_of_live member
  have here := rep.block list
  obtain ⟨_, high, stop, positive, _, _, _⟩ := around split
  have low := c.user_low
  have edge := c.user_high
  have magic : Field.In ⟨c.place + 24, 4, LIBALLOC_MAGIC.toNat⟩ (bytes m) := here.minorField split (by simp [minorFields])
  have req_size : Field.In ⟨c.place + 32, 4, c.req_size⟩ (bytes m) := here.minorField split (by simp [minorFields])
  have align : Field.In ⟨c.user - 16, 1, c.user - (c.place + 40)⟩ (bytes m) := here.minorField split (by simp [minorFields])
  refine ⟨?_, unalign_ok align (by omega), ?_, load32_ok magic, load32_ok req_size⟩
  · rw [ne_eq, ofNat_eq_NULL (by omega)]
    omega
  · have forty : sizeof_minor = UInt64.ofNat 40 := rfl
    rw [forty, sub_ofNat (by omega) (by omega), Nat.add_sub_cancel]

/-- `kfree` of a live pointer gives its chunk back. -/
theorem kfree_ok (rep : Represents s₀ sections start others m A) (settled : A.Settled) (member : c ∈ A.live) :
    ∃ m' A', kfree (UInt64.ofNat c.user) m = .ok () m' ∧ Freed s₀ sections start others A c m m' A' := by
  obtain ⟨nonzero, unaligned, min, magic, _⟩ := record_ok rep member
  obtain ⟨m', A', run, freed⟩ := release_post rep settled member
  refine ⟨m', A', ?_, freed⟩
  rw [kfree, if_neg nonzero, bind_ok unaligned]
  simp only [min, minor_magic_ofNat]
  rw [bind_ok magic, if_neg (not_not_intro rfl)]
  exact run

end

end Extron.Liballoc
