import Extron.Blocks

/-!
Putting a chunk into a block and taking one out, as `kmalloc` and `kfree` do it in
memory: the fields that are stored, that they share no bytes, and that after these
stores, in any order, the records describe the changed block.
-/
namespace Extron.Liballoc
open Extron.Fields Extron.Chains Extron.Kheap Extron.HeapBytes
set_option linter.unusedSimpArgs false

/-! ## Tidy blocks -/

section
variable {place pages : Nat} {c d : Chunk} {cs ds : List Chunk}

/-- The chunks before the last one end before it does. -/
theorem stop_le_of_last (order : cs.Pairwise Chunk.Before) {bound : Nat} (last : ∀ d ∈ cs.getLast?, d.stop ≤ bound) :
    ∀ d ∈ cs, d.stop ≤ bound := by
  rcases List.eq_nil_or_concat' cs with rfl | ⟨others, l, rfl⟩
  · simp
  · have end_ := last l (by simp)
    intro d member
    rcases List.mem_append.mp member with earlier | here
    · have before := (List.pairwise_append.mp order).2.2 d earlier l (by simp)
      rw [Chunk.Before] at before
      rw [Chunk.stop] at end_
      omega
    · rw [List.mem_singleton.mp here]
      exact end_

/-- The chunks after the first one start after it does. -/
theorem le_place_of_head (order : ds.Pairwise Chunk.Before) {bound : Nat} (head : ∀ d ∈ ds.head?, bound ≤ d.place) :
    ∀ d ∈ ds, bound ≤ d.place := by
  cases ds with
  | nil => simp
  | cons r rest =>
    have start := head r (by simp)
    intro d member
    rcases List.mem_cons.mp member with rfl | later
    · exact start
    · have before := (List.pairwise_cons.mp order).1 d later
      rw [Chunk.Before, Chunk.stop] at before
      omega

/-- There is room for the chunk between the two parts of the block. -/
structure Gap (place pages : Nat) (cs : List Chunk) (c : Chunk) (ds : List Chunk) : Prop where
  low : place + 40 ≤ c.place
  after : ∀ d ∈ cs.getLast?, d.stop ≤ c.place
  before : ∀ d ∈ ds.head?, c.stop ≤ d.place
  high : c.stop ≤ place + 4096 * pages

theorem Tidy.lefts (tidy : Tidy place pages (cs ++ ds)) (gap : Gap place pages cs c ds) : ∀ d ∈ cs, d.stop ≤ c.place :=
  stop_le_of_last (List.pairwise_append.mp tidy.order).1 gap.after

theorem Tidy.rights (tidy : Tidy place pages (cs ++ ds)) (gap : Gap place pages cs c ds) : ∀ d ∈ ds, c.stop ≤ d.place :=
  le_place_of_head (List.pairwise_append.mp tidy.order).2.1 gap.before

theorem Tidy.insert (tidy : Tidy place pages (cs ++ ds)) (gap : Gap place pages cs c ds) :
    Tidy place pages (cs ++ c :: ds) := by
  obtain ⟨left, right, across⟩ := List.pairwise_append.mp tidy.order
  refine { tidy with order := ?_, inside := ?_ }
  · refine List.pairwise_append.mpr ⟨left, List.pairwise_cons.mpr ⟨tidy.rights gap, right⟩, ?_⟩
    intro d first e second
    rcases List.mem_cons.mp second with rfl | later
    · exact tidy.lefts gap d first
    · exact across d first e later
  · intro d member
    rcases List.mem_append.mp member with first | second
    · exact tidy.inside d (List.mem_append_left _ first)
    · rcases List.mem_cons.mp second with rfl | later
      · exact ⟨gap.low, gap.high⟩
      · exact tidy.inside d (List.mem_append_right _ later)

theorem Tidy.remove (tidy : Tidy place pages (cs ++ c :: ds)) : Tidy place pages (cs ++ ds) := by
  have sub : List.Sublist (cs ++ ds) (cs ++ c :: ds) := List.Sublist.append_left (List.sublist_cons_self c ds) cs
  exact { tidy with order := tidy.order.sublist sub, inside := fun d member => tidy.inside d (sub.subset member) }

/-- A chunk leaves a gap. -/
theorem Tidy.gap (tidy : Tidy place pages (cs ++ c :: ds)) : Gap place pages cs c ds := by
  obtain ⟨_, right, across⟩ := List.pairwise_append.mp tidy.order
  obtain ⟨low, high⟩ := tidy.inside c (by simp)
  refine ⟨low, fun d member => ?_, fun d member => ?_, high⟩
  · exact across d (List.mem_of_getLast? member) c (by simp)
  · exact (List.pairwise_cons.mp right).1 d (List.mem_of_head? member)

end

/-- The block with a chunk put in. -/
def Block.insert (b : Block) {cs ds : List Chunk} {c : Chunk} (split : b.chunks = cs ++ ds) (gap : Gap b.place b.pages cs c ds) :
    Block :=
  { b with chunks := cs ++ c :: ds, tidy := (split ▸ b.tidy : Tidy b.place b.pages (cs ++ ds)).insert gap }

/-- The block with a chunk taken out. -/
def Block.remove (b : Block) {cs ds : List Chunk} {c : Chunk} (split : b.chunks = cs ++ c :: ds) : Block :=
  { b with chunks := cs ++ ds, tidy := (split ▸ b.tidy : Tidy b.place b.pages (cs ++ c :: ds)).remove }

@[simp] theorem Block.place_insert (b : Block) {cs ds : List Chunk} {c : Chunk} (split : b.chunks = cs ++ ds)
    (gap : Gap b.place b.pages cs c ds) : (b.insert split gap).place = b.place := rfl

@[simp] theorem Block.pages_insert (b : Block) {cs ds : List Chunk} {c : Chunk} (split : b.chunks = cs ++ ds)
    (gap : Gap b.place b.pages cs c ds) : (b.insert split gap).pages = b.pages := rfl

@[simp] theorem Block.place_remove (b : Block) {cs ds : List Chunk} {c : Chunk} (split : b.chunks = cs ++ c :: ds) :
    (b.remove split).place = b.place := rfl

@[simp] theorem Block.pages_remove (b : Block) {cs ds : List Chunk} {c : Chunk} (split : b.chunks = cs ++ c :: ds) :
    (b.remove split).pages = b.pages := rfl

/-! ## The fields that are stored -/

/-- The field that leads to what comes after the chunks: that of the block when there are none. -/
def leftLink (block : Nat) (cs : List Chunk) (target : Nat) : Field :=
  match cs.getLast? with
  | none => ⟨block + 32, 8, target⟩
  | some l => ⟨l.place + 8, 8, target⟩

/-- The field that leads to what comes before the chunks. -/
def rightLink (ds : List Chunk) (target : Nat) : List Field :=
  match ds.head? with
  | none => []
  | some r => [⟨r.place, 8, target⟩]

/-- What is stored to put a chunk into a block. -/
def insertFields (b : Block) (cs : List Chunk) (c : Chunk) (ds : List Chunk) : List Field :=
  ⟨b.place + 24, 4, b.usage + (40 + c.size)⟩ :: leftLink b.place cs c.place ::
    (rightLink ds c.place ++ minorFields b.place c (last Chunk.place 0 cs) (first Chunk.place ds 0))

/-- What is stored to take a chunk out of a block. -/
def removeFields (b : Block) (cs : List Chunk) (c : Chunk) (ds : List Chunk) : List Field :=
  ⟨b.place + 24, 4, b.usage - (40 + c.size)⟩ :: ⟨c.place + 24, 4, LIBALLOC_DEAD.toNat⟩ ::
    leftLink b.place cs (first Chunk.place ds 0) :: rightLink ds (last Chunk.place 0 cs)

section
variable {block prev next target : Nat} {b : Block} {c d : Chunk} {cs ds : List Chunk} {f : Field}

/-- A left link lies in the record of the block, or in that of the chunk before. -/
theorem leftLink_cases (block : Nat) (cs : List Chunk) (target : Nat) :
    cs = [] ∧ leftLink block cs target = ⟨block + 32, 8, target⟩ ∨
      ∃ others l, cs = others ++ [l] ∧ leftLink block cs target = ⟨l.place + 8, 8, target⟩ := by
  rcases List.eq_nil_or_concat' cs with rfl | ⟨others, l, rfl⟩
  · exact .inl ⟨rfl, rfl⟩
  · exact .inr ⟨others, l, rfl, by simp [leftLink]⟩

/-- A right link lies in the record of the chunk after. -/
theorem mem_rightLink : f ∈ rightLink ds target ↔ ∃ r, ds.head? = some r ∧ f = ⟨r.place, 8, target⟩ := by
  cases ds <;> simp [rightLink]

theorem pairwise_minorFields (block : Nat) (c : Chunk) (prev next : Nat) : (minorFields block c prev next).Pairwise Field.Apart := by
  have := c.user_low
  simp only [minorFields, List.pairwise_cons, List.mem_cons, List.not_mem_nil, or_false, forall_eq_or_imp, forall_eq,
    Field.Apart, List.Pairwise.nil, and_true, IsEmpty.forall_iff, implies_true]
  omega

/-- The field does not touch the record of the chunk. -/
def Elsewhere (d : Chunk) (f : Field) : Prop := f.at_ + f.width ≤ d.place ∨ d.user ≤ f.at_

theorem elsewhere_left (inside : block + 40 ≤ d.place) (before : ∀ l ∈ cs.getLast?, l.stop ≤ d.place ∨ d.stop ≤ l.place) :
    Elsewhere d (leftLink block cs target) := by
  have := d.user_stop
  rcases leftLink_cases block cs target with ⟨rfl, link⟩ | ⟨others, l, rfl, link⟩
  · rw [link]
    exact .inl inside
  · have apart := before l (by simp)
    have := l.user_low
    have := l.user_stop
    rw [link, Elsewhere]
    simp only []
    omega

theorem elsewhere_right (after : ∀ r ∈ ds.head?, r.stop ≤ d.place ∨ d.stop ≤ r.place) :
    ∀ f ∈ rightLink ds target, Elsewhere d f := by
  intro f member
  obtain ⟨r, head, rfl⟩ := mem_rightLink.mp member
  have apart := after r head
  have := d.user_stop
  have := r.user_low
  have := r.user_stop
  rw [Elsewhere]
  simp only []
  omega

theorem elsewhere_minor (apart : c.stop ≤ d.place ∨ d.stop ≤ c.place) :
    ∀ f ∈ minorFields block c prev next, Elsewhere d f := by
  intro f member
  obtain ⟨low, high⟩ := minor_range f member
  have := c.user_stop
  have := d.user_stop
  rw [Elsewhere]
  omega

end

section
variable {M M' : Memory} {block prev next target : Nat} {b : Block} {c d : Chunk} {cs ds : List Chunk} {fs : List Field}

theorem Elsewhere.apart {f g : Field} (elsewhere : Elsewhere d f) (member : g ∈ minorFields block d prev next) : f.Apart g := by
  obtain ⟨low, high⟩ := minor_range g member
  rw [Elsewhere] at elsewhere
  rw [Field.Apart]
  omega

/-- A record that no store touches stays. -/
theorem keep_minor (written : Written fs M M') (elsewhere : ∀ f ∈ fs, Elsewhere d f)
    (here : Holds (minorFields block d prev next) M) : Holds (minorFields block d prev next) M' :=
  written.record fun g member => .inr ⟨here g member, fun f there => (elsewhere f there).apart member⟩

/-- Only the link of a record to what comes after it is stored. -/
theorem relink_next (written : Written fs M M') (mine : ⟨d.place + 8, 8, target⟩ ∈ fs)
    (elsewhere : ∀ f ∈ fs, f = ⟨d.place + 8, 8, target⟩ ∨ Elsewhere d f)
    (here : Holds (minorFields block d prev next) M) : Holds (minorFields block d prev target) M' := by
  refine written.change here mine (by simp [minorFields]) (separate_of_pairwise (pairwise_minorFields block d prev target))
    (fun g member other => ?_) fun f there => (elsewhere f there).imp_right fun out g member => out.apart member
  simp only [minorFields, List.mem_cons, List.not_mem_nil, or_false, other, false_or] at member ⊢
  tauto

/-- Only the link of a record to what comes before it is stored. -/
theorem relink_prev (written : Written fs M M') (mine : ⟨d.place, 8, target⟩ ∈ fs)
    (elsewhere : ∀ f ∈ fs, f = ⟨d.place, 8, target⟩ ∨ Elsewhere d f)
    (here : Holds (minorFields block d prev next) M) : Holds (minorFields block d target next) M' := by
  refine written.change here mine (by simp [minorFields]) (separate_of_pairwise (pairwise_minorFields block d target next))
    (fun g member other => ?_) fun f there => (elsewhere f there).imp_right fun out g member => out.apart member
  simp only [minorFields, List.mem_cons, List.not_mem_nil, or_false, other, false_or] at member ⊢
  tauto

/-- The chunks before a change, when only the link out of them is stored. -/
theorem chunks_before {next' : Nat} (written : Written fs M M') (order : cs.Pairwise Chunk.Before)
    (low : ∀ d ∈ cs, block + 40 ≤ d.place) (mine : leftLink block cs next' ∈ fs)
    (elsewhere : ∀ f ∈ fs, f = leftLink block cs next' ∨ ∀ d ∈ cs, Elsewhere d f)
    (here : Chain Chunk.place (fun c p q => Holds (minorFields block c p q) M) prev cs next) :
    Chain Chunk.place (fun c p q => Holds (minorFields block c p q) M') prev cs next' := by
  rcases List.eq_nil_or_concat' cs with rfl | ⟨others, l, rfl⟩
  · trivial
  · have link : leftLink block (others ++ [l]) next' = ⟨l.place + 8, 8, next'⟩ := by simp [leftLink]
    rw [link] at mine elsewhere
    refine here.before (fun d last p held => ?_) (fun d member p q held => ?_)
    · simp only [List.getLast?_append, List.getLast?_singleton, Option.some_or, Option.mem_def, Option.some.injEq] at last
      subst last
      exact relink_next written mine (fun f there => (elsewhere f there).imp_right fun out => out l (by simp)) held
    · rw [List.dropLast_concat] at member
      have before := (List.pairwise_append.mp order).2.2 d member l (by simp)
      refine keep_minor written (fun f there => ?_) held
      rcases elsewhere f there with rfl | out
      · rw [← link]
        refine elsewhere_left (low d (by simp [member])) fun e last => ?_
        simp only [List.getLast?_append, List.getLast?_singleton, Option.some_or, Option.mem_def, Option.some.injEq] at last
        exact .inr (last ▸ before)
      · exact out d (by simp [member])

/-- The chunks after a change, when only the link back from them is stored. -/
theorem chunks_after {prev' : Nat} (written : Written fs M M') (order : ds.Pairwise Chunk.Before)
    (mine : ∀ f ∈ rightLink ds prev', f ∈ fs) (elsewhere : ∀ f ∈ fs, f ∈ rightLink ds prev' ∨ ∀ d ∈ ds, Elsewhere d f)
    (here : Chain Chunk.place (fun c p q => Holds (minorFields block c p q) M) prev ds next) :
    Chain Chunk.place (fun c p q => Holds (minorFields block c p q) M') prev' ds next := by
  cases ds with
  | nil => trivial
  | cons r rest =>
    have link : ∀ f, f ∈ rightLink (r :: rest) prev' ↔ f = ⟨r.place, 8, prev'⟩ := by simp [rightLink]
    refine here.after (fun d head q held => ?_) (fun d member p q held => ?_)
    · simp only [List.head?_cons, Option.mem_def, Option.some.injEq] at head
      subst head
      refine relink_prev written (mine _ ((link _).mpr rfl)) (fun f there => ?_) held
      exact (elsewhere f there).imp (link f).mp fun out => out r (by simp)
    · have before := (List.pairwise_cons.mp order).1 d member
      refine keep_minor written (fun f there => ?_) held
      rcases elsewhere f there with mine | out
      · refine elsewhere_right (fun e head => ?_) f mine
        simp only [List.head?_cons, Option.mem_def, Option.some.injEq] at head
        exact .inl (head ▸ before)
      · exact out d (.tail _ member)

/-- The record of a block of which the usage, and the first chunk when the change is at
    the front, are stored. -/
theorem record_changed (b b' : Block) (cs : List Chunk) (target : Nat) (written : Written fs M M') (place : b'.place = b.place) (pages : b'.pages = b.pages)
    (usage : ⟨b.place + 24, 4, b'.usage⟩ ∈ fs) (mine : leftLink b.place cs target ∈ fs)
    (elsewhere : ∀ f ∈ fs, f = ⟨b.place + 24, 4, b'.usage⟩ ∨ f = leftLink b.place cs target ∨ b.place + 40 ≤ f.at_)
    (low : ∀ d ∈ cs, b.place + 40 ≤ d.place)
    (front : first Chunk.place b'.chunks 0 = first Chunk.place cs target) (old : cs ≠ [] → first Chunk.place b.chunks 0 = first Chunk.place cs target)
    (here : Holds (majorFields b prev next) M) : Holds (majorFields b' prev next) M' := by
  have far : ∀ f ∈ fs, f = ⟨b.place + 24, 4, b'.usage⟩ ∨ (cs = [] ∧ f = ⟨b.place + 32, 8, target⟩) ∨ b.place + 40 ≤ f.at_ := by
    intro f member
    rcases elsewhere f member with same | same | out
    · exact .inl same
    · rcases leftLink_cases b.place cs target with ⟨none, link⟩ | ⟨others, l, rfl, link⟩
      · exact .inr (.inl ⟨none, same.trans link⟩)
      · have := low l (by simp)
        refine .inr (.inr ?_)
        rw [same, link]
        simp only []
        omega
    · exact .inr (.inr out)
  refine written.record fun g member => ?_
  simp only [majorFields, List.mem_cons, List.not_mem_nil, or_false, place, pages] at member
  by_cases used : g = ⟨b.place + 24, 4, b'.usage⟩
  · exact .inl (used ▸ usage)
  by_cases start : cs = [] ∧ g = ⟨b.place + 32, 8, target⟩
  · obtain ⟨rfl, rfl⟩ := start
    exact .inl mine
  refine .inr ⟨?_, fun f there => ?_⟩
  · refine here g ?_
    simp only [majorFields, List.mem_cons, List.not_mem_nil, or_false]
    rcases member with same | same | same | same | same | same
    · exact .inl same
    · exact .inr (.inl same)
    · exact .inr (.inr (.inl same))
    · exact .inr (.inr (.inr (.inl same)))
    · exact absurd same used
    · rw [front] at same
      have some : cs ≠ [] := by
        rintro rfl
        exact start ⟨rfl, same⟩
      rw [old some]
      exact .inr (.inr (.inr (.inr (.inr same))))
  · rw [Field.Apart]
    rcases far f there with rfl | ⟨rfl, rfl⟩ | out
    · rcases member with rfl | rfl | rfl | rfl | rfl | rfl <;> first | exact absurd rfl used | (simp only []; omega)
    · rw [front] at member
      simp only [true_and] at start
      rcases member with rfl | rfl | rfl | rfl | rfl | rfl <;> first | exact absurd rfl start | (simp only []; omega)
    · rcases member with rfl | rfl | rfl | rfl | rfl | rfl <;> simp only [] <;> omega

end

/-! ## Putting in -/

section
variable {M M' : Memory} {prev next : Nat} {b : Block} {c : Chunk} {cs ds : List Chunk}

theorem usage_insert (split : b.chunks = cs ++ ds) (gap : Gap b.place b.pages cs c ds) :
    (b.insert split gap).usage = b.usage + (40 + c.size) := by
  rw [Block.usage, Block.usage, split, Block.insert, taken_append, taken_cons, taken_append]
  omega

theorem elsewhere_usage {d : Chunk} {block value : Nat} (low : block + 40 ≤ d.place) : Elsewhere d ⟨block + 24, 4, value⟩ := by
  rw [Elsewhere]
  simp only []
  omega

/-- The two parts of a block and the gap between them. -/
theorem Gap.sides (split : b.chunks = cs ++ ds) (gap : Gap b.place b.pages cs c ds) :
    (∀ d ∈ cs, b.place + 40 ≤ d.place ∧ d.stop ≤ c.place) ∧ (∀ d ∈ ds, b.place + 40 ≤ d.place ∧ c.stop ≤ d.place) ∧
      ∀ d ∈ cs, ∀ e ∈ ds, d.stop ≤ e.place := by
  have tidy := b.tidy
  rw [split] at tidy
  refine ⟨fun d member => ⟨?_, tidy.lefts gap d member⟩, fun d member => ⟨?_, tidy.rights gap d member⟩, ?_⟩
  · exact (tidy.inside d (List.mem_append_left _ member)).1
  · exact (tidy.inside d (List.mem_append_right _ member)).1
  · exact (List.pairwise_append.mp tidy.order).2.2

theorem BlockAt.insert (here : BlockAt M b prev next) (split : b.chunks = cs ++ ds) (gap : Gap b.place b.pages cs c ds)
    (written : Written (insertFields b cs c ds) M M') : BlockAt M' (b.insert split gap) prev next := by
  obtain ⟨lefts, rights, across⟩ := gap.sides split
  have order := b.tidy.order
  rw [split] at order
  obtain ⟨orderLeft, orderRight, _⟩ := List.pairwise_append.mp order
  have chunks := here.chunks
  rw [ChunksAt, split] at chunks
  obtain ⟨left, right⟩ := chain_append.mp chunks
  have low := gap.low
  refine ⟨?_, chain_middle.mpr ⟨?_, ?_, ?_⟩⟩
  · refine record_changed b (b.insert split gap) cs c.place written rfl rfl ?_ (by simp [insertFields])
      (fun f member => ?_) (fun d member => (lefts d member).1) ?_ ?_ here.record
    · rw [usage_insert]
      simp [insertFields]
    · rw [usage_insert]
      simp only [insertFields, List.mem_cons, List.mem_append] at member
      rcases member with same | same | right | minor
      · exact .inl same
      · exact .inr (.inl same)
      · obtain ⟨r, head, rfl⟩ := mem_rightLink.mp right
        have := rights r (List.mem_of_head? head)
        exact .inr (.inr this.1)
      · have := (minor_range f minor).1
        exact .inr (.inr (by omega))
    · exact first_append cs (c :: ds) 0
    · intro some
      obtain ⟨d, rest, rfl⟩ := List.exists_cons_of_ne_nil some
      rw [split]
      rfl
  · refine chunks_before written orderLeft (fun d member => (lefts d member).1) (.tail _ (.head _)) (fun f member => ?_)
      left
    simp only [insertFields, List.mem_cons, List.mem_append] at member
    rcases member with rfl | same | right | minor
    · exact .inr fun d member => elsewhere_usage (lefts d member).1
    · exact .inl same
    · refine .inr fun d member => elsewhere_right (fun r head => .inr ?_) f right
      exact across d member r (List.mem_of_head? head)
    · exact .inr fun d member => elsewhere_minor (.inr (lefts d member).2) f minor
  · intro f member
    exact written.holds f (.tail _ (.tail _ (List.mem_append_right _ member)))
  · refine chunks_after written orderRight (fun f member => by simp [insertFields, member]) (fun f member => ?_) right
    simp only [insertFields, List.mem_cons, List.mem_append] at member
    rcases member with rfl | rfl | right | minor
    · exact .inr fun d member => elsewhere_usage (rights d member).1
    · refine .inr fun d member => elsewhere_left (rights d member).1 fun l last => .inl ?_
      exact across l (List.mem_of_getLast? last) d member
    · exact .inl right
    · exact .inr fun d member => elsewhere_minor (.inl (rights d member).2) f minor

/-- The stores that put a chunk in share no bytes. -/
theorem separate_insertFields (split : b.chunks = cs ++ ds) (gap : Gap b.place b.pages cs c ds) :
    Separate (insertFields b cs c ds) := by
  obtain ⟨lefts, rights, across⟩ := gap.sides split
  have low := gap.low
  have minor : ∀ f ∈ minorFields b.place c (last Chunk.place 0 cs) (first Chunk.place ds 0),
      c.place ≤ f.at_ ∧ f.at_ + f.width ≤ c.user := minor_range
  have right : ∀ f ∈ rightLink ds c.place, c.stop ≤ f.at_ := by
    intro f member
    obtain ⟨r, head, rfl⟩ := mem_rightLink.mp member
    exact (rights r (List.mem_of_head? head)).2
  have left : b.place + 28 ≤ (leftLink b.place cs c.place).at_ ∧
      (leftLink b.place cs c.place).at_ + (leftLink b.place cs c.place).width ≤ c.place := by
    rcases leftLink_cases b.place cs c.place with ⟨rfl, link⟩ | ⟨others, l, rfl, link⟩
    · rw [link]
      simp only []
      omega
    · have := lefts l (by simp)
      have := l.user_low
      have := l.user_stop
      rw [link]
      simp only []
      omega
  have stop := c.user_stop
  have start := c.user_low
  refine separate_of_pairwise (List.pairwise_cons.mpr ⟨?_, List.pairwise_cons.mpr ⟨?_, List.pairwise_append.mpr ⟨?_, ?_, ?_⟩⟩⟩)
  · intro f member
    rw [Field.Apart]
    simp only [List.mem_cons, List.mem_append] at member
    rcases member with rfl | member | member
    · exact .inl left.1
    · have := right f member
      exact .inl (by simp only []; omega)
    · have := minor f member
      exact .inl (by simp only []; omega)
  · intro f member
    rw [Field.Apart]
    rcases List.mem_append.mp member with member | member
    · have := right f member
      exact .inl (by omega)
    · have := minor f member
      exact .inl (by omega)
  · cases ds <;> simp [rightLink]
  · exact pairwise_minorFields _ _ _ _
  · intro f member g other
    have := right f member
    have := minor g other
    rw [Field.Apart]
    omega

end

/-! ## Taking out -/

section
variable {M M' : Memory} {prev next : Nat} {b : Block} {c : Chunk} {cs ds : List Chunk}

theorem usage_remove (split : b.chunks = cs ++ c :: ds) : (b.remove split).usage + (40 + c.size) = b.usage := by
  rw [Block.usage, Block.usage, split, Block.remove, taken_append, taken_append, taken_cons]
  omega

/-- A chunk with its sides. -/
theorem sides_of_split (split : b.chunks = cs ++ c :: ds) :
    (∀ d ∈ cs, b.place + 40 ≤ d.place ∧ d.stop ≤ c.place) ∧ (∀ d ∈ ds, b.place + 40 ≤ d.place ∧ c.stop ≤ d.place) ∧
      (∀ d ∈ cs, ∀ e ∈ ds, d.stop ≤ e.place) ∧ b.place + 40 ≤ c.place ∧ c.stop ≤ b.stop := by
  have tidy := b.tidy
  rw [split] at tidy
  obtain ⟨_, right, across⟩ := List.pairwise_append.mp tidy.order
  refine ⟨fun d member => ⟨(tidy.inside d (List.mem_append_left _ member)).1, across d member c (.head _)⟩,
    fun d member => ⟨(tidy.inside d (by simp [member])).1, (List.pairwise_cons.mp right).1 d member⟩,
    fun d member e other => across d member e (.tail _ other), tidy.inside c (by simp)⟩

theorem BlockAt.remove (here : BlockAt M b prev next) (split : b.chunks = cs ++ c :: ds)
    (written : Written (removeFields b cs c ds) M M') : BlockAt M' (b.remove split) prev next := by
  obtain ⟨lefts, rights, across, low, _⟩ := sides_of_split split
  have order := b.tidy.order
  rw [split] at order
  obtain ⟨orderLeft, orderRight, _⟩ := List.pairwise_append.mp order
  have chunks := here.chunks
  rw [ChunksAt, split] at chunks
  obtain ⟨left, _, right⟩ := chain_middle.mp chunks
  have usage : b.usage - (40 + c.size) = (b.remove split).usage := by
    have := usage_remove split
    omega
  have dead : ∀ d : Chunk, d.stop ≤ c.place ∨ c.stop ≤ d.place → Elsewhere d ⟨c.place + 24, 4, LIBALLOC_DEAD.toNat⟩ := by
    intro d apart
    have := c.user_low
    have := c.user_stop
    have := d.user_stop
    rw [Elsewhere]
    simp only []
    omega
  refine ⟨?_, chain_append.mpr ⟨?_, ?_⟩⟩
  · refine record_changed b (b.remove split) cs (first Chunk.place ds 0) written rfl rfl ?_
      (by simp [removeFields]) (fun f member => ?_) (fun d member => (lefts d member).1) ?_ ?_ here.record
    · rw [← usage]
      simp [removeFields]
    · rw [← usage]
      simp only [removeFields, List.mem_cons] at member
      rcases member with same | rfl | same | right
      · exact .inl same
      · exact .inr (.inr (by simp only []; omega))
      · exact .inr (.inl same)
      · obtain ⟨r, head, rfl⟩ := mem_rightLink.mp right
        exact .inr (.inr (rights r (List.mem_of_head? head)).1)
    · exact first_append cs ds 0
    · intro some
      obtain ⟨d, rest, rfl⟩ := List.exists_cons_of_ne_nil some
      rw [split]
      rfl
  · refine chunks_before written orderLeft (fun d member => (lefts d member).1) (.tail _ (.tail _ (.head _)))
      (fun f member => ?_) left
    simp only [removeFields, List.mem_cons] at member
    rcases member with rfl | rfl | same | right
    · exact .inr fun d member => elsewhere_usage (lefts d member).1
    · exact .inr fun d member => dead d (.inl (lefts d member).2)
    · exact .inl same
    · refine .inr fun d member => elsewhere_right (fun r head => .inr ?_) f right
      exact across d member r (List.mem_of_head? head)
  · refine chunks_after written (List.pairwise_cons.mp orderRight).2 (fun f member => by simp [removeFields, member])
      (fun f member => ?_) right
    simp only [removeFields, List.mem_cons] at member
    rcases member with rfl | rfl | rfl | right
    · exact .inr fun d member => elsewhere_usage (rights d member).1
    · exact .inr fun d member => dead d (.inr (rights d member).2)
    · refine .inr fun d member => elsewhere_left (rights d member).1 fun l last => .inl ?_
      exact across l (List.mem_of_getLast? last) d member
    · exact .inl right

/-- The stores that take a chunk out share no bytes. -/
theorem separate_removeFields (split : b.chunks = cs ++ c :: ds) : Separate (removeFields b cs c ds) := by
  obtain ⟨lefts, rights, across, low, _⟩ := sides_of_split split
  have stop := c.user_stop
  have start := c.user_low
  have right : ∀ f ∈ rightLink ds (last Chunk.place 0 cs), c.stop ≤ f.at_ := by
    intro f member
    obtain ⟨r, head, rfl⟩ := mem_rightLink.mp member
    exact (rights r (List.mem_of_head? head)).2
  have left : b.place + 28 ≤ (leftLink b.place cs (first Chunk.place ds 0)).at_ ∧
      (leftLink b.place cs (first Chunk.place ds 0)).at_ + (leftLink b.place cs (first Chunk.place ds 0)).width ≤ c.place := by
    rcases leftLink_cases b.place cs (first Chunk.place ds 0) with ⟨rfl, link⟩ | ⟨others, l, rfl, link⟩
    · rw [link]
      simp only []
      omega
    · have := lefts l (by simp)
      have := l.user_low
      have := l.user_stop
      rw [link]
      simp only []
      omega
  refine separate_of_pairwise (List.pairwise_cons.mpr ⟨?_, List.pairwise_cons.mpr ⟨?_, List.pairwise_cons.mpr ⟨?_, ?_⟩⟩⟩)
  · intro f member
    rw [Field.Apart]
    simp only [List.mem_cons] at member
    rcases member with rfl | rfl | member
    · exact .inl (by simp only []; omega)
    · exact .inl left.1
    · have := right f member
      exact .inl (by simp only []; omega)
  · intro f member
    rw [Field.Apart]
    simp only [List.mem_cons] at member
    rcases member with rfl | member
    · exact .inr (by simp only []; omega)
    · have := right f member
      exact .inl (by simp only []; omega)
  · intro f member
    have := right f member
    rw [Field.Apart]
    exact .inl (by omega)
  · cases ds <;> simp [rightLink]

end

end Extron.Liballoc
