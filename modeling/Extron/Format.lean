import Extron.Multiboot

/-!
Well-formed multiboot2 blocks, as lists of tags, and the walks over them. A walk
over a block that holds the tags `tags` runs its body on each of them in order, as
long as the body leaves the bytes of the block as they are.
-/
namespace Extron.Format
open Extron.Multiboot Extron.Outcomes
set_option linter.unusedSimpArgs false

structure Entry where
  addr : UInt64
  len : UInt64
  type : UInt32
deriving DecidableEq, Repr

/-- The end of the region of an entry. -/
def Entry.stop (x : Entry) : Nat := x.addr.toNat + x.len.toNat

def Entry.Available (x : Entry) : Prop := x.type = MULTIBOOT_MEMORY_AVAILABLE

instance (x : Entry) : Decidable x.Available := inferInstanceAs (Decidable (_ = _))

/-- What the kernel takes from a tag. -/
inductive Tag
  | module (start stop : UInt32)
  | mmap (entries : List Entry)
  | elf (sections : List Elf64Shdr)
  | other
deriving DecidableEq, Repr

/-- The entries that lie one after the other, `step` bytes apart, from an address
    up to `stop`. -/
inductive EntriesAt (s : State) (step stop : UInt64) : UInt64 → List Entry → Prop
  | done : EntriesAt s step stop stop []
  | more {e : UInt64} {x : Entry} {rest : List Entry} (addr : entry_addr s e = x.addr) (len : entry_len s e = x.len)
      (type : entry_type s e = x.type) (wide : 24 ≤ step.toNat) (fits : e.toNat + step.toNat ≤ stop.toNat)
      (tail : EntriesAt s step stop (e + step) rest) : EntriesAt s step stop e (x :: rest)

/-- The tag at an address says what is given. -/
inductive Describes (s : State) (tag : UInt64) : Tag → Prop
  | module {start stop : UInt32} (type : tag_type s tag = MULTIBOOT_TAG_TYPE_MODULE) (size : 16 ≤ (tag_size s tag).toNat)
      (first : mod_start s tag = start) (last : mod_end s tag = stop) : Describes s tag (.module start stop)
  | mmap {entries : List Entry} (type : tag_type s tag = MULTIBOOT_TAG_TYPE_MMAP) (size : 16 ≤ (tag_size s tag).toNat)
      (content : EntriesAt s (mmap_entry_size s tag).toUInt64 (tag + (tag_size s tag).toUInt64) (mmap_entries tag)
        entries) : Describes s tag (.mmap entries)
  | elf {sections : List Elf64Shdr} (type : tag_type s tag = MULTIBOOT_TAG_TYPE_ELF_SECTIONS)
      (size : 20 + 64 * (elf_num s tag).toNat ≤ (tag_size s tag).toNat)
      (content : sections = (List.range (elf_num s tag).toNat).map (section_header s (elf_sections tag))) :
      Describes s tag (.elf sections)
  | other (notEnd : tag_type s tag ≠ MULTIBOOT_TAG_TYPE_END) (notModule : tag_type s tag ≠ MULTIBOOT_TAG_TYPE_MODULE)
      (notMmap : tag_type s tag ≠ MULTIBOOT_TAG_TYPE_MMAP) (notElf : tag_type s tag ≠ MULTIBOOT_TAG_TYPE_ELF_SECTIONS) :
      Describes s tag .other

/-- The size of a tag with its padding. -/
def padded (size : Nat) : Nat := (size + 7) / 8 * 8

/-- The tags from an address up to the END tag, all below `limit`. -/
inductive TagsAt (s : State) (limit : Nat) : UInt64 → List Tag → Prop
  | stop {tag : UInt64} (type : tag_type s tag = MULTIBOOT_TAG_TYPE_END) (inside : tag.toNat + 8 ≤ limit) :
      TagsAt s limit tag []
  | more {tag : UInt64} {t : Tag} {rest : List Tag} (head : Describes s tag t) (wide : 8 ≤ (tag_size s tag).toNat)
      (size : (tag_size s tag).toNat + 7 < 2 ^ 32) (inside : tag.toNat + padded (tag_size s tag).toNat ≤ limit)
      (tail : TagsAt s limit (tag + UInt64.ofNat (padded (tag_size s tag).toNat)) rest) : TagsAt s limit tag (t :: rest)

/-- The multiboot2 block at an address holds the given tags: its total size comes
    first, then 4 reserved bytes, then the tags. -/
structure Block (s : State) (mb2_addr : UInt64) (tags : List Tag) : Prop where
  tagsAt : TagsAt s (mb2_addr.toNat + (s.read32 mb2_addr).toNat) (mb2_addr + 8) tags
  bound : mb2_addr.toNat + (s.read32 mb2_addr).toNat < 2 ^ 64
  header : mb2_addr.toNat + 8 < 2 ^ 64

/-! ## Whether a block holds given tags can be decided -/

section
variable {s : State} {step stop e tag : UInt64} {limit : Nat}

theorem entriesAt_nil : EntriesAt s step stop e [] ↔ e = stop := by
  constructor
  · intro here
    cases here with
    | done => rfl
  · rintro rfl
    exact .done

theorem entriesAt_cons {x : Entry} {rest : List Entry} : EntriesAt s step stop e (x :: rest) ↔
    (entry_addr s e = x.addr ∧ entry_len s e = x.len ∧ entry_type s e = x.type) ∧ 24 ≤ step.toNat ∧
      e.toNat + step.toNat ≤ stop.toNat ∧ EntriesAt s step stop (e + step) rest := by
  constructor
  · intro here
    cases here with
    | more addr len type wide fits tail => exact ⟨⟨addr, len, type⟩, wide, fits, tail⟩
  · rintro ⟨⟨addr, len, type⟩, wide, fits, tail⟩
    exact .more addr len type wide fits tail

instance decidableEntriesAt : ∀ e entries, Decidable (EntriesAt s step stop e entries)
  | _, [] => decidable_of_iff _ entriesAt_nil.symm
  | e, _ :: rest =>
    have := decidableEntriesAt (e + step) rest
    decidable_of_iff _ entriesAt_cons.symm

theorem describes_module {first last : UInt32} : Describes s tag (.module first last) ↔
    tag_type s tag = MULTIBOOT_TAG_TYPE_MODULE ∧ 16 ≤ (tag_size s tag).toNat ∧ mod_start s tag = first ∧ mod_end s tag = last := by
  constructor
  · intro here
    cases here with
    | module type size start stop => exact ⟨type, size, start, stop⟩
  · rintro ⟨type, size, start, stop⟩
    exact .module type size start stop

theorem describes_mmap {entries : List Entry} : Describes s tag (.mmap entries) ↔
    tag_type s tag = MULTIBOOT_TAG_TYPE_MMAP ∧ 16 ≤ (tag_size s tag).toNat ∧
      EntriesAt s (mmap_entry_size s tag).toUInt64 (tag + (tag_size s tag).toUInt64) (mmap_entries tag) entries := by
  constructor
  · intro here
    cases here with
    | mmap type size content => exact ⟨type, size, content⟩
  · rintro ⟨type, size, content⟩
    exact .mmap type size content

theorem describes_elf {sections : List Elf64Shdr} : Describes s tag (.elf sections) ↔
    tag_type s tag = MULTIBOOT_TAG_TYPE_ELF_SECTIONS ∧ 20 + 64 * (elf_num s tag).toNat ≤ (tag_size s tag).toNat ∧
      sections = (List.range (elf_num s tag).toNat).map (section_header s (elf_sections tag)) := by
  constructor
  · intro here
    cases here with
    | elf type size content => exact ⟨type, size, content⟩
  · rintro ⟨type, size, content⟩
    exact .elf type size content

theorem describes_other : Describes s tag .other ↔
    tag_type s tag ≠ MULTIBOOT_TAG_TYPE_END ∧ tag_type s tag ≠ MULTIBOOT_TAG_TYPE_MODULE ∧
      tag_type s tag ≠ MULTIBOOT_TAG_TYPE_MMAP ∧ tag_type s tag ≠ MULTIBOOT_TAG_TYPE_ELF_SECTIONS := by
  constructor
  · intro here
    cases here with
    | other notEnd notModule notMmap notElf => exact ⟨notEnd, notModule, notMmap, notElf⟩
  · rintro ⟨notEnd, notModule, notMmap, notElf⟩
    exact .other notEnd notModule notMmap notElf

instance decidableDescribes : ∀ t, Decidable (Describes s tag t)
  | .module _ _ => decidable_of_iff _ describes_module.symm
  | .mmap _ => decidable_of_iff _ describes_mmap.symm
  | .elf _ => decidable_of_iff _ describes_elf.symm
  | .other => decidable_of_iff _ describes_other.symm

theorem tagsAt_nil : TagsAt s limit tag [] ↔ tag_type s tag = MULTIBOOT_TAG_TYPE_END ∧ tag.toNat + 8 ≤ limit := by
  constructor
  · intro here
    cases here with
    | stop type inside => exact ⟨type, inside⟩
  · rintro ⟨type, inside⟩
    exact .stop type inside

theorem tagsAt_cons {t : Tag} {rest : List Tag} : TagsAt s limit tag (t :: rest) ↔
    Describes s tag t ∧ 8 ≤ (tag_size s tag).toNat ∧ (tag_size s tag).toNat + 7 < 2 ^ 32 ∧
      tag.toNat + padded (tag_size s tag).toNat ≤ limit ∧
      TagsAt s limit (tag + UInt64.ofNat (padded (tag_size s tag).toNat)) rest := by
  constructor
  · intro here
    cases here with
    | more head wide size inside tail => exact ⟨head, wide, size, inside, tail⟩
  · rintro ⟨head, wide, size, inside, tail⟩
    exact .more head wide size inside tail

instance decidableTagsAt : ∀ tag tags, Decidable (TagsAt s limit tag tags)
  | _, [] => decidable_of_iff _ tagsAt_nil.symm
  | tag, _ :: rest =>
    have := decidableTagsAt (tag + UInt64.ofNat (padded (tag_size s tag).toNat)) rest
    decidable_of_iff _ tagsAt_cons.symm

instance (mb2_addr : UInt64) (tags : List Tag) : Decidable (Block s mb2_addr tags) :=
  decidable_of_iff (TagsAt s (mb2_addr.toNat + (s.read32 mb2_addr).toNat) (mb2_addr + 8) tags ∧
    mb2_addr.toNat + (s.read32 mb2_addr).toNat < 2 ^ 64 ∧ mb2_addr.toNat + 8 < 2 ^ 64)
    ⟨fun ⟨tagsAt, bound, header⟩ => ⟨tagsAt, bound, header⟩, fun block => ⟨block.tagsAt, block.bound, block.header⟩⟩

end

/-! ## Agreement of two states on a block -/

/-- The bytes below `limit` are the same. -/
def Agrees (s s' : State) (limit : Nat) : Prop := ∀ va : UInt64, va.toNat < limit → s'.byte va = s.byte va

theorem Agrees.refl (s : State) (limit : Nat) : Agrees s s limit := fun _ _ => rfl

theorem Agrees.trans {s t u : State} {limit : Nat} (first : Agrees s t limit) (second : Agrees t u limit) :
    Agrees s u limit :=
  fun va inside => (second va inside).trans (first va inside)

theorem Agrees.mono {s s' : State} {limit low : Nat} (agree : Agrees s s' limit) (le : low ≤ limit) :
    Agrees s s' low :=
  fun va inside => agree va (lt_of_lt_of_le inside le)

theorem toNat_offset {va k : UInt64} {limit : Nat} (whole : limit ≤ 2 ^ 64) (inside : va.toNat + k.toNat < limit) :
    (va + k).toNat = va.toNat + k.toNat := by
  rw [UInt64.toNat_add]
  omega

theorem read32_agrees {s s' : State} {limit : Nat} (agree : Agrees s s' limit) (whole : limit ≤ 2 ^ 64) {va : UInt64}
    (inside : va.toNat + 4 ≤ limit) : s'.read32 va = s.read32 va := by
  have byte : ∀ k : UInt64, k.toNat < 4 → s'.byte (va + k) = s.byte (va + k) := by
    intro k small
    apply agree
    rw [toNat_offset whole (by omega)]
    omega
  have first : s'.byte va = s.byte va := agree va (by omega)
  rw [State.read32, State.read32, first, byte 1 (by decide), byte 2 (by decide), byte 3 (by decide)]

theorem read64_agrees {s s' : State} {limit : Nat} (agree : Agrees s s' limit) (whole : limit ≤ 2 ^ 64) {va : UInt64}
    (inside : va.toNat + 8 ≤ limit) : s'.read64 va = s.read64 va := by
  have second : (va + 4).toNat = va.toNat + 4 := toNat_offset whole (k := 4) (by simp; omega)
  rw [State.read64, State.read64, read32_agrees agree whole (by omega), read32_agrees agree whole (by omega)]

/-- The word at an offset into a block agrees. -/
theorem field32_agrees {s s' : State} {limit : Nat} (agree : Agrees s s' limit) (whole : limit ≤ 2 ^ 64)
    {va k : UInt64} (inside : va.toNat + k.toNat + 4 ≤ limit) : s'.read32 (va + k) = s.read32 (va + k) :=
  read32_agrees agree whole (by rw [toNat_offset whole (by omega)]; exact inside)

theorem field64_agrees {s s' : State} {limit : Nat} (agree : Agrees s s' limit) (whole : limit ≤ 2 ^ 64)
    {va k : UInt64} (inside : va.toNat + k.toNat + 8 ≤ limit) : s'.read64 (va + k) = s.read64 (va + k) :=
  read64_agrees agree whole (by rw [toNat_offset whole (by omega)]; exact inside)

section
variable {s s' : State} {limit : Nat} (agree : Agrees s s' limit) (whole : limit ≤ 2 ^ 64)
include agree whole

theorem tag_type_agrees {tag : UInt64} (inside : tag.toNat + 8 ≤ limit) : tag_type s' tag = tag_type s tag :=
  read32_agrees agree whole (by omega)

theorem tag_size_agrees {tag : UInt64} (inside : tag.toNat + 8 ≤ limit) : tag_size s' tag = tag_size s tag :=
  field32_agrees agree whole (k := 4) (by simpa using inside)

theorem entry_agrees {e : UInt64} (inside : e.toNat + 24 ≤ limit) :
    entry_addr s' e = entry_addr s e ∧ entry_len s' e = entry_len s e ∧ entry_type s' e = entry_type s e :=
  ⟨read64_agrees agree whole (by omega), field64_agrees agree whole (k := 8) (by simp; omega),
    field32_agrees agree whole (k := 16) (by simp; omega)⟩

end

/-! ## Walks over well-formed blocks -/

theorem entriesAt_length {s : State} {step stop e : UInt64} {entries : List Entry}
    (content : EntriesAt s step stop e entries) : e.toNat + 24 * entries.length ≤ stop.toNat := by
  induction content with
  | done => simp
  | @more e x rest _ _ _ wide fits tail ih =>
    have next : (e + step).toNat = e.toNat + step.toNat ∨ e.toNat + step.toNat = 2 ^ 64 := by
      have := stop.toNat_lt
      rw [UInt64.toNat_add]
      omega
    have bound := stop.toNat_lt
    simp only [List.length_cons]
    omega

theorem tagsAt_inside {s : State} {limit : Nat} {tag : UInt64} {tags : List Tag} (content : TagsAt s limit tag tags) :
    tag.toNat + 8 ≤ limit := by
  cases content with
  | stop _ inside => exact inside
  | more _ wide _ inside _ =>
    unfold padded at inside
    omega

theorem next_tag {s : State} {limit : Nat} {tag : UInt64} (whole : limit < 2 ^ 64)
    (inside : tag.toNat + padded (tag_size s tag).toNat ≤ limit) :
    (tag + UInt64.ofNat (padded (tag_size s tag).toNat)).toNat = tag.toNat + padded (tag_size s tag).toNat := by
  rw [UInt64.toNat_add, UInt64.toNat_ofNat']
  omega

theorem tagsAt_length {s : State} {limit : Nat} (whole : limit < 2 ^ 64) {tag : UInt64} {tags : List Tag}
    (content : TagsAt s limit tag tags) : tag.toNat + 8 * tags.length + 8 ≤ limit := by
  induction content with
  | stop _ inside => simpa using inside
  | @more tag t rest _ wide _ inside _ ih =>
    rw [next_tag whole inside] at ih
    unfold padded at ih
    simp only [List.length_cons]
    omega

/-- A block holds at least its header and the END tag. -/
theorem Block.header_size {s : State} {mb2_addr : UInt64} {tags : List Tag} (block : Block s mb2_addr tags) :
    16 ≤ (s.read32 mb2_addr).toNat := by
  have inside := tagsAt_inside block.tagsAt
  have header := block.header
  have next : (mb2_addr + 8).toNat = mb2_addr.toNat + 8 := by
    rw [UInt64.toNat_add]
    simp
    omega
  omega

/-- The 32-bit rounding of `mb2_next` pads the size to 8 bytes. -/
theorem round_up (size : UInt32) (small : size.toNat + 7 < 2 ^ 32) :
    ((size + 7) &&& ~~~7).toUInt64 = UInt64.ofNat (padded size.toNat) := by
  have sum : (size + 7).toNat = size.toNat + 7 := by
    rw [UInt32.toNat_add]
    simp
    omega
  have high : (~~~(7 : UInt32)).toNat = 2 ^ 32 - 2 ^ 3 := by decide
  have masked : ((size + 7) &&& ~~~7).toNat = padded size.toNat := by
    rw [UInt32.toNat_and, high, Words.land_field _ (by decide), sum, Nat.mod_eq_of_lt small, padded]
    norm_num
  apply UInt64.toNat_inj.mp
  have bound : padded size.toNat < 2 ^ 64 := by unfold padded; omega
  rw [UInt32.toNat_toUInt64, masked, UInt64.toNat_ofNat', Nat.mod_eq_of_lt bound]

theorem mb2_next_eq {s : State} {tag : UInt64} (small : (tag_size s tag).toNat + 7 < 2 ^ 32) :
    mb2_next s tag = tag + UInt64.ofNat (padded (tag_size s tag).toNat) := by
  rw [mb2_next, round_up _ small]

section
variable {s₀ : State} {limit : Nat} {E : Halt → State → Prop}

/-- The walk over memory-map entries visits exactly the entries of the tag, in order. -/
theorem post_walk_entries {P : List Entry → State → Prop} (body : UInt64 → Kernel Unit) {tag : UInt64}
    (whole : limit < 2 ^ 64) (inside : tag.toNat + (tag_size s₀ tag).toNat ≤ limit) (size : 16 ≤ (tag_size s₀ tag).toNat)
    (agree : ∀ done s, P done s → Agrees s₀ s limit)
    (round : ∀ done x e s, P done s → entry_addr s e = x.addr → entry_len s e = x.len → entry_type s e = x.type →
      Post (fun _ => P (done ++ [x])) E (body e s))
    {e : UInt64} {entries : List Entry}
    (content : EntriesAt s₀ (mmap_entry_size s₀ tag).toUInt64 (tag + (tag_size s₀ tag).toUInt64) e entries)
    {rounds : Nat} (enough : entries.length < rounds) (done : List Entry) {s : State} (here : P done s) :
    Post (fun _ => P (done ++ entries)) E (walk_entries body tag rounds e s) := by
  have stopAt : (tag + (tag_size s₀ tag).toUInt64).toNat = tag.toNat + (tag_size s₀ tag).toNat := by
    rw [UInt64.toNat_add, UInt32.toNat_toUInt64]
    omega
  have sizeSame : ∀ done s, P done s → tag_size s tag = tag_size s₀ tag := fun done s here =>
    tag_size_agrees (agree done s here) whole.le (by omega)
  have stepSame : ∀ done s, P done s → mmap_entry_size s tag = mmap_entry_size s₀ tag := fun done s here =>
    field32_agrees (agree done s here) whole.le (k := 8) (by simp; omega)
  induction content generalizing rounds done s with
  | done =>
    cases rounds with
    | zero => omega
    | succ rounds =>
      have past : ¬ tag + (tag_size s₀ tag).toUInt64 < tag + (tag_size s tag).toUInt64 := by
        rw [sizeSame done s here]
        exact UInt64.lt_irrefl _
      simp only [walk_entries, get_bind, if_neg past, List.append_nil]
      exact here
  | @more e x rest addr len type wide fits tail ih =>
    cases rounds with
    | zero => simp at enough
    | succ rounds =>
      have below : e < tag + (tag_size s tag).toUInt64 := by
        rw [sizeSame done s here, UInt64.lt_iff_toNat_lt]
        omega
      simp only [walk_entries, get_bind, if_pos below]
      apply post_bind
      obtain ⟨sameAddr, sameLen, sameType⟩ := entry_agrees (agree done s here) whole.le (e := e) (by omega)
      have first := round done x e s here (by rw [sameAddr, addr]) (by rw [sameLen, len]) (by rw [sameType, type])
      refine first.mono ?_ (fun _ _ stopped => stopped)
      intro _ mid after
      simp only [get_bind]
      rw [stepSame _ mid after]
      have rest := @ih rounds (by simpa using enough) (done ++ [x]) mid after
      simpa using rest

/-- The walk over tags visits exactly the tags of the block, in order. -/
theorem post_walk_tags {α : Type} {P : List Tag → α → State → Prop} (body : UInt64 → α → Kernel α)
    (whole : limit < 2 ^ 64) (agree : ∀ done acc s, P done acc s → Agrees s₀ s limit)
    (round : ∀ done t tag acc s, P done acc s → Describes s₀ tag t → tag.toNat + 8 ≤ limit →
      tag.toNat + padded (tag_size s₀ tag).toNat ≤ limit →
      Post (fun acc => P (done ++ [t]) acc) E (body tag acc s))
    {tag : UInt64} {tags : List Tag} (content : TagsAt s₀ limit tag tags) {rounds : Nat}
    (enough : tags.length < rounds) (done : List Tag) (acc : α) {s : State} (here : P done acc s) :
    Post (fun acc => P (done ++ tags) acc) E (walk_tags body rounds tag acc s) := by
  induction content generalizing rounds done acc s with
  | @stop tag type inside =>
    cases rounds with
    | zero => omega
    | succ rounds =>
      have past : tag_type s tag = MULTIBOOT_TAG_TYPE_END := by
        rw [tag_type_agrees (agree done acc s here) whole.le inside, type]
      simp only [walk_tags, get_bind, if_pos past, List.append_nil]
      exact here
  | @more tag t rest head wide small inside tail ih =>
    cases rounds with
    | zero => simp at enough
    | succ rounds =>
      have room : tag.toNat + 8 ≤ limit := by
        unfold padded at inside
        omega
      have going : tag_type s tag ≠ MULTIBOOT_TAG_TYPE_END := by
        rw [tag_type_agrees (agree done acc s here) whole.le room]
        cases head with
        | module type => rw [type]; decide
        | mmap type => rw [type]; decide
        | elf type => rw [type]; decide
        | other notEnd => exact notEnd
      simp only [walk_tags, get_bind, if_neg going]
      apply post_bind
      refine (round done t tag acc s here head room inside).mono ?_ (fun _ _ stopped => stopped)
      intro acc mid after
      have sizeSame := tag_size_agrees (agree _ _ mid after) whole.le room
      simp only [get_bind]
      rw [mb2_next_eq (by rw [sizeSame]; exact small), sizeSame]
      have rest := @ih rounds (by simpa using enough) (done ++ [t]) acc mid after
      simpa using rest

end

end Extron.Format
