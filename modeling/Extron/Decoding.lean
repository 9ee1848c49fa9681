import Extron.Encoding
import Extron.Placement

/-!
The walks decode what the format encodes. On an encoded block they end, they read
within the block only, and they make a round for each tag and each memory-map entry
in order.
-/
namespace Extron.Decoding
open Extron.Multiboot Extron.Pmm Extron.Format Extron.InitPmm Extron.FreeSet Extron.Placement
open Extron.Footprint Extron.Walks Extron.Encoding Extron.Outcomes
set_option linter.unusedSimpArgs false

/-- The address of a byte of the block. -/
def Within (start limit : Nat) (a : UInt64) : Prop := start ≤ a.toNat ∧ a.toNat < limit

section
variable {start limit : Nat} {s s₀ : State} {α : Type}

/-! ## Reads -/

section
variable {β : Type} {f : β → Walk α} {visits : List Visit} {Q : α → State → Prop}

theorem within_word (whole : limit < 2 ^ 64) {a : UInt64} (low : start ≤ a.toNat) (room : a.toNat + 4 ≤ limit) :
    ∀ place ∈ [a, a + 1, a + 2, a + 3], Within start limit place := by
  have offset : ∀ k : UInt64, k.toNat < 4 → Within start limit (a + k) := by
    intro k small
    rw [Within, toNat_offset whole.le (by omega)]
    omega
  intro place member
  simp only [List.mem_cons, List.not_mem_nil, or_false] at member
  rcases member with rfl | rfl | rfl | rfl
  · exact ⟨low, by omega⟩
  · exact offset 1 (by decide)
  · exact offset 2 (by decide)
  · exact offset 3 (by decide)

theorem meets_read32 {a : UInt64} {x : UInt32} {f : UInt32 → Walk α} (whole : limit < 2 ^ 64) (low : start ≤ a.toNat)
    (room : a.toNat + 4 ≤ limit) (value : s.read32 a = x) (rest : Meets (Within start limit) (f x) s visits Q) :
    Meets (Within start limit) (read32 a >>= f) s visits Q := by
  rw [← value] at rest
  exact meets_look (within_word whole low room) rest

theorem meets_field32 {a k : UInt64} {x : UInt32} {f : UInt32 → Walk α} (whole : limit < 2 ^ 64) (low : start ≤ a.toNat)
    (room : a.toNat + k.toNat + 4 ≤ limit) (value : s.read32 (a + k) = x)
    (rest : Meets (Within start limit) (f x) s visits Q) :
    Meets (Within start limit) (read32 (a + k) >>= f) s visits Q := by
  have place : (a + k).toNat = a.toNat + k.toNat := toNat_offset whole.le (by omega)
  exact meets_read32 whole (by omega) (by omega) value rest

theorem meets_read64 {a : UInt64} {x : UInt64} {f : UInt64 → Walk α} (whole : limit < 2 ^ 64) (low : start ≤ a.toNat)
    (room : a.toNat + 8 ≤ limit) (value : s.read64 a = x) (rest : Meets (Within start limit) (f x) s visits Q) :
    Meets (Within start limit) (read64 a >>= f) s visits Q := by
  have second : (a + 4).toNat = a.toNat + 4 := toNat_offset (k := 4) whole.le (by simp; omega)
  rw [← value] at rest
  refine meets_look ?_ rest
  intro place member
  have halves : place ∈ [a, a + 1, a + 2, a + 3] ++ [a + 4, a + 4 + 1, a + 4 + 2, a + 4 + 3] := member
  rcases List.mem_append.mp halves with early | late
  · exact within_word whole low (by omega) place early
  · exact within_word whole (by omega) (by omega) place late

theorem meets_field64 {a k : UInt64} {x : UInt64} {f : UInt64 → Walk α} (whole : limit < 2 ^ 64) (low : start ≤ a.toNat)
    (room : a.toNat + k.toNat + 8 ≤ limit) (value : s.read64 (a + k) = x)
    (rest : Meets (Within start limit) (f x) s visits Q) :
    Meets (Within start limit) (read64 (a + k) >>= f) s visits Q := by
  have place : (a + k).toNat = a.toNat + k.toNat := toNat_offset whole.le (by omega)
  exact meets_read64 whole (by omega) (by omega) value rest

end

/-! ## Fields of an encoded tag -/

theorem tag_header {t : PaddedTag} {tag : UInt64} (holds : Holds s tag t.bytes) :
    s.read32 tag = t.content.type ∧ s.read32 (tag + 4) = UInt32.ofNat t.size ∧
      Holds s (tag + 8) (t.content.payload ++ t.padding) := by
  obtain ⟨type, later⟩ := holds_word holds
  obtain ⟨size, later⟩ := holds_word later
  have eight : tag + 4 + 4 = tag + 8 := UInt64.add_assoc tag 4 4
  rw [eight] at later
  exact ⟨type, size, later⟩

/-- The two words that follow the size in a tag of a known type but ELF sections. -/
theorem tag_words {tag : UInt64} {x y : UInt32} {more : List UInt8} (holds : Holds s (tag + 8) (le32 x ++ (le32 y ++ more))) :
    s.read32 (tag + 8) = x ∧ s.read32 (tag + 12) = y ∧ Holds s (tag + 16) more := by
  obtain ⟨first, later⟩ := holds_word holds
  obtain ⟨second, later⟩ := holds_word later
  have twelve : tag + 8 + 4 = tag + 12 := UInt64.add_assoc tag 8 4
  have sixteen : tag + 12 + 4 = tag + 16 := UInt64.add_assoc tag 12 4
  rw [twelve] at second later
  rw [sixteen] at later
  exact ⟨first, second, later⟩

theorem entry_fields {x : MapEntry} {e : UInt64} (holds : Holds s e x.bytes) :
    s.read64 e = x.entry.addr ∧ s.read64 (e + 8) = x.entry.len ∧ s.read32 (e + 16) = x.entry.type := by
  obtain ⟨addr, later⟩ := holds_long holds
  obtain ⟨len, later⟩ := holds_long later
  have sixteen : e + 8 + 8 = e + 16 := UInt64.add_assoc e 8 8
  rw [sixteen] at later
  exact ⟨addr, len, (holds_word later).1⟩

theorem type_ne_end (c : Content) : c.type ≠ MULTIBOOT_TAG_TYPE_END := by
  cases c with
  | module => exact (by decide : MULTIBOOT_TAG_TYPE_MODULE ≠ MULTIBOOT_TAG_TYPE_END)
  | meminfo => exact (by decide : MULTIBOOT_TAG_TYPE_BASIC_MEMINFO ≠ MULTIBOOT_TAG_TYPE_END)
  | mmap => exact (by decide : MULTIBOOT_TAG_TYPE_MMAP ≠ MULTIBOOT_TAG_TYPE_END)
  | elf => exact (by decide : MULTIBOOT_TAG_TYPE_ELF_SECTIONS ≠ MULTIBOOT_TAG_TYPE_END)
  | other type unknown payload => exact fun same => unknown (by simp [knownTypes, ← same, Content.type])

theorem mmap_of_type {t : PaddedTag} (type : t.content.type = MULTIBOOT_TAG_TYPE_MMAP) : ∃ map, t.content = .mmap map := by
  cases content : t.content with
  | mmap map => exact ⟨map, rfl⟩
  | other type' unknown payload =>
    rw [content] at type
    exact absurd (by simp [knownTypes, ← type, Content.type]) unknown
  | _ =>
    rw [content] at type
    cases type

theorem no_entries {t : PaddedTag} (type : t.content.type ≠ MULTIBOOT_TAG_TYPE_MMAP) (a : UInt64) : entryVisits t a = [] := by
  rw [entryVisits]
  split
  · rename_i content
    exact absurd (by rw [content]; rfl) type
  · rfl

theorem module_fields {c : Content} (type : c.type = MULTIBOOT_TAG_TYPE_MODULE) : 8 ≤ c.payload.length := by
  cases c with
  | module =>
    rw [Content.payload]
    simp only [List.length_append, length_le32]
    omega
  | other type' unknown payload => exact absurd (by simp [knownTypes, ← type, Content.type]) unknown
  | _ => cases type

theorem toNat_size {t : PaddedTag} (small : t.bytes.length < 2 ^ 32) : (UInt32.ofNat t.size).toNat = t.size := by
  have length := t.length
  rw [UInt32.toNat_ofNat', Nat.mod_eq_of_lt]
  unfold padded at length
  omega

theorem toUInt64_eq (x : UInt32) : x.toUInt64 = UInt64.ofNat x.toNat := by
  have bound := x.toNat_lt
  apply UInt64.toNat_inj.mp
  rw [UInt32.toNat_toUInt64, UInt64.toNat_ofNat', Nat.mod_eq_of_lt (by omega)]

/-! ## The loops -/

theorem meets_walk_entries {P : List MapEntry → State → Prop} {body : UInt64 → Walk Unit} {map : MemoryMap} {tag : UInt64}
    {size : UInt32} (whole : limit < 2 ^ 64) (low : start ≤ tag.toNat) (fields : 16 ≤ size.toNat)
    (inside : tag.toNat + size.toNat ≤ limit) (sizeAt : s₀.read32 (tag + 4) = size)
    (stepAt : s₀.read32 (tag + 8) = map.entry_size) (keeps : ∀ done s, P done s → Agrees s₀ s limit)
    (round : ∀ done x e s, P done s → Holds s e x.bytes → start ≤ e.toNat → e.toNat + 24 ≤ limit →
      Meets (Within start limit) (body e) s [] fun _ => P (done ++ [x]))
    {entries : List MapEntry} (stride : ∀ x ∈ entries, x.bytes.length = map.entry_size.toNat) {e : UInt64}
    {more : List UInt8} (holds : Holds s₀ e (entries.flatMap MapEntry.bytes ++ more)) (above : start ≤ e.toNat)
    (place : e.toNat + (entries.flatMap MapEntry.bytes).length = tag.toNat + size.toNat) {rounds : Nat}
    (enough : entries.length < rounds) (done : List MapEntry) (here : P done s) :
    Meets (Within start limit) (walk_entries body tag rounds e) s
      ((layout MapEntry.bytes entries e).map fun p => .entry p.2) fun _ => P (done ++ entries) := by
  have stop : (tag + size.toUInt64).toNat = tag.toNat + size.toNat := by
    rw [UInt64.toNat_add, UInt32.toNat_toUInt64]
    omega
  have sizeSame : ∀ done s, P done s → s.read32 (tag + 4) = size := fun done s here =>
    (field32_agrees (keeps done s here) whole.le (k := 4) (by simp; omega)).trans sizeAt
  have stepSame : ∀ done s, P done s → s.read32 (tag + 8) = map.entry_size := fun done s here =>
    (field32_agrees (keeps done s here) whole.le (k := 8) (by simp; omega)).trans stepAt
  induction entries generalizing rounds done s e with
  | nil =>
    cases rounds with
    | zero => omega
    | succ rounds =>
      have past : ¬ e < tag + size.toUInt64 := by
        rw [UInt64.lt_iff_toNat_lt, stop]
        simp at place
        omega
      refine meets_field32 whole low (by simp; omega) (sizeSame done s here) ?_
      rw [if_neg past, List.append_nil]
      exact meets_pure here
  | cons x rest ih =>
    cases rounds with
    | zero => simp at enough
    | succ rounds =>
      have wide := map.wide
      have length := stride x (by simp)
      rw [List.flatMap_cons, List.append_assoc] at holds
      rw [List.flatMap_cons, List.length_append, length] at place
      obtain ⟨first, later⟩ := holds_append.mp holds
      have next : e + UInt64.ofNat x.bytes.length = e + map.entry_size.toUInt64 := by
        rw [length, toUInt64_eq]
      rw [next] at later
      have nextAt : (e + map.entry_size.toUInt64).toNat = e.toNat + map.entry_size.toNat := by
        rw [UInt64.toNat_add, UInt32.toNat_toUInt64]
        omega
      have below : e < tag + size.toUInt64 := by
        rw [UInt64.lt_iff_toNat_lt, stop]
        omega
      refine meets_field32 whole low (by simp; omega) (sizeSame done s here) ?_
      rw [if_pos below]
      refine meets_visit (meets_bind (round done x e s here ?_ above (by omega)) ?_)
      · exact holds_agrees (keeps done s here) whole (by omega) first
      · intro _ mid after
        refine meets_field32 whole low (by simp; omega) (stepSame _ mid after) ?_
        have rest := ih (fun y member => stride y (List.mem_cons_of_mem x member)) later (by omega) (by omega)
          (show rest.length < rounds by simpa using enough) (done ++ [x]) after
        rw [List.append_assoc, ← next] at rest
        rw [← next]
        exact rest

theorem meets_next {β : Type} {f : UInt64 → Walk β} {visits : List Visit} {Q : β → State → Prop} {tag : UInt64} {size : UInt32}
    (whole : limit < 2 ^ 64) (low : start ≤ tag.toNat) (room : tag.toNat + 8 ≤ limit) (sizeAt : s.read32 (tag + 4) = size)
    (rest : Meets (Within start limit) (f (tag + ((size + 7) &&& ~~~7).toUInt64)) s visits Q) :
    Meets (Within start limit) (Walks.mb2_next tag >>= f) s visits Q := by
  show Meets (Within start limit) (read32 (tag + 4) >>= fun size => f (tag + ((size + 7) &&& ~~~7).toUInt64)) s visits Q
  exact meets_field32 whole low (by simp; omega) sizeAt rest

theorem meets_walk_tags {P : List PaddedTag → α → State → Prop} {body : UInt64 → α → Walk α}
    {inner : PaddedTag → UInt64 → List Visit} (whole : limit < 2 ^ 64) (keeps : ∀ done acc s, P done acc s → Agrees s₀ s limit)
    (round : ∀ done t tag acc s, P done acc s → Holds s tag t.bytes → start ≤ tag.toNat →
      tag.toNat + t.bytes.length ≤ limit → t.bytes.length + 8 < 2 ^ 32 →
      Meets (Within start limit) (body tag acc) s (inner t tag) fun acc => P (done ++ [t]) acc)
    {tags : List PaddedTag} {tag : UInt64} {more : List UInt8}
    (holds : Holds s₀ tag (tags.flatMap PaddedTag.bytes ++ (endTag ++ more))) (low : start ≤ tag.toNat)
    (inside : tag.toNat + (tags.flatMap PaddedTag.bytes).length + 8 ≤ limit)
    (small : (tags.flatMap PaddedTag.bytes).length + 8 < 2 ^ 32) {rounds : Nat} (enough : tags.length < rounds)
    (done : List PaddedTag) (acc : α) (here : P done acc s) :
    Meets (Within start limit) (Walks.walk_tags body rounds tag acc) s
      ((layout PaddedTag.bytes tags tag).flatMap fun p => .tag p.2 :: inner p.1 p.2) fun acc => P (done ++ tags) acc := by
  induction tags generalizing rounds done acc s tag with
  | nil =>
    cases rounds with
    | zero => omega
    | succ rounds =>
      have last : s₀.read32 tag = MULTIBOOT_TAG_TYPE_END := (holds_word holds).1
      simp at inside
      refine meets_read32 whole low (by omega)
        ((read32_agrees (keeps done acc s here) whole.le (by omega)).trans last) ?_
      rw [if_pos rfl, List.append_nil]
      exact meets_pure here
  | cons t tags ih =>
    cases rounds with
    | zero => simp at enough
    | succ rounds =>
      rw [List.flatMap_cons, List.append_assoc] at holds
      rw [List.flatMap_cons, List.length_append] at inside small
      obtain ⟨first, later⟩ := holds_append.mp holds
      have length := t.length
      have header : 8 ≤ t.size := by unfold PaddedTag.size; omega
      have size : t.size ≤ t.bytes.length ∧ t.size + 7 < 2 ^ 32 := by
        unfold padded at length
        omega
      have nextAt : (tag + UInt64.ofNat t.bytes.length).toNat = tag.toNat + t.bytes.length := by
        rw [UInt64.toNat_add, UInt64.toNat_ofNat']
        omega
      have now := holds_agrees (keeps done acc s here) whole (by omega) first
      refine meets_read32 whole low (by omega) (tag_header now).1 ?_
      rw [if_neg (type_ne_end _)]
      refine meets_visit (meets_bind (round done t tag acc s here now low (by omega) (by omega)) ?_)
      intro acc mid after
      have then_ := holds_agrees (keeps _ acc mid after) whole (by omega) first
      have small' : (UInt32.ofNat t.size).toNat + 7 < 2 ^ 32 := by
        rw [toNat_size (by omega)]
        exact size.2
      have moved : tag + ((UInt32.ofNat t.size + 7) &&& ~~~7).toUInt64 = tag + UInt64.ofNat t.bytes.length := by
        rw [round_up _ small', toNat_size (by omega), t.length]
      have rest := ih later (by omega) (by omega) (by omega) (show tags.length < rounds by simpa using enough) (done ++ [t]) acc
        after
      refine meets_next whole low (by omega) (tag_header then_).2.1 ?_
      rw [moved]
      rw [List.append_assoc] at rest
      exact rest

/-! ## The bodies -/

theorem meets_print_string {text more : List UInt8} (noNul : 0 ∉ text) {a : UInt64} (whole : limit < 2 ^ 64)
    (holds : Holds s a (text ++ (0 :: more))) (low : start ≤ a.toNat) (inside : a.toNat + text.length + 1 ≤ limit)
    {rounds : Nat} (enough : text.length < rounds) :
    Meets (Within start limit) (print_string rounds a) s [] fun _ s' => s' = s := by
  induction text generalizing a rounds with
  | nil =>
    cases rounds with
    | zero => omega
    | succ rounds =>
      have last : s.byte a = 0 := holds.1
      refine meets_look (fun place member => ?_) ?_
      · rw [List.mem_singleton.mp member]
        exact ⟨low, by simp at inside; omega⟩
      · rw [if_pos last]
        exact meets_pure rfl
  | cons c text ih =>
    cases rounds with
    | zero => simp at enough
    | succ rounds =>
      rw [List.length_cons] at inside enough
      have next : (a + 1).toNat = a.toNat + 1 := by
        rw [UInt64.toNat_add, UInt64.toNat_one]
        omega
      have going : ¬ s.byte a = 0 := by
        rw [holds.1]
        exact fun nul => noNul (by simp [nul])
      refine meets_look (fun place member => ?_) ?_
      · rw [List.mem_singleton.mp member]
        exact ⟨low, by omega⟩
      · rw [if_neg going]
        exact ih (fun member => noNul (List.mem_cons_of_mem c member)) holds.2 (by omega) (by omega) (by omega)

theorem meets_track {x : MapEntry} {e total : UInt64} (whole : limit < 2 ^ 64) (holds : Holds s e x.bytes)
    (low : start ≤ e.toNat) (room : e.toNat + 24 ≤ limit) (same : s = { s₀ with total_mem := total }) :
    Meets (Within start limit) (Walks.get_bitmap_location.track e) s [] fun _ s' =>
      s' = { s₀ with total_mem := grow total x.entry } := by
  obtain ⟨addr, len, type⟩ := entry_fields holds
  refine meets_read64 whole low (by omega) addr ?_
  refine meets_field64 whole low (by simp; omega) len ?_
  refine meets_field32 whole low (by simp; omega) type ?_
  refine meets_last rfl ?_
  subst same
  rw [grow]
  by_cases higher : x.entry.addr + x.entry.len > total ∧ x.entry.type = MULTIBOOT_MEMORY_AVAILABLE
  · rw [if_pos higher]
    exact if_pos higher
  · rw [if_neg higher]
    exact if_neg higher

theorem flatMap_length {entries : List MapEntry} {step : Nat} (stride : ∀ x ∈ entries, x.bytes.length = step) :
    (entries.flatMap MapEntry.bytes).length = step * entries.length := by
  induction entries with
  | nil => rfl
  | cons x rest ih =>
    rw [List.flatMap_cons, List.length_append, stride x (by simp), ih fun y member => stride y (List.mem_cons_of_mem x member),
      List.length_cons, Nat.mul_succ, Nat.add_comm]

theorem size_le (t : PaddedTag) : t.size ≤ t.bytes.length := by
  have length := t.length
  unfold padded at length
  omega

section
variable {t : PaddedTag} {tag : UInt64} (whole : limit < 2 ^ 64) (low : start ≤ tag.toNat)
  (inside : tag.toNat + t.bytes.length ≤ limit) (small : t.bytes.length + 8 < 2 ^ 32)
include whole low inside small

/-- The loop over the entries of an encoded memory map. -/
theorem meets_map_entries {P : List MapEntry → State → Prop} {body : UInt64 → Walk Unit} {map : MemoryMap}
    (content : t.content = .mmap map) (holds : Holds s tag t.bytes) (here : P [] s)
    (keeps : ∀ done s', P done s' → Agrees s s' limit)
    (round : ∀ done x e s', P done s' → Holds s' e x.bytes → start ≤ e.toNat → e.toNat + 24 ≤ limit →
      Meets (Within start limit) (body e) s' [] fun _ => P (done ++ [x])) :
    Meets (Within start limit) (Walks.walk_entries body tag addresses (tag + 16)) s (entryVisits t tag)
      fun _ => P map.entries := by
  obtain ⟨_, sizeAt, later⟩ := tag_header holds
  have le := size_le t
  have value := toNat_size (t := t) (by omega)
  have size : t.size = 16 + (map.entries.flatMap MapEntry.bytes).length := by
    rw [PaddedTag.size, content, Content.payload]
    simp
    omega
  rw [content, Content.payload, List.append_assoc, List.append_assoc] at later
  obtain ⟨stepAt, _, entries⟩ := tag_words later
  have entriesAt : (tag + 16).toNat = tag.toNat + 16 := by
    rw [UInt64.toNat_add]
    simp
    omega
  have count := flatMap_length map.stride
  have few : map.entries.length ≤ map.entry_size.toNat * map.entries.length :=
    Nat.le_mul_of_pos_left _ (by have := map.wide; omega)
  have visits : entryVisits t tag = (layout MapEntry.bytes map.entries (tag + 16)).map fun p => .entry p.2 := by
    rw [entryVisits, content]
    rfl
  rw [visits]
  refine meets_walk_entries whole low (by omega) (by omega) sizeAt stepAt keeps round map.stride entries (by omega)
    (by omega) (?_ : _ < addresses) [] here
  unfold addresses
  omega

theorem meets_locate {highest : UInt64} (holds : Holds s tag t.bytes) :
    Meets (Within start limit) (Walks.get_bitmap_location.locate tag highest) s (entryVisits t tag) fun highest' s' =>
      highest' = (modulesOf [t.content.taken]).foldl raise highest ∧
        s' = { s with total_mem := (entriesOf [t.content.taken]).foldl grow s.total_mem } := by
  obtain ⟨type, _, later⟩ := tag_header holds
  have le := size_le t
  rw [PaddedTag.size] at le
  cases content : t.content with
  | module mod_start mod_end cmdline more =>
    have type : s.read32 tag = MULTIBOOT_TAG_TYPE_MODULE := by rw [type, content]; rfl
    have visits : entryVisits t tag = [] := by rw [entryVisits, content]
    rw [content, Content.payload] at later le
    simp only [List.append_assoc] at later
    simp only [List.length_append, length_le32, List.length_cons] at le
    obtain ⟨startAt, endAt, string⟩ := tag_words later
    have stringAt : (tag + 16).toNat = tag.toNat + 16 := by
      rw [UInt64.toNat_add]
      simp
      omega
    refine meets_read32 whole low (by omega) type ?_
    rw [if_pos rfl, visits]
    refine meets_field32 whole low (by simp; omega) startAt ?_
    refine meets_field32 whole low (by simp; omega) endAt ?_
    refine meets_after (meets_print_string cmdline.2 whole string (by omega) (by omega) ?_) ?_
    · unfold addresses
      omega
    · rintro _ _ rfl
      refine meets_field32 whole low (by simp; omega) endAt ?_
      exact meets_pure ⟨rfl, rfl⟩
  | meminfo mem_lower mem_upper more =>
    have type : s.read32 tag = MULTIBOOT_TAG_TYPE_BASIC_MEMINFO := by rw [type, content]; rfl
    have visits : entryVisits t tag = [] := by rw [entryVisits, content]
    rw [content, Content.payload] at later le
    simp only [List.append_assoc] at later
    simp only [List.length_append, length_le32] at le
    obtain ⟨lowerAt, upperAt, _⟩ := tag_words later
    refine meets_read32 whole low (by omega) type ?_
    rw [if_neg (by decide), if_pos rfl, visits]
    refine meets_field32 whole low (by simp; omega) lowerAt ?_
    refine meets_field32 whole low (by simp; omega) upperAt ?_
    exact meets_pure ⟨rfl, rfl⟩
  | mmap map =>
    have type : s.read32 tag = MULTIBOOT_TAG_TYPE_MMAP := by rw [type, content]; rfl
    refine meets_read32 whole low (by omega) type ?_
    rw [if_neg (by decide), if_neg (by decide), if_pos rfl, ← List.append_nil (entryVisits t tag)]
    refine meets_bind (meets_map_entries whole low inside small content holds
      (P := fun done s' => s' = { s with total_mem := (done.map MapEntry.entry).foldl grow s.total_mem }) rfl ?_ ?_) ?_
    · rintro done s' rfl
      exact agrees_total s limit _
    · intro done x e s' here holds above room
      refine (meets_track whole holds above room here).mono fun _ s' after => ?_
      rw [after, List.map_append, List.foldl_append]
      rfl
    · rintro _ s' rfl
      refine meets_pure ⟨rfl, ?_⟩
      simp [entriesOf, Content.taken]
  | elf num entsize shndx sections =>
    have type : s.read32 tag = MULTIBOOT_TAG_TYPE_ELF_SECTIONS := by rw [type, content]; rfl
    have visits : entryVisits t tag = [] := by rw [entryVisits, content]
    refine meets_read32 whole low (by omega) type ?_
    rw [if_neg (by decide), if_neg (by decide), if_neg (by decide), visits]
    exact meets_pure ⟨rfl, rfl⟩
  | other type' unknown payload =>
    have visits : entryVisits t tag = [] := by rw [entryVisits, content]
    rw [content, Content.type] at type
    simp only [knownTypes, List.mem_cons, List.not_mem_nil, or_false, not_or] at unknown
    obtain ⟨_, notModule, notMeminfo, notMmap, _⟩ := unknown
    refine meets_read32 whole low (by omega) type ?_
    rw [if_neg notModule, if_neg notMeminfo, if_neg notMmap, visits]
    exact meets_pure ⟨rfl, rfl⟩

/-- The release of the available entries of a tag touches the bitmap only. -/
theorem meets_release (holds : Holds s tag t.bytes) (only : BitmapOnly s₀ s)
    (keeps : ∀ s', BitmapOnly s₀ s' → Agrees s s' limit) :
    Meets (Within start limit) (Walks.release tag ()) s (entryVisits t tag) fun _ => BitmapOnly s₀ := by
  obtain ⟨type, _⟩ := tag_header holds
  have le := size_le t
  rw [PaddedTag.size] at le
  refine meets_read32 whole low (by omega) type ?_
  by_cases map : t.content.type = MULTIBOOT_TAG_TYPE_MMAP
  · rw [if_pos map]
    obtain ⟨map, content⟩ := mmap_of_type map
    refine (meets_map_entries whole low inside small content holds (P := fun _ => BitmapOnly s₀) only
      (fun _ => keeps) ?_)
    intro done x e s' only holds above room
    obtain ⟨addr, len, type⟩ := entry_fields holds
    refine meets_field32 whole above (by simp; omega) type ?_
    split
    · refine meets_read64 whole above (by omega) addr ?_
      refine meets_field64 whole above (by simp; omega) len ?_
      exact meets_last rfl (only.trans (bitmapOnly_free _ _ _))
    · exact meets_pure only
  · rw [if_neg map, no_entries map]
    exact meets_pure only

theorem meets_reserve (holds : Holds s tag t.bytes) (only : BitmapOnly s₀ s) :
    Meets (Within start limit) (Walks.reserve tag ()) s [] fun _ => BitmapOnly s₀ := by
  obtain ⟨type, _⟩ := tag_header holds
  have le := size_le t
  rw [PaddedTag.size] at le
  refine meets_read32 whole low (by omega) type ?_
  by_cases module : t.content.type = MULTIBOOT_TAG_TYPE_MODULE
  · rw [if_pos module]
    have fields := module_fields module
    refine meets_field32 whole low (by simp; omega) rfl ?_
    refine meets_field32 whole low (by simp; omega) rfl ?_
    exact meets_last rfl (only.trans (bitmapOnly_used _ _ _))
  · rw [if_neg module]
    exact meets_pure only

end

end

/-! ## Whole blocks -/

section
variable {image : Image} {b : Information} {mb2_addr : UInt64} {s s' : State}

theorem toNat_total (b : Information) : (UInt32.ofNat b.total).toNat = b.total := by
  rw [UInt32.toNat_ofNat', Nat.mod_eq_of_lt b.total_lt]

theorem block_header (holds : Holds s mb2_addr b.bytes) : s.read32 mb2_addr = UInt32.ofNat b.total ∧
    Holds s (mb2_addr + 8) (b.tags.flatMap PaddedTag.bytes ++ (endTag ++ b.more)) := by
  obtain ⟨total, later⟩ := holds_word holds
  obtain ⟨_, tags⟩ := holds_word later
  have eight : mb2_addr + 4 + 4 = mb2_addr + 8 := UInt64.add_assoc mb2_addr 4 4
  rw [eight] at tags
  exact ⟨total, tags⟩

theorem length_tags (tags : List PaddedTag) : tags.length ≤ (tags.flatMap PaddedTag.bytes).length := by
  induction tags with
  | nil => exact Nat.zero_le _
  | cons t rest ih =>
    have some := size_le t
    rw [PaddedTag.size] at some
    rw [List.flatMap_cons, List.length_append, List.length_cons]
    omega

/-- A walk over the tags of a block, in a state that still has its bytes. -/
theorem meets_tags {α : Type} {P : List PaddedTag → α → State → Prop} {body : UInt64 → α → Walk α}
    (inner : PaddedTag → UInt64 → List Visit) (low : mb2_addr < ONE_GIB) (holds : Holds s mb2_addr b.bytes)
    (keeps : ∀ done acc s', P done acc s' → Agrees s s' (mb2_addr.toNat + b.total))
    (round : ∀ done t tag acc s', P done acc s' → Holds s' tag t.bytes → mb2_addr.toNat ≤ tag.toNat →
      tag.toNat + t.bytes.length ≤ mb2_addr.toNat + b.total → t.bytes.length + 8 < 2 ^ 32 →
      Meets (Within mb2_addr.toNat (mb2_addr.toNat + b.total)) (body tag acc) s' (inner t tag) fun acc => P (done ++ [t]) acc)
    (acc : α) (here : P [] acc s') :
    Meets (Within mb2_addr.toNat (mb2_addr.toNat + b.total)) (Walks.walk_tags body addresses (mb2_addr + 8) acc) s'
      ((b.places mb2_addr).flatMap fun p => .tag p.2 :: inner p.1 p.2) fun acc => P b.tags acc := by
  rw [UInt64.lt_iff_toNat_lt, toNat_ONE_GIB] at low
  have small := b.small
  have first : (mb2_addr + 8).toNat = mb2_addr.toNat + 8 := by
    rw [UInt64.toNat_add]
    simp
    omega
  have count := length_tags b.tags
  refine meets_walk_tags (by unfold Information.total; omega) keeps round (block_header holds).2 (by omega)
    (by unfold Information.total; omega) (by omega) (?_ : _ < addresses) [] acc here
  unfold addresses
  omega

/-- The same for a body without visits of its own. -/
theorem meets_tags_only {α : Type} {P : List PaddedTag → α → State → Prop} {body : UInt64 → α → Walk α}
    (low : mb2_addr < ONE_GIB) (holds : Holds s mb2_addr b.bytes)
    (keeps : ∀ done acc s', P done acc s' → Agrees s s' (mb2_addr.toNat + b.total))
    (round : ∀ done t tag acc s', P done acc s' → Holds s' tag t.bytes → mb2_addr.toNat ≤ tag.toNat →
      tag.toNat + t.bytes.length ≤ mb2_addr.toNat + b.total → t.bytes.length + 8 < 2 ^ 32 →
      Meets (Within mb2_addr.toNat (mb2_addr.toNat + b.total)) (body tag acc) s' [] fun acc => P (done ++ [t]) acc)
    (acc : α) (here : P [] acc s') :
    Meets (Within mb2_addr.toNat (mb2_addr.toNat + b.total)) (Walks.walk_tags body addresses (mb2_addr + 8) acc) s'
      (tagVisits b mb2_addr) fun acc => P b.tags acc := by
  have walked := meets_tags (fun _ _ => []) low holds keeps round acc here
  rw [tagVisits, List.map_eq_flatMap]
  exact walked

theorem meets_get_bitmap_location (image : Image) (low : mb2_addr < ONE_GIB) (holds : Holds s mb2_addr b.bytes) :
    Meets (Within mb2_addr.toNat (mb2_addr.toNat + b.total)) (Walks.get_bitmap_location image mb2_addr) s
      (fullVisits b mb2_addr) fun _ s' => s' = locatedState image mb2_addr b.taken s := by
  have total := (block_header holds).1
  have bound := UInt64.lt_iff_toNat_lt.mp low
  rw [toNat_ONE_GIB] at bound
  have small := b.small
  have whole : mb2_addr.toNat + b.total < 2 ^ 64 := by
    unfold Information.total
    omega
  rw [Walks.get_bitmap_location, if_neg (UInt64.not_le.mpr low)]
  refine meets_read32 whole le_rfl (by unfold Information.total; omega) total ?_
  rw [← List.append_nil (fullVisits b mb2_addr)]
  refine meets_bind (meets_tags entryVisits low holds (P := fun done highest s' =>
    highest = (modulesOf (done.map fun t => t.content.taken)).foldl raise (bootTop image mb2_addr (UInt32.ofNat b.total)) ∧
      s' = { s with total_mem := (entriesOf (done.map fun t => t.content.taken)).foldl grow s.total_mem })
    (fun done _ s' here => ?_) (fun done t tag highest s' here holds above inside small => ?_) _ ⟨rfl, rfl⟩) ?_
  · rw [here.2]
    exact agrees_total s _ _
  · obtain ⟨rfl, rfl⟩ := here
    refine (meets_locate whole above inside small holds).mono fun _ _ after => ?_
    obtain ⟨rfl, rfl⟩ := after
    simp
  · rintro _ _ ⟨rfl, rfl⟩
    refine meets_last rfl ?_
    rw [locatedState, total]
    rfl

/-- The bitmap is put above the block, so what touches the bitmap only leaves the block
    as it is. -/
theorem agrees_located (image : Image) (low : mb2_addr < ONE_GIB) (offset : s.g_hhdm_offset = 0)
    (holds : Holds s mb2_addr b.bytes) (only : BitmapOnly (placedState image mb2_addr b.taken s) s') :
    Agrees s s' (mb2_addr.toNat + b.total) := by
  obtain ⟨_, _, runs, rfl⟩ := meets_get_bitmap_location image low holds
  have done := runs.forget (refines_get_bitmap_location image mb2_addr s)
  obtain ⟨_, _, _, bound⟩ := get_bitmap_location_any done
  have total := (block_header holds).1
  have highest := toNat_bootTop image low (s.read32 mb2_addr)
  obtain ⟨start, _⟩ := le_foldl_raise (modulesOf b.taken) (bootTop image mb2_addr (s.read32 mb2_addr))
  have top : (placedState image mb2_addr b.taken s).bmp_phys.toNat =
      ((locatedState image mb2_addr b.taken s).bmp_phys.toNat + 4095) / 4096 * 4096 := toNat_align_up _ (by omega)
  have fold : (locatedState image mb2_addr b.taken s).bmp_phys =
      (modulesOf b.taken).foldl raise (bootTop image mb2_addr (s.read32 mb2_addr)) := rfl
  rw [total, toNat_total] at highest
  rw [total] at start fold
  rw [fold] at top bound
  have same : Agrees s (placedState image mb2_addr b.taken s) (mb2_addr.toNat + b.total) := fun _ _ => rfl
  exact same.trans (agrees_of_bitmapOnly only offset (by omega) (by omega))

theorem meets_init_pmm (image : Image) (low : mb2_addr < ONE_GIB) (offset : s.g_hhdm_offset = 0)
    (holds : Holds s mb2_addr b.bytes)
    (fits : ¬ (placedState image mb2_addr b.taken s).bmp_phys + bitmap_size_bytes (placedState image mb2_addr b.taken s) >
      ONE_GIB) :
    Meets (Within mb2_addr.toNat (mb2_addr.toNat + b.total)) (Walks.init_pmm image mb2_addr) s
      (fullVisits b mb2_addr ++ fullVisits b mb2_addr ++ tagVisits b mb2_addr) fun _ =>
        BitmapOnly (placedState image mb2_addr b.taken s) := by
  have bound := UInt64.lt_iff_toNat_lt.mp low
  rw [toNat_ONE_GIB] at bound
  have room := b.total_lt
  have header : 16 ≤ b.total := by
    unfold Information.total
    omega
  have whole : mb2_addr.toNat + b.total < 2 ^ 64 := by omega
  have keeps : ∀ s', BitmapOnly (placedState image mb2_addr b.taken s) s' → Agrees s s' (mb2_addr.toNat + b.total) :=
    fun s' => agrees_located image low offset holds
  rw [Walks.init_pmm, List.append_assoc]
  refine meets_bind (meets_get_bitmap_location image low holds) ?_
  rintro _ _ rfl
  refine meets_plain (t := placedState image mb2_addr b.taken s) rfl ?_
  refine meets_look (fun _ none => absurd none List.not_mem_nil) ?_
  dsimp only [id]
  rw [if_neg fits]
  have full := bitmapOnly_filled image mb2_addr b.taken s
  refine meets_plain rfl (meets_bind (meets_tags entryVisits low holds
    (P := fun _ _ => BitmapOnly (placedState image mb2_addr b.taken s)) (fun _ _ => keeps)
    (fun done t tag _ s' only holds above inside small => ?_) () full) ?_)
  · exact meets_release whole above inside small holds only fun s'' only' va inside =>
      (keeps s'' only' va inside).trans (keeps s' only va inside).symm
  · intro _ released only
    have marked : BitmapOnly (placedState image mb2_addr b.taken s)
        (pmm_mark_used_region (image.kernel_start - KERNEL_VMA) (image.kernel_end - image.kernel_start)
          (pmm_mark_used_region 0 0x100000 released)) :=
      only.trans ((bitmapOnly_used _ _ _).trans (bitmapOnly_used _ _ _))
    refine meets_plain rfl (meets_plain rfl (meets_read32 whole le_rfl (by omega) rfl (meets_plain rfl ?_)))
    rw [tagVisits, ← List.append_nil (List.map _ _)]
    refine meets_bind (meets_tags_only low holds (P := fun _ _ => BitmapOnly (placedState image mb2_addr b.taken s))
      (fun _ _ => keeps) (fun done t tag _ s' only holds above inside small =>
        meets_reserve whole above inside small holds only) () (marked.trans (bitmapOnly_used _ _ _))) ?_
    intro _ reserved only
    refine meets_look (fun _ none => absurd none List.not_mem_nil) ?_
    exact meets_last rfl (only.trans (bitmapOnly_used _ _ _))

theorem meets_search {start limit : Nat} (whole : limit < 2 ^ 64) {tags : List PaddedTag} {tag : UInt64} {more : List UInt8}
    (holds : Holds s tag (tags.flatMap PaddedTag.bytes ++ (endTag ++ more))) (low : start ≤ tag.toNat)
    (inside : tag.toNat + (tags.flatMap PaddedTag.bytes).length + 8 ≤ limit)
    (small : (tags.flatMap PaddedTag.bytes).length + 8 < 2 ^ 32) {rounds : Nat} (enough : tags.length < rounds) :
    Meets (Within start limit) (Walks.find_elf_sections.search rounds tag) s
      ((searchVisits.untilElf (layout PaddedTag.bytes tags tag)).map fun p => .tag p.2) fun found s' =>
        found = ((layout PaddedTag.bytes tags tag).find? fun p => p.1.IsElf).map Prod.snd ∧ s' = s := by
  induction tags generalizing rounds tag with
  | nil =>
    cases rounds with
    | zero => omega
    | succ rounds =>
      have last : s.read32 tag = MULTIBOOT_TAG_TYPE_END := (holds_word holds).1
      simp at inside
      refine meets_read32 whole low (by omega) last ?_
      rw [if_pos rfl]
      exact meets_pure ⟨rfl, rfl⟩
  | cons t tags ih =>
    cases rounds with
    | zero => simp at enough
    | succ rounds =>
      rw [List.flatMap_cons, List.append_assoc] at holds
      rw [List.flatMap_cons, List.length_append] at inside small
      obtain ⟨first, later⟩ := holds_append.mp holds
      obtain ⟨type, sizeAt, _⟩ := tag_header first
      have length := t.length
      have header : 8 ≤ t.size := by unfold PaddedTag.size; omega
      have le := size_le t
      have value := toNat_size (t := t) (by omega)
      have nextAt : (tag + UInt64.ofNat t.bytes.length).toNat = tag.toNat + t.bytes.length := by
        rw [UInt64.toNat_add, UInt64.toNat_ofNat']
        omega
      refine meets_read32 whole low (by omega) type ?_
      rw [if_neg (type_ne_end _), layout, searchVisits.untilElf]
      by_cases elf : t.IsElf
      · rw [if_pos elf]
        refine meets_visit (meets_read32 whole low (by omega) type ?_)
        rw [if_pos (show t.content.type = _ from elf)]
        refine meets_pure ⟨?_, rfl⟩
        rw [List.find?_cons_of_pos (by simpa using elf)]
        rfl
      · rw [if_neg elf]
        refine meets_visit (meets_read32 whole low (by omega) type ?_)
        rw [if_neg (show ¬ t.content.type = _ from elf)]
        refine meets_next whole low (by omega) sizeAt ?_
        rw [round_up _ (by omega), value, ← t.length, List.find?_cons_of_neg (by simpa using elf)]
        exact ih later (by omega) (by omega) (by omega) (by simpa using enough)

/-- The end that the bitmap would have is above the first GiB. -/
def AboveGib (image : Image) (b : Information) (mb2_addr : UInt64) : Prop :=
  2 ^ 30 < roundUp (highestEnd image mb2_addr (UInt32.ofNat b.total) b.taken) + roundUp (memoryEnd b.taken / 4096 / 8)

/-- The walks decode the block. -/
structure Decodes (image : Image) (b : Information) (mb2_addr : UInt64) (s : State) : Prop where
  /-- The places of the tags and of the entries are where their bytes lie. -/
  tags : ∀ p ∈ b.places mb2_addr, Holds s p.2 p.1.bytes
  entries : ∀ p ∈ b.places mb2_addr, ∀ map, p.1.content = .mmap map → ∀ q ∈ map.places p.2, Holds s q.2 q.1.bytes
  /-- The first walk ends with the highest end of available memory and the highest end of
      the kernel, the block and the modules. -/
  located : ∃ s', Runs (Within mb2_addr.toNat (mb2_addr.toNat + b.total)) (Walks.get_bitmap_location image mb2_addr) s ()
      s' (fullVisits b mb2_addr) ∧ Pmm.get_bitmap_location image mb2_addr s = .ok () s' ∧
    s'.total_mem.toNat = memoryEnd b.taken ∧
    s'.bmp_phys.toNat = highestEnd image mb2_addr (UInt32.ofNat b.total) b.taken
  /-- The two walks that follow it end too, and leave the block as it is. -/
  initialised : ¬ AboveGib image b mb2_addr →
    ∃ s', Runs (Within mb2_addr.toNat (mb2_addr.toNat + b.total)) (Walks.init_pmm image mb2_addr) s () s'
        (fullVisits b mb2_addr ++ fullVisits b mb2_addr ++ tagVisits b mb2_addr) ∧
      Pmm.init_pmm image mb2_addr s = .ok () s' ∧ Holds s' mb2_addr b.bytes
  /-- Where they do not run, the kernel stopped before them. -/
  rejected : AboveGib image b mb2_addr → ∃ s', Pmm.init_pmm image mb2_addr s = .error (.panic .bitmapAboveGib) s'
  found : ∀ s', Holds s' mb2_addr b.bytes →
    Runs (Within mb2_addr.toNat (mb2_addr.toNat + b.total)) (Walks.find_elf_sections mb2_addr) s' (firstElf b mb2_addr) s'
        (searchVisits b mb2_addr) ∧
      Multiboot.find_elf_sections mb2_addr s' = .ok (firstElf b mb2_addr) s'
  missing : firstElf b mb2_addr = none ↔ ∀ t ∈ b.tags, ¬ t.IsElf

theorem none_elf_iff (tags : List PaddedTag) (a : UInt64) :
    (∀ p ∈ layout PaddedTag.bytes tags a, ¬ p.1.IsElf) ↔ ∀ t ∈ tags, ¬ t.IsElf := by
  induction tags generalizing a with
  | nil => simp [layout]
  | cons t tags ih => rw [layout, List.forall_mem_cons, List.forall_mem_cons, ih]

theorem memoryEnd_located (on : PowerOn s) :
    (locatedState image mb2_addr b.taken s).total_mem.toNat = memoryEnd b.taken := by
  have unwrapped : ∀ x ∈ entriesOf b.taken, x.Available → x.stop < 2 ^ 64 := by
    intro x member _
    rw [entriesOf, Information.taken, List.flatMap_map, List.mem_flatMap] at member
    obtain ⟨t, _, inTag⟩ := member
    cases content : t.content with
    | mmap map =>
      rw [content] at inTag
      obtain ⟨entry, _, rfl⟩ := List.mem_map.mp inTag
      exact entry.unwrapped
    | _ =>
      rw [content] at inTag
      cases inTag
  show ((entriesOf b.taken).foldl grow s.total_mem).toNat = _
  rw [on.total, toNat_foldl_grow _ _ unwrapped]
  rfl

theorem highestEnd_located (low : mb2_addr < ONE_GIB) (holds : Holds s mb2_addr b.bytes) :
    (locatedState image mb2_addr b.taken s).bmp_phys.toNat = highestEnd image mb2_addr (UInt32.ofNat b.total) b.taken := by
  rw [highestEnd, ← toNat_bootTop image low, ← toNat_foldl_raise, ← (block_header holds).1]
  rfl

theorem fits_iff (on : PowerOn s) (low : mb2_addr < ONE_GIB) (holds : Holds s mb2_addr b.bytes) :
    (placedState image mb2_addr b.taken s).bmp_phys + bitmap_size_bytes (placedState image mb2_addr b.taken s) > ONE_GIB ↔
      AboveGib image b mb2_addr := by
  obtain ⟨_, _, runs, rfl⟩ := meets_get_bitmap_location image low holds
  obtain ⟨_, _, _, bound⟩ := get_bitmap_location_any (runs.forget (refines_get_bitmap_location image mb2_addr s))
  have top : _ = highestEnd image _ _ _ := highestEnd_located low holds
  have memory : (locatedState image mb2_addr b.taken s).total_mem.toNat = _ := memoryEnd_located on
  have place : (placedState image mb2_addr b.taken s).bmp_phys.toNat =
      roundUp (highestEnd image mb2_addr (UInt32.ofNat b.total) b.taken) := by
    rw [← top]
    exact toNat_align_up _ (by omega)
  have size : (bitmap_size_bytes (placedState image mb2_addr b.taken s)).toNat = roundUp (memoryEnd b.taken / 4096 / 8) := by
    rw [bitmap_size, ← memory]
    rfl
  have total : memoryEnd b.taken < 2 ^ 64 := memory ▸ UInt64.toNat_lt _
  rw [AboveGib, gt_iff_lt, UInt64.lt_iff_toNat_lt, UInt64.toNat_add, place, size, toNat_ONE_GIB]
  unfold roundUp at *
  omega

end

theorem holds_loaded (bytes : List UInt8) (a : UInt64) (small : bytes.length < 2 ^ 64) : Holds (loaded bytes a) a bytes := by
  have later : ∀ done rest, bytes = done ++ rest → Holds (loaded bytes a) (a + UInt64.ofNat done.length) rest := by
    intro done rest
    induction rest generalizing done with
    | nil => exact fun _ => trivial
    | cons c rest ih =>
      intro split
      have here : done.length < 2 ^ 64 := by
        rw [split, List.length_append] at small
        omega
      refine ⟨?_, ?_⟩
      · show bytes.getD (a + UInt64.ofNat done.length - 0 - a).toNat 0 = c
        rw [UInt64.sub_zero, UInt64.add_comm, UInt64.add_sub_cancel, UInt64.toNat_ofNat', Nat.mod_eq_of_lt here, split]
        simp
      · have rest := ih (done ++ [c]) (by rw [split, List.append_assoc]; rfl)
        rw [List.length_append] at rest
        have sum : UInt64.ofNat (done.length + 1) = UInt64.ofNat done.length + 1 := UInt64.ofNat_add _ 1
        rw [UInt64.add_assoc, ← sum]
        exact rest
  simpa using later [] bytes rfl

def moduleMap : MemoryMap where
  entry_size := 32
  entry_version := 0
  entries := [⟨⟨0, 0x2000000, 1⟩, 0, [1, 2, 3, 4, 5, 6, 7, 8], by decide⟩]
  wide := by decide
  stride := by decide

/-- A module with a string of 3 bytes, a memory map of wide entries, and a tag of no
    type that the kernel knows. -/
def moduleInformation : Information where
  reserved := 0
  tags := [⟨.module 0x300000 0x300800 ⟨[105, 110, 105], by decide⟩ [], [0, 0, 0, 0], by decide⟩, ⟨.mmap moduleMap, [], by decide⟩,
    ⟨.other 42 (by decide) [7], [0, 0, 0, 0, 0, 0, 0], by decide⟩]
  more := []
  small := by decide

end Extron.Decoding
