import Extron.InitPmm
import Mathlib.Order.CompletePartialOrder

/-!
The free set that `init_pmm` computes from a well-formed multiboot2 block. The
passes over the block are folds over its tags; put together they leave a bit clear
exactly when an available entry holds the whole page and no reserved region
touches it.
-/
namespace Extron.FreeSet
open Extron.Multiboot Extron.Pmm Extron.Format Extron.InitPmm Extron.Outcomes
set_option linter.unusedSimpArgs false

/-- The memory-map entries of all memory-map tags, in order. -/
def entriesOf (tags : List Tag) : List Entry := tags.flatMap fun
  | .mmap entries => entries
  | _ => []

/-- The bounds of all modules, in order. -/
def modulesOf (tags : List Tag) : List (UInt32 × UInt32) := tags.flatMap fun
  | .module start stop => [(start, stop)]
  | _ => []

/-- One round of the search for the end of available memory. -/
def grow (total : UInt64) (x : Entry) : UInt64 :=
  if x.addr + x.len > total ∧ x.type = MULTIBOOT_MEMORY_AVAILABLE then x.addr + x.len else total

/-- One round of the search for the highest reserved address. -/
def raise (top : UInt64) (m : UInt32 × UInt32) : UInt64 := if m.2.toUInt64 > top then m.2.toUInt64 else top

/-- Where the search for the highest reserved address starts. -/
def bootTop (image : Image) (mb2_addr : UInt64) (mb2_size : UInt32) : UInt64 :=
  if mb2_addr + mb2_size.toUInt64 > image.kernel_end - KERNEL_VMA then mb2_addr + mb2_size.toUInt64
  else image.kernel_end - KERNEL_VMA

/-- What `get_bitmap_location` leaves behind. -/
def locatedState (image : Image) (mb2_addr : UInt64) (tags : List Tag) (s : State) : State :=
  { s with
    total_mem := (entriesOf tags).foldl grow s.total_mem
    bmp_phys := (modulesOf tags).foldl raise (bootTop image mb2_addr (s.read32 mb2_addr)) }

@[simp] theorem entriesOf_append (a b : List Tag) : entriesOf (a ++ b) = entriesOf a ++ entriesOf b := List.flatMap_append
@[simp] theorem modulesOf_append (a b : List Tag) : modulesOf (a ++ b) = modulesOf a ++ modulesOf b := List.flatMap_append

theorem agrees_total (s : State) (limit : Nat) (total : UInt64) : Agrees s { s with total_mem := total } limit :=
  fun _ _ => rfl

section
variable {image : Image} {mb2_addr : UInt64} {s : State} {tags : List Tag}

theorem locate_tag {limit : Nat} (whole : limit < 2 ^ 64) {t : Tag} {tag highest total : UInt64} (head : Describes s tag t)
    (inside : tag.toNat + padded (tag_size s tag).toNat ≤ limit) :
    Post (fun highest' s' => highest' = (modulesOf [t]).foldl raise highest ∧
        s' = { s with total_mem := (entriesOf [t]).foldl grow total }) (fun _ _ => False)
      (get_bitmap_location.locate tag highest { s with total_mem := total }) := by
  have same : tag_type { s with total_mem := total } tag = tag_type s tag := rfl
  simp only [get_bitmap_location.locate, get_bind]
  cases head with
  | module type _ _ last =>
    rw [if_pos (same.trans type), ← last]
    exact ⟨rfl, rfl⟩
  | @mmap entries type size content =>
    rw [if_neg (by rw [same, type]; decide), if_pos (same.trans type)]
    apply post_bind
    have stop : tag.toNat + (tag_size s tag).toNat ≤ limit := by
      unfold padded at inside
      omega
    have walked := post_walk_entries (E := fun _ _ => False) (P := fun done s' => s' = { s with total_mem := done.foldl grow total })
      get_bitmap_location.track whole stop size
      (fun done s' here => by rw [here]; exact agrees_total s limit _) ?_ content (?_ : _ < addresses) []
      (s := { s with total_mem := total }) rfl
    · refine walked.mono ?_ (fun _ _ stopped => stopped)
      intro _ s' here
      refine ⟨rfl, ?_⟩
      rw [here]
      simp [entriesOf]
    · rintro done x e _ rfl addr len type
      simp only [get_bitmap_location.track, run_modify, Post, addr, len, type, List.foldl_append, List.foldl_cons,
        List.foldl_nil, grow]
      split
      · rfl
      · rfl
    · have bound := entriesAt_length content
      have := (tag + (tag_size s tag).toUInt64).toNat_lt
      unfold addresses
      omega
  | elf type =>
    rw [if_neg (by rw [same, type]; decide), if_neg (by rw [same, type]; decide)]
    exact ⟨rfl, rfl⟩
  | other _ notModule notMmap _ =>
    rw [if_neg (by rw [same]; exact notModule), if_neg (by rw [same]; exact notMmap)]
    exact ⟨rfl, rfl⟩

/-- On a well-formed block below 1 GiB, `get_bitmap_location` returns the folds over
    its tags. -/
theorem get_bitmap_location_eq (image : Image) (block : Block s mb2_addr tags) (low : mb2_addr < ONE_GIB) :
    get_bitmap_location image mb2_addr s = .ok () (locatedState image mb2_addr tags s) := by
  have bound := block.bound
  have length := tagsAt_length block.bound block.tagsAt
  have walked := post_walk_tags (E := fun _ _ => False)
    (P := fun done highest s' => highest = (modulesOf done).foldl raise (bootTop image mb2_addr (s.read32 mb2_addr)) ∧
      s' = { s with total_mem := (entriesOf done).foldl grow s.total_mem }) get_bitmap_location.locate bound
    (fun done _ s' here => by rw [here.2]; exact agrees_total s _ _) ?_ block.tagsAt
    (by unfold addresses; omega : _ < addresses) [] (bootTop image mb2_addr (s.read32 mb2_addr)) (s := s) ⟨rfl, rfl⟩
  · obtain ⟨highest, s', runs, top, state⟩ := walked.returns
    have below : ¬ mb2_addr ≥ ONE_GIB := UInt64.not_le.mpr low
    simp only [get_bitmap_location, if_neg below, pure_bind, get_bind]
    rw [bootTop] at runs
    rw [bind_ok runs, run_modify, top, state]
    rfl
  · rintro done t tag _ _ ⟨rfl, rfl⟩ head _ inside
    refine (locate_tag bound head inside).mono ?_ (fun _ _ stopped => stopped)
    rintro _ _ ⟨rfl, rfl⟩
    simp

end

/-! ## What the passes do to the bits -/

/-- An available entry that holds the whole page. -/
def Entry.Holds (x : Entry) (i : Nat) : Prop := x.Available ∧ x.addr.toNat ≤ 4096 * i ∧ 4096 * (i + 1) ≤ x.stop

/-- The region from `lo` to `hi`, rounded outwards, includes the page. -/
def Touches (lo hi i : Nat) : Prop := lo / 4096 ≤ i ∧ i < (hi + 4095) / 4096

theorem agrees_of_bitmapOnly {s s' : State} {limit : Nat} (only : BitmapOnly s s') (offset : s.g_hhdm_offset = 0)
    (below : limit ≤ s.bmp_phys.toNat) (small : s.bmp_phys.toNat ≤ 2 ^ 34) : Agrees s s' limit := by
  intro va inside
  have same : s'.g_hhdm_offset = 0 := by rw [only.rest]; exact offset
  rw [State.byte, State.byte, same, offset, UInt64.sub_zero]
  apply only.below
  rw [offset, UInt64.add_zero, UInt64.toNat_sub]
  omega

theorem toNat_raise (top : UInt64) (m : UInt32 × UInt32) : (raise top m).toNat = max top.toNat m.2.toNat := by
  rw [raise]
  split
  · rename_i higher
    rw [gt_iff_lt, UInt64.lt_iff_toNat_lt, UInt32.toNat_toUInt64] at higher
    rw [UInt32.toNat_toUInt64]
    omega
  · rename_i lower
    rw [gt_iff_lt, UInt64.lt_iff_toNat_lt, UInt32.toNat_toUInt64] at lower
    omega

theorem le_foldl_raise (modules : List (UInt32 × UInt32)) (top : UInt64) :
    top.toNat ≤ (modules.foldl raise top).toNat ∧ ∀ m ∈ modules, m.2.toNat ≤ (modules.foldl raise top).toNat := by
  induction modules generalizing top with
  | nil => simp
  | cons m rest ih =>
    obtain ⟨start, all⟩ := ih (raise top m)
    have raised := toNat_raise top m
    rw [List.foldl_cons]
    refine ⟨by omega, ?_⟩
    intro k member
    rcases List.mem_cons.mp member with rfl | later
    · omega
    · exact all k later

theorem toNat_region_end {x : Entry} (unwrapped : x.stop < 2 ^ 64) : (x.addr + x.len).toNat = x.stop := by
  rw [Entry.stop] at unwrapped ⊢
  rw [UInt64.toNat_add, Nat.mod_eq_of_lt unwrapped]

theorem toNat_grow (total : UInt64) (x : Entry) :
    (grow total x).toNat = if x.Available then max total.toNat (x.addr + x.len).toNat else total.toNat := by
  rw [grow]
  by_cases available : x.Available
  · rw [if_pos available]
    by_cases higher : x.addr + x.len > total
    · rw [if_pos ⟨higher, available⟩]
      rw [gt_iff_lt, UInt64.lt_iff_toNat_lt] at higher
      omega
    · rw [if_neg (fun both => higher both.1)]
      rw [gt_iff_lt, UInt64.lt_iff_toNat_lt] at higher
      omega
  · rw [if_neg available, if_neg (fun both => available both.2)]

/-- The end that is computed for an available entry is at most the total found. -/
theorem le_foldl_grow (entries : List Entry) (total : UInt64) : total.toNat ≤ (entries.foldl grow total).toNat ∧
    ∀ x ∈ entries, x.Available → (x.addr + x.len).toNat ≤ (entries.foldl grow total).toNat := by
  induction entries generalizing total with
  | nil => simp
  | cons x rest ih =>
    obtain ⟨start, all⟩ := ih (grow total x)
    have grown := toNat_grow total x
    rw [List.foldl_cons]
    refine ⟨?_, ?_⟩
    · split at grown
      · omega
      · omega
    · intro y member available
      rcases List.mem_cons.mp member with rfl | later
      · rw [if_pos available] at grown
        omega
      · exact all y later available

/-- Every available entry ends at or below the total found. -/
theorem stop_le_total {entries : List Entry} (unwrapped : ∀ x ∈ entries, x.Available → x.stop < 2 ^ 64) (total : UInt64)
    {x : Entry} (member : x ∈ entries) (available : x.Available) : x.stop ≤ (entries.foldl grow total).toNat := by
  rw [← toNat_region_end (unwrapped x member available)]
  exact (le_foldl_grow entries total).2 x member available

section
variable {s₀ s : State} {limit : Nat} {tags : List Tag} {first : UInt64}

/-- The release of the entries `done` cleared the bits of the pages that they hold. -/
def Released (s : State) (done : List Entry) (s' : State) : Prop :=
  BitmapOnly s s' ∧ ((∀ x ∈ done, x.Available → x.stop < 2 ^ 45) →
    ∀ i, Marked s' i ↔ Marked s i ∧ ∀ x ∈ done, ¬ Entry.Holds x i.toNat)

theorem released_entry {s' : State} {done : List Entry} {x : Entry} {e : UInt64} (here : Released s done s')
    (addr : entry_addr s' e = x.addr) (len : entry_len s' e = x.len) (type : entry_type s' e = x.type) :
    Post (fun _ => Released s (done ++ [x])) (fun _ _ => False) (init_pmm.release_entry e s') := by
  obtain ⟨only, bits⟩ := here
  simp only [init_pmm.release_entry, run_modify, Post, addr, len, type]
  by_cases available : x.type = MULTIBOOT_MEMORY_AVAILABLE
  · rw [if_pos available]
    refine ⟨only.trans (bitmapOnly_free _ _ _), ?_⟩
    intro small i
    have stop := small x (by simp) available
    rw [Entry.stop] at stop
    rw [marked_free_region _ _ _ _ (by omega), bits (fun y member => small y (by simp [member]))]
    simp only [List.mem_append, List.mem_singleton, Entry.Holds, Entry.stop, Entry.Available]
    constructor
    · rintro ⟨outside, marked, others⟩
      refine ⟨marked, ?_⟩
      rintro y (old | rfl) holds
      · exact others y old holds
      · exact outside holds.2
    · rintro ⟨marked, all⟩
      exact ⟨fun inside => all x (.inr rfl) ⟨available, inside⟩, marked, fun y old => all y (.inl old)⟩
  · rw [if_neg available]
    refine ⟨only, ?_⟩
    intro small i
    rw [bits (fun y member => small y (by simp [member]))]
    simp only [List.mem_append, List.mem_singleton]
    constructor
    · rintro ⟨marked, others⟩
      refine ⟨marked, ?_⟩
      rintro y (old | rfl) holds
      · exact others y old holds
      · exact available holds.1
    · rintro ⟨marked, all⟩
      exact ⟨marked, fun y old => all y (.inl old)⟩

variable (whole : limit < 2 ^ 64) (agree : ∀ s', BitmapOnly s s' → Agrees s₀ s' limit)
include whole agree

theorem released_tag {s' : State} {done : List Tag} {t : Tag} {tag : UInt64} (here : Released s (entriesOf done) s')
    (head : Describes s₀ tag t) (room : tag.toNat + 8 ≤ limit)
    (inside : tag.toNat + padded (tag_size s₀ tag).toNat ≤ limit) :
    Post (fun _ => Released s (entriesOf (done ++ [t]))) (fun _ _ => False) (init_pmm.release tag () s') := by
  have same : tag_type s' tag = tag_type s₀ tag := tag_type_agrees (agree s' here.1) whole.le room
  simp only [init_pmm.release, get_bind, entriesOf_append]
  cases head with
  | module type => rw [if_neg (by rw [same, type]; decide)]; simpa [entriesOf] using here
  | @mmap entries type size content =>
    rw [if_pos (same.trans type)]
    have stop : tag.toNat + (tag_size s₀ tag).toNat ≤ limit := by
      unfold padded at inside
      omega
    have walked := post_walk_entries (E := fun _ _ => False)
      (P := fun more s' => Released s (entriesOf done ++ more) s') init_pmm.release_entry whole stop size
      (fun more s' here => agree s' here.1) ?_ content (?_ : _ < addresses) []
      (s := s') (by simpa using here)
    · simpa [entriesOf] using walked
    · intro more x e s' here addr len type
      rw [← List.append_assoc]
      exact released_entry here addr len type
    · have bound := entriesAt_length content
      have := (tag + (tag_size s₀ tag).toUInt64).toNat_lt
      unfold addresses
      omega
  | elf type => rw [if_neg (by rw [same, type]; decide)]; simpa [entriesOf] using here
  | other _ _ notMmap => rw [if_neg (by rw [same]; exact notMmap)]; simpa [entriesOf] using here

theorem release_walk (content : TagsAt s₀ limit first tags) :
    Post (fun _ => Released s (entriesOf tags)) (fun _ _ => False) (walk_tags init_pmm.release addresses first () s) := by
  have length := tagsAt_length whole content
  have start : Released s (entriesOf []) s := ⟨BitmapOnly.refl s, fun _ i => by simp [entriesOf]⟩
  exact post_walk_tags (P := fun done _ s' => Released s (entriesOf done) s') _ whole
    (fun done _ s' here => agree s' here.1) (fun done t tag _ s' here head room inside =>
      released_tag whole agree here head room inside) content (by unfold addresses; omega) [] _ start

/-- The reservation of the modules `done` set the bits of the pages that they touch. -/
def Reserved (s : State) (done : List (UInt32 × UInt32)) (s' : State) : Prop :=
  BitmapOnly s s' ∧ ((∀ m ∈ done, m.1 < m.2) →
    ∀ i, Marked s' i ↔ (∃ m ∈ done, Touches m.1.toNat m.2.toNat i.toNat) ∨ Marked s i)

omit whole agree in
theorem reserved_module {s' : State} {done : List (UInt32 × UInt32)} (here : Reserved s done s') (m : UInt32 × UInt32) :
    Reserved s (done ++ [m]) (pmm_mark_used_region m.1.toUInt64 (m.2 - m.1).toUInt64 s') := by
  obtain ⟨only, bits⟩ := here
  refine ⟨only.trans (bitmapOnly_used _ _ _), ?_⟩
  intro forward i
  have order := forward m (by simp)
  rw [UInt32.lt_iff_toNat_lt] at order
  have bound := m.2.toNat_lt
  have size : (m.2 - m.1).toNat = m.2.toNat - m.1.toNat := by
    rw [UInt32.toNat_sub]
    omega
  have stop : m.1.toNat + (m.2 - m.1).toNat = m.2.toNat := by omega
  rw [marked_used_region _ _ _ _ (by simp only [UInt32.toNat_toUInt64]; omega),
    bits (fun k member => forward k (by simp [member]))]
  simp only [UInt32.toNat_toUInt64, stop, List.mem_append, List.mem_singleton, Touches]
  constructor
  · rintro (new | ⟨k, old, touches⟩ | marked)
    · exact .inl ⟨m, .inr rfl, new⟩
    · exact .inl ⟨k, .inl old, touches⟩
    · exact .inr marked
  · rintro (⟨k, old | rfl, touches⟩ | marked)
    · exact .inr (.inl ⟨k, old, touches⟩)
    · exact .inl touches
    · exact .inr (.inr marked)

theorem reserved_tag {s' : State} {done : List Tag} {t : Tag} {tag : UInt64} (here : Reserved s (modulesOf done) s')
    (head : Describes s₀ tag t) (room : tag.toNat + 8 ≤ limit)
    (inside : tag.toNat + padded (tag_size s₀ tag).toNat ≤ limit) :
    Post (fun _ => Reserved s (modulesOf (done ++ [t]))) (fun _ _ => False) (init_pmm.reserve tag () s') := by
  have same : tag_type s' tag = tag_type s₀ tag := tag_type_agrees (agree s' here.1) whole.le room
  simp only [init_pmm.reserve, run_modify, modulesOf_append, post_ok]
  cases head with
  | @module start stop type size first last =>
    have fields : tag.toNat + 16 ≤ limit := by
      unfold padded at inside
      omega
    have sameStart : mod_start s' tag = start := by
      rw [← first]
      exact field32_agrees (agree s' here.1) whole.le (k := 8) (by simp; omega)
    have sameStop : mod_end s' tag = stop := by
      rw [← last]
      exact field32_agrees (agree s' here.1) whole.le (k := 12) (by simp; omega)
    rw [if_pos (same.trans type), sameStart, sameStop]
    exact reserved_module here (start, stop)
  | mmap type => rw [if_neg (by rw [same, type]; decide)]; simpa [modulesOf] using here
  | elf type => rw [if_neg (by rw [same, type]; decide)]; simpa [modulesOf] using here
  | other _ notModule => rw [if_neg (by rw [same]; exact notModule)]; simpa [modulesOf] using here

theorem reserve_walk (content : TagsAt s₀ limit first tags) :
    Post (fun _ => Reserved s (modulesOf tags)) (fun _ _ => False) (walk_tags init_pmm.reserve addresses first () s) := by
  have length := tagsAt_length whole content
  have start : Reserved s (modulesOf []) s := ⟨BitmapOnly.refl s, fun _ i => by simp [modulesOf]⟩
  exact post_walk_tags (P := fun done _ s' => Reserved s (modulesOf done) s') _ whole
    (fun done _ s' here => agree s' here.1) (fun done t tag _ s' here head room inside =>
      reserved_tag whole agree here head room inside) content (by unfold addresses; omega) [] _ start

end

/-! ## The whole run -/

section
variable {image : Image} {mb2_addr : UInt64} {s : State} {tags : List Tag}

/-- Where the bitmap is put and how much memory there is, from the tags. -/
def placedState (image : Image) (mb2_addr : UInt64) (tags : List Tag) (s : State) : State :=
  placed (locatedState image mb2_addr tags s)

theorem toNat_bootTop (image : Image) (low : mb2_addr < ONE_GIB) (size : UInt32) : (bootTop image mb2_addr size).toNat =
    max (image.kernel_end - KERNEL_VMA).toNat (mb2_addr.toNat + size.toNat) := by
  have sizeBound := size.toNat_lt
  rw [UInt64.lt_iff_toNat_lt, toNat_ONE_GIB] at low
  have sum : (mb2_addr + size.toUInt64).toNat = mb2_addr.toNat + size.toNat := by
    rw [UInt64.toNat_add, UInt32.toNat_toUInt64]
    omega
  rw [bootTop]
  split
  · rename_i higher
    rw [gt_iff_lt, UInt64.lt_iff_toNat_lt] at higher
    omega
  · rename_i lower
    rw [gt_iff_lt, UInt64.lt_iff_toNat_lt] at lower
    omega

/-- The bitmap starts above the kernel, the block and every module. -/
theorem placed_above (image : Image) (block : Block s mb2_addr tags) (low : mb2_addr < ONE_GIB) :
    mb2_addr.toNat + (s.read32 mb2_addr).toNat ≤ (placedState image mb2_addr tags s).bmp_phys.toNat ∧
      (image.kernel_end - KERNEL_VMA).toNat ≤ (placedState image mb2_addr tags s).bmp_phys.toNat ∧
      (∀ m ∈ modulesOf tags, m.2.toNat ≤ (placedState image mb2_addr tags s).bmp_phys.toNat) ∧
      (placedState image mb2_addr tags s).bmp_phys.toNat < 2 ^ 33 + 4096 := by
  obtain ⟨_, _, _, bound⟩ := get_bitmap_location_any (get_bitmap_location_eq image block low)
  have highest := toNat_bootTop image low (s.read32 mb2_addr)
  obtain ⟨start, all⟩ := le_foldl_raise (modulesOf tags) (bootTop image mb2_addr (s.read32 mb2_addr))
  have top : (placedState image mb2_addr tags s).bmp_phys.toNat =
      ((locatedState image mb2_addr tags s).bmp_phys.toNat + 4095) / 4096 * 4096 := toNat_align_up _ (by omega)
  have fold : (locatedState image mb2_addr tags s).bmp_phys =
      (modulesOf tags).foldl raise (bootTop image mb2_addr (s.read32 mb2_addr)) := rfl
  rw [fold] at top bound
  refine ⟨by omega, by omega, ?_, by omega⟩
  intro m member
  have := all m member
  omega

/-- The state once the bitmap is placed and all its bits are set. -/
def filled (image : Image) (mb2_addr : UInt64) (tags : List Tag) (s : State) : State :=
  fill (bitmap_size_bytes (placedState image mb2_addr tags s)) (placedState image mb2_addr tags s)

theorem bitmapOnly_filled (image : Image) (mb2_addr : UInt64) (tags : List Tag) (s : State) :
    BitmapOnly (placedState image mb2_addr tags s) (filled image mb2_addr tags s) :=
  bitmapOnly_fill _ (small_size _)

/-- Whatever touches the bitmap only leaves the block readable. -/
theorem agrees_placed (block : Block s mb2_addr tags) (low : mb2_addr < ONE_GIB) (offset : s.g_hhdm_offset = 0)
    {s' : State} (only : BitmapOnly (placedState image mb2_addr tags s) s') :
    Agrees s s' (mb2_addr.toNat + (s.read32 mb2_addr).toNat) := by
  obtain ⟨above, _, _, bound⟩ := placed_above image block low
  intro va inside
  exact agrees_of_bitmapOnly only offset above (by omega) va inside

/-- On a well-formed block below 1 GiB whose bitmap ends within the first GiB, the run
    returns, and its walks release the entries and reserve the modules. -/
theorem init_pmm_runs (image : Image) (block : Block s mb2_addr tags) (low : mb2_addr < ONE_GIB) (offset : s.g_hhdm_offset = 0)
    (fits : (placedState image mb2_addr tags s).bmp_phys + bitmap_size_bytes (placedState image mb2_addr tags s) ≤ ONE_GIB) :
    ∃ released reserved s', init_pmm image mb2_addr s = .ok () s' ∧
      Phases image mb2_addr s (locatedState image mb2_addr tags s) released reserved s' ∧
      Released (filled image mb2_addr tags s) (entriesOf tags) released ∧
      Reserved (keepBoot image mb2_addr released) (modulesOf tags) reserved := by
  have located := get_bitmap_location_eq image block low
  have onlyFilled := bitmapOnly_filled image mb2_addr tags s
  obtain ⟨_, released, release, cleared⟩ := (release_walk (s := filled image mb2_addr tags s) block.bound
    (fun s' only => agrees_placed block low offset (onlyFilled.trans only)) block.tagsAt).returns
  have onlyKept := (onlyFilled.trans cleared.1).trans
    (bitmapOnly_keepBoot image mb2_addr released)
  obtain ⟨_, reserved, reserve, marked⟩ := (reserve_walk (s := keepBoot image mb2_addr released) block.bound
    (fun s' only => agrees_placed block low offset (onlyKept.trans only)) block.tagsAt).returns
  refine ⟨released, reserved, _, ?_, ⟨located, fits, release, reserve, rfl⟩, cleared, marked⟩
  rw [init_pmm, bind_ok located]
  simp only [modify_bind, get_bind]
  have within := UInt64.not_lt.mpr fits
  rw [placedState, placed] at within
  rw [if_neg within]
  simp only [pure_bind, modify_bind]
  rw [filled, placedState, placed] at release
  rw [bind_ok release]
  simp only [modify_bind, get_bind]
  rw [keepBoot] at reserve
  rw [bind_ok reserve]
  rfl

/-- The bytes of a page, or of any region, as a set of addresses. -/
def page (i : Nat) : Set Nat := Set.Ico (4096 * i) (4096 * (i + 1))

theorem page_subset (i lo hi : Nat) : page i ⊆ Set.Ico lo hi ↔ lo ≤ 4096 * i ∧ 4096 * (i + 1) ≤ hi :=
  Set.Ico_subset_Ico_iff (by omega)

/-- Rounding outwards marks exactly the pages that share a byte with the region. -/
theorem disjoint_page (lo hi : Nat) (start : lo < hi ∨ 4096 ∣ lo ∧ lo ≤ hi) (i : Nat) :
    Disjoint (page i) (Set.Ico lo hi) ↔ ¬ Touches lo hi i := by
  rw [page, Set.Ico_disjoint_Ico, Touches]
  rcases start with nonempty | ⟨⟨k, rfl⟩, order⟩
  · omega
  · omega

theorem beside_of_disjoint {i lo hi : Nat} (apart : Disjoint (page i) (Set.Ico lo hi)) (nonempty : lo < hi) :
    hi ≤ 4096 * i ∨ 4096 * (i + 1) ≤ lo := by
  rw [page, Set.Ico_disjoint_Ico] at apart
  omega

/-- A page lies wholly in one available entry and shares no byte with the first
    mebibyte, the kernel, the block, a module or the bitmap at `s`. -/
structure Spare (image : Image) (mb2_addr : UInt64) (mb2_size : Nat) (tags : List Tag) (s : State) (i : Nat) : Prop where
  available : ∃ x ∈ entriesOf tags, x.Available ∧ page i ⊆ Set.Ico x.addr.toNat x.stop
  low : Disjoint (page i) (Set.Ico 0 0x100000)
  kernel : Disjoint (page i)
    (Set.Ico (image.kernel_start - KERNEL_VMA).toNat (image.kernel_end - KERNEL_VMA).toNat)
  block : Disjoint (page i) (Set.Ico mb2_addr.toNat (mb2_addr.toNat + mb2_size))
  modules : ∀ m ∈ modulesOf tags, Disjoint (page i) (Set.Ico m.1.toNat m.2.toNat)
  bitmap : Disjoint (page i) (Set.Ico s.bmp_phys.toNat (s.bmp_phys.toNat + (bitmap_size_bytes s).toNat))

/-- A page shares no byte with the first mebibyte, the kernel, the block, a module or the
    bitmap at `s`. -/
structure Untouched (image : Image) (mb2_addr : UInt64) (mb2_size : Nat) (tags : List Tag) (s : State) (i : Nat) : Prop where
  low : Disjoint (page i) (Set.Ico 0 0x100000)
  kernel : Disjoint (page i)
    (Set.Ico (image.kernel_start - KERNEL_VMA).toNat (image.kernel_end - KERNEL_VMA).toNat)
  block : Disjoint (page i) (Set.Ico mb2_addr.toNat (mb2_addr.toNat + mb2_size))
  modules : ∀ m ∈ modulesOf tags, Disjoint (page i) (Set.Ico m.1.toNat m.2.toNat)
  bitmap : Disjoint (page i) (Set.Ico s.bmp_phys.toNat (s.bmp_phys.toNat + (bitmap_size_bytes s).toNat))

/-- Filling sets the bits of the first `n` bytes. -/
theorem marked_fill (n i : UInt64) (s : State) : Marked (fill n s) i ↔ i.toNat / 8 < n.toNat ∨ Marked s i := by
  have byte : s.bmp_phys + i / 8 - s.g_hhdm_offset + s.g_hhdm_offset - s.bmp_phys = i / 8 := by
    rw [UInt64.sub_add_cancel, UInt64.add_comm, UInt64.add_sub_cancel]
  have within : i / 8 < n ↔ i.toNat / 8 < n.toNat := by
    rw [UInt64.lt_iff_toNat_lt, UInt64.toNat_div]
    rfl
  have ones : ∀ j < 8, (0xFF : UInt8).toNat.testBit j = true := by decide
  have samePlace : place (fill n s) = place s := rfl
  rw [marked_iff_bit, marked_iff_bit, ByteBitmap.Bit, ByteBitmap.Bit, samePlace, place_byte]
  by_cases inside : i.toNat / 8 < n.toNat
  · simp only [fill, byte, if_pos (within.mpr inside), inside, true_or, iff_true]
    exact ones _ (Nat.mod_lt _ (by decide))
  · simp only [fill, byte, if_neg (within.not.mpr inside), inside, false_or]

/-- The size of the block is read again after the entries are released. -/
theorem marked_keepBoot {size : UInt32} (low : mb2_addr < ONE_GIB)
    (sameSize : ∀ s', BitmapOnly s s' → s'.read32 mb2_addr = size) (i : UInt64) :
    Marked (keepBoot image mb2_addr s) i ↔
      Touches mb2_addr.toNat (mb2_addr.toNat + size.toNat) i.toNat ∨
      Touches (image.kernel_start - KERNEL_VMA).toNat (image.kernel_end - KERNEL_VMA).toNat i.toNat ∨
      Touches 0 0x100000 i.toNat ∨ Marked s i := by
  obtain ⟨kernelEnd, kernelStart⟩ := phys_end image
  have kernelTop := image.kernel_end.toNat_lt
  have start := phys_start image
  have sizeBound := size.toNat_lt
  rw [UInt64.lt_iff_toNat_lt, toNat_ONE_GIB] at low
  have firstByte : image.kernel_start.toNat = 2 ^ 64 - 2 ^ 31 + 2 ^ 20 := by
    rw [Image.kernel_start]
    rfl
  have length : (image.kernel_end - image.kernel_start).toNat = image.kernel_end.toNat - image.kernel_start.toNat := by
    rw [UInt64.toNat_sub]
    omega
  have stop : (image.kernel_start - KERNEL_VMA).toNat + (image.kernel_end - image.kernel_start).toNat =
      (image.kernel_end - KERNEL_VMA).toNat := by omega
  rw [keepBoot, sameSize _ ((bitmapOnly_used _ _ _).trans (bitmapOnly_used _ _ _)),
    marked_used_region _ _ _ _ (by rw [UInt32.toNat_toUInt64]; omega), marked_used_region _ _ _ _ (by omega),
    marked_used_region _ _ _ _ (by simp), stop, UInt32.toNat_toUInt64]
  simp [Touches]

/-- A run that returned on a well-formed block is the one of `init_pmm_runs`. -/
theorem init_pmm_passes {boot : State} (block : Block boot mb2_addr tags) (offset : boot.g_hhdm_offset = 0)
    (done : init_pmm image mb2_addr boot = .ok () s) :
    mb2_addr < ONE_GIB ∧ ∃ released reserved, Phases image mb2_addr boot (locatedState image mb2_addr tags boot) released reserved s ∧
      Released (filled image mb2_addr tags boot) (entriesOf tags) released ∧
      Reserved (keepBoot image mb2_addr released) (modulesOf tags) reserved := by
  obtain ⟨located, _, _, phases⟩ := init_pmm_phases done
  obtain ⟨low, _⟩ := get_bitmap_location_any phases.locate
  have same : located = locatedState image mb2_addr tags boot := by
    have run := phases.locate
    rw [get_bitmap_location_eq image block low] at run
    cases run
    rfl
  obtain ⟨released, reserved, s', run, phases', cleared, marked⟩ := init_pmm_runs image block low offset (by
    rw [placedState, ← same]
    exact phases.fits)
  rw [done] at run
  cases run
  exact ⟨low, released, reserved, phases', cleared, marked⟩

/-- What the run computed from the tags. -/
theorem init_pmm_globals {boot : State} (block : Block boot mb2_addr tags) (on : PowerOn boot)
    (done : init_pmm image mb2_addr boot = .ok () s) :
    s.total_mem = (entriesOf tags).foldl grow 0 ∧ s.bmp_phys = (placedState image mb2_addr tags boot).bmp_phys ∧
      bitmap_size_bytes s = bitmap_size_bytes (placedState image mb2_addr tags boot) := by
  obtain ⟨_, _, _, phases, _, _⟩ := init_pmm_passes block on.offset done
  have only := bitmapOnly_phases phases
  have total : s.total_mem = (placedState image mb2_addr tags boot).total_mem := by rw [only.rest, placedState]
  refine ⟨?_, ?_, ?_⟩
  · rw [total, ← on.total]
    rfl
  · rw [only.rest, placedState]
  · rw [bitmap_size_bytes, bitmap_size_bytes, total]

/-- `init_pmm` returns on a block whose bitmap fits below 1 GiB. -/
theorem init_pmm_accepts (image : Image) {boot : State} (on : PowerOn boot) (block : Block boot mb2_addr tags)
    (low : mb2_addr < ONE_GIB)
    (fits : (placedState image mb2_addr tags boot).bmp_phys + bitmap_size_bytes (placedState image mb2_addr tags boot) ≤ ONE_GIB) :
    ∃ s, init_pmm image mb2_addr boot = .ok () s ∧ s.total_mem = (entriesOf tags).foldl grow 0 ∧
      s.bmp_phys = (placedState image mb2_addr tags boot).bmp_phys ∧
      bitmap_size_bytes s = bitmap_size_bytes (placedState image mb2_addr tags boot) := by
  obtain ⟨_, _, s, done, _⟩ := init_pmm_runs image block low on.offset fits
  exact ⟨s, done, init_pmm_globals block on done⟩

/-- The bits after the run, pass by pass. Beyond the bitmap a bit starts as the memory
    there has it. -/
theorem marked_anywhere {boot : State} (on : PowerOn boot) (block : Block boot mb2_addr tags)
    (unwrapped : ∀ x ∈ entriesOf tags, x.Available → x.stop < 2 ^ 64) (forward : ∀ m ∈ modulesOf tags, m.1 < m.2)
    (done : init_pmm image mb2_addr boot = .ok () s) (i : UInt64) :
    Marked s i ↔ Touches s.bmp_phys.toNat (s.bmp_phys.toNat + (bitmap_size_bytes s).toNat) i.toNat ∨
      (∃ m ∈ modulesOf tags, Touches m.1.toNat m.2.toNat i.toNat) ∨
      Touches mb2_addr.toNat (mb2_addr.toNat + (boot.read32 mb2_addr).toNat) i.toNat ∨
      Touches (image.kernel_start - KERNEL_VMA).toNat (image.kernel_end - KERNEL_VMA).toNat i.toNat ∨
      Touches 0 0x100000 i.toNat ∨
      (i.toNat / 8 < (bitmap_size_bytes s).toNat ∨ Marked (placedState image mb2_addr tags boot) i) ∧
        ∀ x ∈ entriesOf tags, ¬ Entry.Holds x i.toNat := by
  obtain ⟨low, released, reserved, phases, cleared, marked⟩ := init_pmm_passes block on.offset done
  obtain ⟨total, start, size⟩ := init_pmm_globals block on done
  have accepted := init_pmm_accepted done
  have small : ∀ x ∈ entriesOf tags, x.Available → x.stop < 2 ^ 45 := by
    intro x member available
    have below := stop_le_total unwrapped 0 member available
    rw [← total] at below
    exact lt_of_le_of_lt below accepted.total
  have onlyReleased := (bitmapOnly_filled image mb2_addr tags boot).trans cleared.1
  have sizeAgain : ∀ s', BitmapOnly released s' → s'.read32 mb2_addr = boot.read32 mb2_addr := by
    intro s' only
    have size := block.header_size
    exact read32_agrees (agrees_placed block low on.offset (onlyReleased.trans only)) block.bound.le (by omega)
  have bmp : reserved.bmp_phys = s.bmp_phys := by
    rw [phases.bitmap]
    exact (congrArg State.bmp_phys (bitmapOnly_used _ _ _).rest).symm
  have fits := accepted.fits
  have last : Marked s i ↔ Touches s.bmp_phys.toNat (s.bmp_phys.toNat + (bitmap_size_bytes s).toNat) i.toNat ∨
      Marked reserved i := by
    have run := phases.bitmap
    rw [bmp, ← placedState, ← size] at run
    conv_lhs => rw [run]
    rw [marked_used_region _ _ _ _ (by omega), Touches]
  rw [last, marked.2 forward, marked_keepBoot low sizeAgain, cleared.2 small, filled, marked_fill, ← size]

/-- The bits of the bitmap after the run. -/
theorem marked_after {boot : State} (on : PowerOn boot) (block : Block boot mb2_addr tags)
    (unwrapped : ∀ x ∈ entriesOf tags, x.Available → x.stop < 2 ^ 64) (forward : ∀ m ∈ modulesOf tags, m.1 < m.2)
    (done : init_pmm image mb2_addr boot = .ok () s) {i : UInt64} (inside : i.toNat / 8 < (bitmap_size_bytes s).toNat) :
    Marked s i ↔ Touches s.bmp_phys.toNat (s.bmp_phys.toNat + (bitmap_size_bytes s).toNat) i.toNat ∨
      (∃ m ∈ modulesOf tags, Touches m.1.toNat m.2.toNat i.toNat) ∨
      Touches mb2_addr.toNat (mb2_addr.toNat + (boot.read32 mb2_addr).toNat) i.toNat ∨
      Touches (image.kernel_start - KERNEL_VMA).toNat (image.kernel_end - KERNEL_VMA).toNat i.toNat ∨
      Touches 0 0x100000 i.toNat ∨ ∀ x ∈ entriesOf tags, ¬ Entry.Holds x i.toNat := by
  rw [marked_anywhere on block unwrapped forward done]
  simp only [inside, true_or, true_and]

/-- A bit is clear exactly when its page is untouched, and wholly in an available entry or
    without a bit in the bitmap and with a clear bit in the memory after it. -/
theorem clear_anywhere {boot : State} (on : PowerOn boot) (block : Block boot mb2_addr tags)
    (unwrapped : ∀ x ∈ entriesOf tags, x.Available → x.stop < 2 ^ 64) (forward : ∀ m ∈ modulesOf tags, m.1 < m.2)
    (done : init_pmm image mb2_addr boot = .ok () s) (i : UInt64) :
    ¬ Marked s i ↔ Untouched image mb2_addr (boot.read32 mb2_addr).toNat tags s i.toNat ∧
      ((∃ x ∈ entriesOf tags, x.Available ∧ page i.toNat ⊆ Set.Ico x.addr.toNat x.stop) ∨
        (bitmap_size_bytes s).toNat ≤ i.toNat / 8 ∧ ¬ Marked (placedState image mb2_addr tags boot) i) := by
  obtain ⟨kernelEnd, kernelTop⟩ := phys_end image
  have kernelStart := phys_start image
  have size := block.header_size
  have aligned := Nat.dvd_of_mod_eq_zero (init_pmm_accepted done).aligned
  have low := disjoint_page 0 0x100000 (.inl (by decide)) i.toNat
  have kernel := disjoint_page (image.kernel_start - KERNEL_VMA).toNat (image.kernel_end - KERNEL_VMA).toNat
    (.inr ⟨⟨256, by omega⟩, by omega⟩) i.toNat
  have info := disjoint_page mb2_addr.toNat (mb2_addr.toNat + (boot.read32 mb2_addr).toNat)
    (.inl (by omega)) i.toNat
  have modules := fun (m : UInt32 × UInt32) (module : m ∈ modulesOf tags) =>
    disjoint_page _ _ (.inl (UInt32.lt_iff_toNat_lt.mp (forward m module))) i.toNat
  have bitmap := disjoint_page s.bmp_phys.toNat (s.bmp_phys.toNat + (bitmap_size_bytes s).toNat)
    (.inr ⟨aligned, by omega⟩) i.toNat
  rw [marked_anywhere on block unwrapped forward done]
  constructor
  · intro clear
    simp only [not_or, not_exists, not_and] at clear
    obtain ⟨offBitmap, offModules, offBlock, offKernel, offLow, rest⟩ := clear
    refine ⟨⟨low.mpr offLow, kernel.mpr offKernel, info.mpr offBlock,
      fun m module => (modules m module).mpr (offModules m module), bitmap.mpr offBitmap⟩, ?_⟩
    by_cases begun : i.toNat / 8 < (bitmap_size_bytes s).toNat ∨ Marked (placedState image mb2_addr tags boot) i
    · have held := rest begun
      push Not at held
      obtain ⟨x, member, available, holds⟩ := held
      exact .inl ⟨x, member, available, (page_subset _ _ _).mpr holds⟩
    · rw [not_or, not_lt] at begun
      exact .inr begun
  · rintro ⟨⟨offLow, offKernel, offBlock, offModules, offBitmap⟩, available⟩
    rintro (inBitmap | ⟨m, module, inModule⟩ | inBlock | inKernel | inLow | ⟨begun, none⟩)
    · exact bitmap.mp offBitmap inBitmap
    · exact (modules m module).mp (offModules m module) inModule
    · exact info.mp offBlock inBlock
    · exact kernel.mp offKernel inKernel
    · exact low.mp offLow inLow
    · rcases available with ⟨x, member, available, inside⟩ | ⟨beyond, clear⟩
      · exact none x member ⟨available, (page_subset _ _ _).mp inside⟩
      · exact begun.elim (fun inside => by omega) clear

/-- A bit below the end of memory is clear exactly when its page is spare. -/
theorem clear_iff_spare {boot : State} (on : PowerOn boot) (block : Block boot mb2_addr tags)
    (unwrapped : ∀ x ∈ entriesOf tags, x.Available → x.stop < 2 ^ 64) (forward : ∀ m ∈ modulesOf tags, m.1 < m.2)
    (done : init_pmm image mb2_addr boot = .ok () s)
    (enough : s.total_mem.toNat / 4096 ≤ 8 * (bitmap_size_bytes s).toNat) {i : UInt64}
    (managed : i.toNat < s.total_mem.toNat / 4096) :
    ¬ Marked s i ↔ Spare image mb2_addr (boot.read32 mb2_addr).toNat tags s i.toNat := by
  rw [clear_anywhere on block unwrapped forward done]
  constructor
  · rintro ⟨⟨low, kernel, info, modules, bitmap⟩, available | ⟨beyond, _⟩⟩
    · exact ⟨available, low, kernel, info, modules, bitmap⟩
    · omega
  · rintro ⟨available, low, kernel, info, modules, bitmap⟩
    exact ⟨⟨low, kernel, info, modules, bitmap⟩, .inl available⟩

/-- The bits of the bitmap beyond the end of memory stay set. -/
theorem marked_beyond {boot : State} (on : PowerOn boot) (block : Block boot mb2_addr tags)
    (unwrapped : ∀ x ∈ entriesOf tags, x.Available → x.stop < 2 ^ 64) (forward : ∀ m ∈ modulesOf tags, m.1 < m.2)
    (done : init_pmm image mb2_addr boot = .ok () s) {i : UInt64} (beyond : s.total_mem.toNat / 4096 ≤ i.toNat)
    (inside : i.toNat < 8 * (bitmap_size_bytes s).toNat) : Marked s i := by
  obtain ⟨total, _⟩ := init_pmm_globals block on done
  rw [marked_after on block unwrapped forward done (by omega)]
  refine .inr (.inr (.inr (.inr (.inr ?_))))
  rintro x member ⟨available, _, holds⟩
  have below := stop_le_total unwrapped 0 member available
  rw [← total] at below
  omega

/-- The exact free set: after `init_pmm` accepted a well-formed block, a bit below the
    end of memory is clear exactly when its page is spare, and every other bit is set. -/
theorem free_set_exact {boot : State} (on : PowerOn boot) (block : Block boot mb2_addr tags)
    (unwrapped : ∀ x ∈ entriesOf tags, x.Available → x.stop < 2 ^ 64) (forward : ∀ m ∈ modulesOf tags, m.1 < m.2)
    (done : init_pmm image mb2_addr boot = .ok () s)
    (enough : s.total_mem.toNat / 4096 ≤ 8 * (bitmap_size_bytes s).toNat) :
    (∀ i : UInt64, i.toNat < s.total_mem.toNat / 4096 →
      (¬ Marked s i ↔ Spare image mb2_addr (boot.read32 mb2_addr).toNat tags s i.toNat)) ∧
      ∀ i : UInt64, s.total_mem.toNat / 4096 ≤ i.toNat → i.toNat < 8 * (bitmap_size_bytes s).toNat → Marked s i :=
  ⟨fun _ managed => clear_iff_spare on block unwrapped forward done enough managed,
    fun _ beyond inside => marked_beyond on block unwrapped forward done beyond inside⟩

/-- A page of an available entry above the bitmap is free. -/
theorem free_above_bitmap {boot : State} (on : PowerOn boot) (block : Block boot mb2_addr tags)
    (unwrapped : ∀ x ∈ entriesOf tags, x.Available → x.stop < 2 ^ 64) (forward : ∀ m ∈ modulesOf tags, m.1 < m.2)
    (done : init_pmm image mb2_addr boot = .ok () s) {i : UInt64} {x : Entry} (member : x ∈ entriesOf tags)
    (available : x.Available) (low : x.addr.toNat ≤ 4096 * i.toNat) (high : 4096 * (i.toNat + 1) ≤ x.stop)
    (above : s.bmp_phys.toNat + (bitmap_size_bytes s).toNat ≤ 4096 * i.toNat) : Free s i := by
  obtain ⟨first, _⟩ := init_pmm_passes block on.offset done
  obtain ⟨total, start, _⟩ := init_pmm_globals block on done
  obtain ⟨aboveBlock, aboveKernel, aboveModules, _⟩ := placed_above image block first
  obtain ⟨kernelEnd, _⟩ := phys_end image
  rw [← start] at aboveBlock aboveKernel aboveModules
  have apart : ∀ lo hi, hi ≤ 4096 * i.toNat → Disjoint (page i.toNat) (Set.Ico lo hi) := by
    intro lo hi below
    rw [page, Set.Ico_disjoint_Ico]
    omega
  refine ⟨?_, (clear_anywhere on block unwrapped forward done i).mpr ⟨⟨?_, ?_, ?_, ?_, apart _ _ above⟩,
    .inl ⟨x, member, available, (page_subset _ _ _).mpr ⟨low, high⟩⟩⟩⟩
  · have below := stop_le_total unwrapped 0 member available
    rw [← total] at below
    rw [UInt64.lt_iff_toNat_lt, addr_to_idx, UInt64.toNat_div, toNat_PAGE_SIZE]
    omega
  · exact apart _ _ (by omega)
  · exact apart _ _ (by omega)
  · exact apart _ _ (by omega)
  · intro m module
    have below := aboveModules m module
    exact apart _ _ (by omega)

end

/-! ## A block of one memory-map tag -/

def le32 (x : UInt32) : List UInt8 := [x.toUInt8, (x >>> 8).toUInt8, (x >>> 16).toUInt8, (x >>> 24).toUInt8]
def le64 (x : UInt64) : List UInt8 := le32 x.toUInt32 ++ le32 (x >>> 32).toUInt32

/-- The machine when the boot loader has put the bytes at an address. -/
def loaded (bytes : List UInt8) (mb2_addr : UInt64) : State where
  mem a := bytes.getD (a - mb2_addr).toNat 0
  frames _ _ := 0
  bmp_phys := 0
  total_mem := 0
  g_hhdm_offset := 0
  kernel_pml4 := 0
  vmm_bitmap _ := 0
  last_allocated_index := 0
  journal := []

/-- An image that ends at 2 MiB. -/
def smallImage : Image := ⟨KERNEL_VMA + 0x200000, by decide⟩

/-- 32 MiB of available memory and one section of the kernel. -/
def smallTags : List Tag :=
  [.mmap [⟨0, 0x2000000, 1⟩], .elf [⟨SHF_ALLOC, KERNEL_VMA + 0x100000, 0x1000⟩]]

def smallBytes : List UInt8 :=
  le32 144 ++ le32 0 ++
  (le32 6 ++ le32 40 ++ le32 24 ++ le32 0 ++ le64 0 ++ le64 0x2000000 ++ le32 1 ++ le32 0) ++
  (le32 9 ++ le32 84 ++ le32 1 ++ le32 64 ++ le32 0 ++ le64 0 ++ le64 SHF_ALLOC ++ le64 (KERNEL_VMA + 0x100000) ++ le64 0 ++
    le64 0x1000 ++ le64 0 ++ le64 0 ++ le64 0 ++ le32 0) ++
  (le32 0 ++ le32 8)

def smallBoot : State := loaded smallBytes 0x200000

theorem powerOn_small : PowerOn smallBoot := ⟨rfl, rfl, rfl, rfl⟩

theorem block_small : Block smallBoot 0x200000 smallTags := by decide +kernel

theorem small_fits : (placedState smallImage 0x200000 smallTags smallBoot).bmp_phys +
    bitmap_size_bytes (placedState smallImage 0x200000 smallTags smallBoot) ≤ ONE_GIB := by
  decide +kernel

theorem unwrapped_small : ∀ x ∈ entriesOf smallTags, x.Available → x.stop < 2 ^ 64 := by decide +kernel

theorem forward_small : ∀ m ∈ modulesOf smallTags, m.1 < m.2 := by
  intro m member
  cases member

/-- `init_pmm` returns on the block. -/
theorem init_pmm_small : ∃ s, init_pmm smallImage 0x200000 smallBoot = .ok () s ∧ s.total_mem = 0x2000000 ∧
    s.bmp_phys = 0x201000 ∧ bitmap_size_bytes s = 4096 := by
  obtain ⟨s, done, total, start, size⟩ := init_pmm_accepts smallImage powerOn_small block_small (by decide) small_fits
  exact ⟨s, done, total.trans (by decide +kernel), start.trans (by decide +kernel), size.trans (by decide +kernel)⟩

theorem free_set_exact_small : ∃ s, init_pmm smallImage 0x200000 smallBoot = .ok () s ∧
    (∀ i : UInt64, i.toNat < s.total_mem.toNat / 4096 →
      (¬ Marked s i ↔ Spare smallImage 0x200000 (smallBoot.read32 0x200000).toNat smallTags s i.toNat)) ∧
    ∀ i : UInt64, s.total_mem.toNat / 4096 ≤ i.toNat → i.toNat < 8 * (bitmap_size_bytes s).toNat → Marked s i := by
  obtain ⟨s, done, total, _, size⟩ := init_pmm_small
  exact ⟨s, done, free_set_exact powerOn_small block_small unwrapped_small forward_small done
    (by rw [total, size]; decide)⟩

/-- Everything above the bitmap is free. -/
theorem free_small {s : State} (done : init_pmm smallImage 0x200000 smallBoot = .ok () s) {i : UInt64}
    (above : 0x202 ≤ i.toNat) (inside : i.toNat < 0x2000) : Free s i := by
  obtain ⟨s', done', _, start, size⟩ := init_pmm_small
  rw [done] at done'
  cases done'
  have entry : (⟨0, 0x2000000, 1⟩ : Entry) ∈ entriesOf smallTags := by decide
  have stop : Entry.stop ⟨0, 0x2000000, 1⟩ = 0x2000000 := rfl
  have top : s.bmp_phys.toNat + (bitmap_size_bytes s).toNat = 0x202000 := by rw [start, size]; rfl
  exact free_above_bitmap powerOn_small block_small unwrapped_small forward_small done entry rfl (Nat.zero_le _)
    (by omega) (by omega)

end Extron.FreeSet
