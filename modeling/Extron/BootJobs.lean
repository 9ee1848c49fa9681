import Extron.Accounting
import Extron.FreeSet
import Extron.FrameRuns

/-!
The address space that `init_paging` builds, as one list of jobs: the pages of the
kernel's ELF sections, in the order of the block, and then the pages of the direct
map. On a well-formed block a run of `init_paging` takes a frame for the root,
serves the jobs one after the other, and switches to the new tables.
-/
namespace Extron.BootJobs
open Extron.Multiboot Extron.Format Extron.Pmm Extron.InitPmm Extron.FreeSet Extron.Paging Extron.Outcomes
set_option linter.unusedSimpArgs false

/-! ## What the page tables leave alone -/

/-- `s'` differs from `s` at most in table words, in the bytes from the start of the
    bitmap on, and in the journal. -/
structure Kept (s s' : State) : Prop where
  rest : s' = { s with mem := s'.mem, frames := s'.frames, journal := s'.journal }
  below : ∀ a, 2 ^ 61 ≤ (a + s.g_hhdm_offset - s.bmp_phys).toNat → s'.mem a = s.mem a

theorem Kept.refl (s : State) : Kept s s := ⟨rfl, fun _ _ => rfl⟩

theorem Kept.trans {s t u : State} (first : Kept s t) (second : Kept t u) : Kept s u := by
  have offset : t.g_hhdm_offset = s.g_hhdm_offset := by rw [first.rest]
  have start : t.bmp_phys = s.bmp_phys := by rw [first.rest]
  refine ⟨?_, ?_⟩
  · rw [second.rest, first.rest]
  · intro a outside
    rw [second.below a (by rw [offset, start]; exact outside), first.below a outside]

theorem kept_of_bitmapOnly {s s' : State} (only : BitmapOnly s s') : Kept s s' := by
  refine ⟨?_, only.below⟩
  conv_lhs => rw [only.rest]
  have frames : s'.frames = s.frames := by rw [only.rest]
  have journal : s'.journal = s.journal := by rw [only.rest]
  rw [frames, journal]

/-- A function that changes nothing else, however it ends. -/
def Keeps {α : Type} (x : Kernel α) : Prop := ∀ s, Post (fun _ => Kept s) (fun _ => Kept s) (x s)

theorem keeps_iff {α : Type} {x : Kernel α} : Keeps x ↔ ∀ s₀, Preserves (Kept s₀) x := by
  constructor
  · intro keeps s₀ s before
    exact (keeps s).mono (fun _ _ after => before.trans after) (fun _ _ after => before.trans after)
  · intro preserves s
    exact preserves s s (Kept.refl s)

theorem keeps_of_quiet {α : Type} {x : Kernel α} (quiet : Quiet x) : Keeps x := keeps_iff.mpr fun _ => quiet.preserves

theorem keeps_pure {α : Type} (a : α) : Keeps (pure a) := keeps_of_quiet (quiet_pure a)

theorem keeps_bind {α β : Type} {x : Kernel α} {f : α → Kernel β} (first : Keeps x) (rest : ∀ a, Keeps (f a)) :
    Keeps (x >>= f) :=
  keeps_iff.mpr fun s₀ => preserves_bind (keeps_iff.mp first s₀) fun a => keeps_iff.mp (rest a) s₀

theorem keeps_ite {α : Type} {c : Prop} [Decidable c] {x y : Kernel α} (first : Keeps x) (second : Keeps y) :
    Keeps (if c then x else y) :=
  keeps_iff.mpr fun s₀ => preserves_ite (keeps_iff.mp first s₀) (keeps_iff.mp second s₀)

theorem keeps_store (t : UInt64) (i : Fin 512) (w : UInt64) : Keeps (store t i w) :=
  keeps_bind (keeps_of_quiet (quiet_deref t)) fun _ _ => ⟨rfl, fun _ _ => rfl⟩

theorem keeps_clear_table (t : UInt64) : Keeps (clear_table t) :=
  keeps_bind (keeps_of_quiet (quiet_deref t)) fun _ _ => ⟨rfl, fun _ _ => rfl⟩

theorem keeps_pmm_alloc_page : Keeps pmm_alloc_page := by
  intro s
  rcases pmm_alloc_page_cases s with ⟨i, _, _, runs⟩ | ⟨_, runs⟩
  · rw [runs]
    exact kept_of_bitmapOnly (bitmapOnly_set s i)
  · rw [runs]
    exact Kept.refl s

theorem keeps_get_next_table (t : UInt64) (i : Fin 512) : Keeps (get_next_table t i) :=
  keeps_bind (keeps_of_quiet (quiet_load t i)) fun _ => keeps_ite (keeps_pure _) <| keeps_bind keeps_pmm_alloc_page fun _ =>
    keeps_ite (keeps_pure _) <| keeps_bind (keeps_clear_table _) fun _ => keeps_bind (keeps_store _ _ _) fun _ =>
      keeps_pure _

theorem keeps_record (event : Event) : Keeps (record event) := fun _ => ⟨rfl, fun _ _ => rfl⟩

theorem keeps_map_page (root v phys flags : UInt64) : Keeps (map_page root v phys flags) := by
  have walk : Keeps (map_page.go root v phys flags) :=
    keeps_bind (keeps_get_next_table _ _) fun _ => keeps_ite (keeps_pure _) <|
      keeps_bind (keeps_get_next_table _ _) fun _ => keeps_ite (keeps_pure _) <|
      keeps_bind (keeps_get_next_table _ _) fun _ => keeps_ite (keeps_pure _) <|
      keeps_bind (keeps_of_quiet (quiet_load _ _)) fun _ => keeps_ite (keeps_ite (keeps_pure _) (keeps_pure _)) <|
      keeps_bind (keeps_store _ _ _) fun _ => keeps_pure _
  exact keeps_bind walk fun _ => keeps_bind (keeps_record _) fun _ => keeps_pure _

/-- The block stays readable while the tables are built. -/
theorem agrees_of_kept {s s' : State} {limit : Nat} (kept : Kept s s') (offset : s.g_hhdm_offset = 0)
    (below : limit ≤ s.bmp_phys.toNat) (small : s.bmp_phys.toNat ≤ 2 ^ 34) : Agrees s s' limit := by
  have same : s'.g_hhdm_offset = 0 := by rw [kept.rest]; exact offset
  intro va inside
  rw [State.byte, State.byte, same, offset, UInt64.sub_zero]
  apply kept.below
  rw [offset, UInt64.add_zero, UInt64.toNat_sub]
  omega

/-! ## The ELF sections of a block -/

/-- The section headers of the first ELF-sections tag. -/
def elfOf : List Tag → Option (List Elf64Shdr)
  | [] => none
  | .elf sections :: _ => some sections
  | _ :: rest => elfOf rest

section
variable {s₀ s : State} {limit : Nat}

theorem search_eq (whole : limit < 2 ^ 64) (agree : Agrees s₀ s limit) {tag : UInt64} {tags : List Tag}
    (content : TagsAt s₀ limit tag tags) {rounds : Nat} (enough : tags.length < rounds) :
    elfOf tags = none ∧ find_elf_sections.search rounds tag s = .ok none s ∨
      ∃ elf_tag sections, elfOf tags = some sections ∧ find_elf_sections.search rounds tag s = .ok (some elf_tag) s ∧
        Describes s₀ elf_tag (.elf sections) ∧ elf_tag.toNat + padded (tag_size s₀ elf_tag).toNat ≤ limit := by
  induction content generalizing rounds with
  | @stop tag type inside =>
    cases rounds with
    | zero => omega
    | succ rounds =>
      have same : tag_type s tag = MULTIBOOT_TAG_TYPE_END := by rw [tag_type_agrees agree whole.le inside, type]
      simp only [find_elf_sections.search, get_bind, if_pos same]
      exact .inl ⟨rfl, rfl⟩
  | @more tag t rest head wide small inside tail ih =>
    cases rounds with
    | zero => simp at enough
    | succ rounds =>
      have room : tag.toNat + 8 ≤ limit := by
        unfold padded at inside
        omega
      have same := tag_type_agrees agree whole.le room
      have sameSize := tag_size_agrees agree whole.le room
      have next : tag + ((tag_size s tag + 7) &&& ~~~7).toUInt64 = tag + UInt64.ofNat (padded (tag_size s₀ tag).toNat) := by
        rw [sameSize, round_up _ small]
      have onward := @ih rounds (by simpa using enough)
      rw [← next] at onward
      by_cases elf : ∃ sections, t = .elf sections
      · obtain ⟨sections, rfl⟩ := elf
        have type : tag_type s tag = MULTIBOOT_TAG_TYPE_ELF_SECTIONS := by
          cases head with
          | elf type => rw [same, type]
        have going : tag_type s tag ≠ MULTIBOOT_TAG_TYPE_END := by
          rw [type]
          decide
        simp only [find_elf_sections.search, get_bind, if_neg going, if_pos type]
        exact .inr ⟨tag, sections, rfl, rfl, head, inside⟩
      · have skip : elfOf (t :: rest) = elfOf rest := by
          cases t with
          | elf sections => exact absurd ⟨sections, rfl⟩ elf
          | module => rfl
          | mmap => rfl
          | other => rfl
        have kinds : tag_type s tag ≠ MULTIBOOT_TAG_TYPE_END ∧ tag_type s tag ≠ MULTIBOOT_TAG_TYPE_ELF_SECTIONS := by
          rw [same]
          cases head with
          | module type => rw [type]; decide
          | mmap type => rw [type]; decide
          | @elf sections => exact absurd ⟨sections, rfl⟩ elf
          | other notEnd _ _ notElf => exact ⟨notEnd, notElf⟩
        simp only [find_elf_sections.search, get_bind, if_neg kinds.1, if_neg kinds.2, skip]
        exact onward

end

/-! ## Jobs -/

inductive Job
  | map (virt phys flags : UInt64) (call : Int32 → Panic)
  | spin

/-- A call of `map_page` whose result is checked. -/
def Job.run (root : UInt64) : Job → Kernel Unit
  | .map virt phys flags call => do
    let res ← map_page root virt phys flags
    if res ≠ 0 then
      panic (call res)
  | .spin => throw .spin

def serve (root : UInt64) : List Job → Kernel Unit
  | [] => pure ()
  | job :: rest => do
    job.run root
    serve root rest

/-- The jobs of a page loop that runs from `v` to `stop`. -/
def pageJobs (job : UInt64 → Job) (stop : UInt64) : Nat → UInt64 → List Job
  | 0, _ => [.spin]
  | rounds + 1, v => if v < stop then job v :: pageJobs job stop rounds (v + PAGE_SIZE) else []

def sectionJobs (sh : Elf64Shdr) : List Job :=
  if sh.sh_flags &&& SHF_ALLOC ≠ 0 then
    pageJobs (fun v => .map v (v - KERNEL_VMA) (section_flags sh) (.elfMapping v)) (sh.sh_addr + sh.sh_size) addresses
      (align_down sh.sh_addr PAGE_SIZE)
  else []

def directJobs (total_mem : UInt64) : List Job :=
  pageJobs (fun i => .map (NEW_HDDM + i) i (PAGE_PRESENT ||| PAGE_WRITE ||| PAGE_NX) fun _ => .hhdmMapping)
    (align_down total_mem PAGE_SIZE) addresses 0

def bootJobs (sections : List Elf64Shdr) (total_mem : UInt64) : List Job :=
  sections.flatMap sectionJobs ++ directJobs total_mem

section
variable {root : UInt64}

theorem serve_append (a b : List Job) : serve root (a ++ b) = serve root a >>= fun _ => serve root b := by
  induction a with
  | nil => rfl
  | cons job rest ih =>
    simp only [List.cons_append, serve, ih, bind_assoc]

theorem keeps_job (root : UInt64) (job : Job) : Keeps (job.run root) := by
  cases job with
  | map virt phys flags call =>
    refine keeps_bind (keeps_map_page _ _ _ _) fun res => ?_
    split
    · exact fun s => Kept.refl s
    · exact keeps_pure _
  | spin => exact fun s => Kept.refl s

theorem keeps_serve (root : UInt64) (jobs : List Job) : Keeps (serve root jobs) := by
  induction jobs with
  | nil => exact keeps_pure _
  | cons job rest ih => exact keeps_bind (keeps_job root job) fun _ => ih

theorem pageJobs_cons {job : UInt64 → Job} {stop v : UInt64} (inside : v < stop) :
    pageJobs job stop addresses v = job v :: pageJobs job stop (addresses - 1) (v + PAGE_SIZE) := by
  have rounds : addresses = addresses - 1 + 1 := by decide
  rw [rounds, pageJobs, if_pos inside]
  rfl

theorem for_pages_eq {body : UInt64 → Kernel Unit} (job : UInt64 → Job) (same : ∀ v, body v = (job v).run root)
    (stop : UInt64) (rounds : Nat) (v : UInt64) : for_pages body stop rounds v = serve root (pageJobs job stop rounds v) := by
  induction rounds generalizing v with
  | zero => rfl
  | succ rounds ih =>
    rw [for_pages, pageJobs]
    split
    · rw [serve, ih, same]
    · rfl

theorem map_section_eq (sh : Elf64Shdr) : map_kernel_elf_sections.map_section root sh = serve root (sectionJobs sh) := by
  rw [map_kernel_elf_sections.map_section, sectionJobs]
  split
  · exact for_pages_eq (fun v => .map v (v - KERNEL_VMA) (section_flags sh) (.elfMapping v)) (fun _ => rfl) _ _ _
  · rfl

section
variable {s₀ s : State} {limit : Nat} {elf_tag : UInt64} {sections : List Elf64Shdr}

/-- The headers read during the loop are those of the tag. -/
theorem section_header_agrees (whole : limit < 2 ^ 64) (agree : Agrees s₀ s limit) {i : Nat}
    (inside : elf_tag.toNat + 20 + 64 * i + 64 ≤ limit) :
    section_header s (elf_sections elf_tag) i = section_header s₀ (elf_sections elf_tag) i := by
  have start : (elf_sections elf_tag + 64 * UInt64.ofNat i).toNat = elf_tag.toNat + 20 + 64 * i := by
    rw [elf_sections, UInt64.toNat_add, UInt64.toNat_add, UInt64.toNat_mul, UInt64.toNat_ofNat']
    simp
    omega
  have field : ∀ k : UInt64, k.toNat ≤ 56 → s.read64 (elf_sections elf_tag + 64 * UInt64.ofNat i + k) =
      s₀.read64 (elf_sections elf_tag + 64 * UInt64.ofNat i + k) := by
    intro k small
    exact field64_agrees agree whole.le (by rw [start]; omega)
  simp only [section_header, field 8 (by decide), field 16 (by decide), field 32 (by decide)]

theorem sections_eq (whole : limit < 2 ^ 64) (describes : Describes s₀ elf_tag (.elf sections))
    (inside : elf_tag.toNat + (tag_size s₀ elf_tag).toNat ≤ limit) (agree : ∀ s', Kept s s' → Agrees s₀ s' limit)
    {rounds i : Nat} {rest : List Elf64Shdr} (here : sections.drop i = rest) (place : i ≤ sections.length)
    (enough : rest.length < rounds) :
    map_kernel_elf_sections.sections root elf_tag rounds i s = serve root (rest.flatMap sectionJobs) s := by
  obtain ⟨_, size, content⟩ : tag_type s₀ elf_tag = MULTIBOOT_TAG_TYPE_ELF_SECTIONS ∧
      20 + 64 * (elf_num s₀ elf_tag).toNat ≤ (tag_size s₀ elf_tag).toNat ∧
      sections = (List.range (elf_num s₀ elf_tag).toNat).map (section_header s₀ (elf_sections elf_tag)) := by
    cases describes with
    | elf type size content => exact ⟨type, size, content⟩
  have count : sections.length = (elf_num s₀ elf_tag).toNat := by rw [content]; simp
  induction rest generalizing rounds i s with
  | nil =>
    cases rounds with
    | zero => simp at enough
    | succ rounds =>
      have sameNum : elf_num s elf_tag = elf_num s₀ elf_tag :=
        field32_agrees (agree s (Kept.refl s)) whole.le (k := 8) (by simp; omega)
      have past : ¬ i < (elf_num s elf_tag).toNat := by
        rw [sameNum, ← count]
        have := List.drop_eq_nil_iff.mp here
        omega
      simp only [map_kernel_elf_sections.sections, get_bind, if_neg past]
      rfl
  | cons sh rest ih =>
    cases rounds with
    | zero => simp at enough
    | succ rounds =>
      have sameNum : elf_num s elf_tag = elf_num s₀ elf_tag :=
        field32_agrees (agree s (Kept.refl s)) whole.le (k := 8) (by simp; omega)
      have within : i < sections.length := by
        by_contra beyond
        rw [List.drop_eq_nil_iff.mpr (by omega)] at here
        cases here
      have going : i < (elf_num s elf_tag).toNat := by
        rw [sameNum, ← count]
        exact within
      have split := List.drop_eq_getElem_cons within
      rw [here] at split
      obtain ⟨head, tail⟩ := List.cons.inj split
      have header : section_header s (elf_sections elf_tag) i = sh := by
        rw [section_header_agrees whole (agree s (Kept.refl s)) (by omega), head]
        simp [content]
      simp only [map_kernel_elf_sections.sections, get_bind, if_pos going, header, map_section_eq, List.flatMap_cons,
        serve_append]
      apply bind_congr_of
      intro _ mid ran
      have kept := (keeps_serve root (sectionJobs sh) s).of_ok ran
      exact ih (fun s' later => agree s' (kept.trans later)) tail.symm (by omega) (by simpa using enough)

end

/-- The direct map is served by its jobs as long as the root is the kernel's. -/
theorem direct_eq {s : State} (own : s.kernel_pml4 = root) (stop : UInt64) (rounds : Nat) (i : UInt64) :
    for_pages init_paging.map_direct stop rounds i s =
      serve root (pageJobs (fun i => .map (NEW_HDDM + i) i (PAGE_PRESENT ||| PAGE_WRITE ||| PAGE_NX) fun _ => .hhdmMapping)
        stop rounds i) s := by
  induction rounds generalizing i s with
  | zero => rfl
  | succ rounds ih =>
    rw [for_pages, pageJobs]
    split
    · have body : init_paging.map_direct i s = Job.run root
          (.map (NEW_HDDM + i) i (PAGE_PRESENT ||| PAGE_WRITE ||| PAGE_NX) fun _ => .hhdmMapping) s := by
        rw [init_paging.map_direct, get_bind, own]
        rfl
      rw [serve]
      cases ran : Job.run root (.map (NEW_HDDM + i) i (PAGE_PRESENT ||| PAGE_WRITE ||| PAGE_NX) fun _ => .hhdmMapping) s with
      | ok a mid =>
        rw [bind_ok (body.trans ran), bind_ok ran]
        have kept := (keeps_job root _ s).of_ok ran
        exact ih (by rw [kept.rest]; exact own) _
      | error e mid => rw [bind_error (body.trans ran), bind_error ran]
    · rfl

end

/-! ## The whole run -/

/-- The state once frame `k` is the blank root of the kernel's tables. -/
def rooted (k : UInt64) (s : State) : State :=
  { cleared (idx_to_addr k) (bitmap_set s k) with kernel_pml4 := idx_to_addr k }

/-- The state once the new tables are in use, with the window at `window`. -/
def switched (window root : UInt64) (s : State) : State :=
  { s with
    g_hhdm_offset := window
    bmp_phys := s.bmp_phys + window
    journal := .cr3 root :: .cr3 root :: s.journal }

theorem allocate_table_zeroed_cases {s : State} (zero : ¬ Free s 0) :
    (∃ k, Least s k ∧ Window s (idx_to_addr k) ∧
      allocate_table_zeroed s = .ok (idx_to_addr k) (cleared (idx_to_addr k) (bitmap_set s k))) ∨
    (∃ k, Least s k ∧ ¬ Window s (idx_to_addr k) ∧
      allocate_table_zeroed s = .error (.fault (idx_to_addr k)) (bitmap_set s k)) ∨
    ((∀ k, ¬ Free s k) ∧ allocate_table_zeroed s = .error (.panic .outOfMemory) s) := by
  rcases pmm_alloc_page_least s with ⟨k, least, runs⟩ | ⟨full, runs⟩
  · have nonzero : idx_to_addr k ≠ 0 := by
      obtain ⟨address, inside⟩ := FrameRuns.idx_of_frame least.free.1
      intro null
      rw [null] at address
      have first : k = 0 := UInt64.toNat_inj.mp (by simpa using address)
      exact zero (first ▸ least.free)
    by_cases near : Window s (idx_to_addr k)
    · have nearNow : Window (bitmap_set s k) (idx_to_addr k) := near
      refine .inl ⟨k, least, near, ?_⟩
      rw [allocate_table_zeroed, bind_ok runs, if_neg nonzero]
      exact bind_ok (clear_table_near nearNow)
    · have farNow : ¬ Window (bitmap_set s k) (idx_to_addr k) := near
      refine .inr (.inl ⟨k, least, near, ?_⟩)
      rw [allocate_table_zeroed, bind_ok runs, if_neg nonzero]
      exact bind_error (clear_table_far farNow)
  · refine .inr (.inr ⟨full, ?_⟩)
    rw [allocate_table_zeroed, bind_error runs]

/-- The block is readable in `s` and stays so while tables are built. -/
structure Readable (boot : State) (mb2_addr : UInt64) (s : State) : Prop where
  agree : Agrees boot s (mb2_addr.toNat + (boot.read32 mb2_addr).toNat)
  offset : s.g_hhdm_offset = 0
  below : mb2_addr.toNat + (boot.read32 mb2_addr).toNat ≤ s.bmp_phys.toNat
  small : s.bmp_phys.toNat ≤ 2 ^ 34

theorem Readable.kept {boot s s' : State} {mb2_addr : UInt64} (readable : Readable boot mb2_addr s) (kept : Kept s s') :
    Agrees boot s' (mb2_addr.toNat + (boot.read32 mb2_addr).toNat) :=
  readable.agree.trans (agrees_of_kept kept readable.offset readable.below readable.small)

theorem Readable.rooted {boot s : State} {mb2_addr k : UInt64} (readable : Readable boot mb2_addr s) :
    Readable boot mb2_addr (rooted k s) := by
  have kept : Kept s (cleared (idx_to_addr k) (bitmap_set s k)) :=
    (kept_of_bitmapOnly (bitmapOnly_set s k)).trans ⟨rfl, fun _ _ => rfl⟩
  refine ⟨?_, readable.offset, readable.below, readable.small⟩
  intro va inside
  exact readable.kept kept va inside

/-- After `init_pmm` accepted it the block is still readable. -/
theorem readable_of_done {image : Image} {boot s : State} {mb2_addr : UInt64} {tags : List Tag} (on : PowerOn boot)
    (block : Block boot mb2_addr tags) (done : init_pmm image mb2_addr boot = .ok () s) : Readable boot mb2_addr s := by
  obtain ⟨low, _, _, phases, _, _⟩ := init_pmm_passes block on.offset done
  obtain ⟨_, start, _⟩ := init_pmm_globals block on done
  obtain ⟨above, _, _, bound⟩ := placed_above image block low
  refine ⟨agrees_placed block low on.offset (bitmapOnly_phases phases), ?_, ?_, ?_⟩
  · rw [(init_pmm_accepted done).rest]
    exact on.offset
  · rw [start]
    exact above
  · rw [start]
    omega

theorem map_kernel_elf_sections_eq {boot s : State} {mb2_addr : UInt64} {tags : List Tag} (block : Block boot mb2_addr tags)
    (readable : Readable boot mb2_addr s) (root : UInt64) :
    map_kernel_elf_sections root mb2_addr s =
      match elfOf tags with
      | none => .error (.panic .elfNotFound) s
      | some sections => serve root (sections.flatMap sectionJobs) s := by
  have length := tagsAt_length block.bound block.tagsAt
  have bound := block.bound
  rcases search_eq bound readable.agree block.tagsAt (by unfold addresses; omega : _ < addresses) with
    ⟨missing, runs⟩ | ⟨elf_tag, sections, found, runs, describes, inside⟩
  · rw [missing, map_kernel_elf_sections, find_elf_sections, bind_ok runs]
    rfl
  · rw [found, map_kernel_elf_sections, find_elf_sections, bind_ok runs]
    have size : elf_tag.toNat + (tag_size boot elf_tag).toNat ≤ mb2_addr.toNat + (boot.read32 mb2_addr).toNat := by
      unfold padded at inside
      omega
    have few : sections.length < addresses := by
      cases describes with
      | elf _ _ content =>
        rw [content, List.length_map, List.length_range]
        exact lt_trans (elf_num boot elf_tag).toNat_lt (by decide)
    exact sections_eq bound describes size (fun s' kept => readable.kept kept) (List.drop_zero) (by omega) few

/-- A run of `init_paging` on a well-formed block: it takes a frame for the root, serves
    the jobs, and switches. -/
theorem init_paging_cases {boot s : State} {mb2_addr : UInt64} {tags : List Tag} (block : Block boot mb2_addr tags)
    (readable : Readable boot mb2_addr s) (zero : ¬ Free s 0) :
    (∃ k, Least s k ∧ Window s (idx_to_addr k) ∧ init_paging mb2_addr s =
      match elfOf tags with
      | none => .error (.panic .elfNotFound) (rooted k s)
      | some sections => (serve (idx_to_addr k) (bootJobs sections s.total_mem) >>= fun _ =>
          modify (switched NEW_HDDM (idx_to_addr k))) (rooted k s)) ∨
    (∃ k, Least s k ∧ ¬ Window s (idx_to_addr k) ∧
      init_paging mb2_addr s = .error (.fault (idx_to_addr k)) (bitmap_set s k)) ∨
    ((∀ k, ¬ Free s k) ∧ init_paging mb2_addr s = .error (.panic .outOfMemory) s) := by
  rcases allocate_table_zeroed_cases zero with ⟨k, least, near, runs⟩ | ⟨k, least, far, runs⟩ | ⟨full, runs⟩
  · refine .inl ⟨k, least, near, ?_⟩
    rw [init_paging, bind_ok runs, modify_bind]
    have elf := map_kernel_elf_sections_eq block (readable.rooted (k := k)) (idx_to_addr k)
    cases found : elfOf tags with
    | none =>
      rw [found] at elf
      exact bind_error elf
    | some sections =>
      rw [found] at elf
      simp only at elf ⊢
      rw [bootJobs, serve_append, bind_assoc]
      cases ran : serve (idx_to_addr k) (sections.flatMap sectionJobs) (rooted k s) with
      | error e mid =>
        rw [bind_error ran]
        exact bind_error (elf.trans ran)
      | ok a mid =>
        rw [bind_ok ran]
        refine (bind_ok (elf.trans ran)).trans ?_
        have kept := (keeps_serve (idx_to_addr k) _ (rooted k s)).of_ok ran
        have own : mid.kernel_pml4 = idx_to_addr k := by
          rw [kept.rest]
          rfl
        have total : mid.total_mem = s.total_mem := by
          rw [kept.rest]
          rfl
        rw [get_bind, total]
        have direct := direct_eq own (align_down s.total_mem PAGE_SIZE) addresses 0
        rw [← directJobs] at direct
        cases ran' : serve (idx_to_addr k) (directJobs s.total_mem) mid with
        | error e mid' => rw [bind_error ran', bind_error (direct.trans ran')]
        | ok a mid' =>
          rw [bind_ok ran', bind_ok (direct.trans ran')]
          have kept' := (keeps_serve (idx_to_addr k) _ mid).of_ok ran'
          have own' : mid'.kernel_pml4 = idx_to_addr k := by
            rw [kept'.rest]
            exact own
          rw [get_bind, own']
          rfl
  · exact .inr (.inl ⟨k, least, far, by rw [init_paging, bind_error runs]⟩)
  · exact .inr (.inr ⟨full, by rw [init_paging, bind_error runs]⟩)

end Extron.BootJobs
