import Extron.KernelMap

/-!
The rights of the kernel's pages. `map_page` reports success for a page that is
already mapped to its frame and leaves its flags, so a page that several sections
touch has the rights of the first of them in the section headers. The rights are
those of all its sections exactly if the first has them all (`rights_honoured_iff`).
-/
namespace Extron.Permissions
open Extron.RadixTree Extron.Multiboot Extron.Format Extron.Pmm Extron.InitPmm Extron.FreeSet Extron.Paging
open Extron.AddressSpace Extron.BootJobs Extron.BootMap Extron.KernelMap Extron.Outcomes
set_option linter.unusedSimpArgs false

/-- The page at `v` is mapped for the section. -/
def Touches (sh : Elf64Shdr) (v : UInt64) : Prop :=
  sh.sh_flags &&& SHF_ALLOC ≠ 0 ∧ align_down sh.sh_addr PAGE_SIZE ≤ v ∧ v.toNat < sh.sh_addr.toNat + sh.sh_size.toNat

instance (sh : Elf64Shdr) (v : UInt64) : Decidable (Touches sh v) := inferInstanceAs (Decidable (_ ∧ _))

def Writable (sh : Elf64Shdr) : Prop := sh.sh_flags &&& SHF_WRITE ≠ 0
def Executable (sh : Elf64Shdr) : Prop := sh.sh_flags &&& SHF_EXECINSTR ≠ 0

/-- Some section that touches the page has the right. -/
def SomeTouching (right : Elf64Shdr → Prop) (sections : List Elf64Shdr) (v : UInt64) : Prop :=
  ∃ sh ∈ sections, Touches sh v ∧ right sh

/-- The page is mapped with the rights of all sections that touch it. -/
def Honoured (root : UInt64) (s : State) (sections : List Elf64Shdr) (v : UInt64) : Prop :=
  ∃ w, leaf root s (pageOf v) = some w ∧ (w &&& PAGE_WRITE ≠ 0 ↔ SomeTouching Writable sections v) ∧
    (w &&& PAGE_NX = 0 ↔ SomeTouching Executable sections v)

/-- The first section that touches the page has each right that one of them has. -/
def FirstHasAll (sections : List Elf64Shdr) (v : UInt64) : Prop :=
  ∀ first, sections.find? (fun sh => Touches sh v) = some first →
    (SomeTouching Writable sections v → Writable first) ∧ (SomeTouching Executable sections v → Executable first)

/-! ## Serving -/

section
variable {root : UInt64} {s : State}

theorem wordAt_cons (r : Request) (rs : List Request) (n : Nat) :
    wordAt (r :: rs) n = if r.page = n then some r.word else wordAt rs n := by
  rw [wordAt, List.find?_cons]
  by_cases here : r.page = n
  · simp [here]
  · simp [here, wordAt]

theorem wordAt_append (a b : List Request) (n : Nat) : wordAt (a ++ b) n = (wordAt a n).or (wordAt b n) := by
  rw [wordAt, wordAt, wordAt, List.find?_append]
  cases a.find? fun r => r.page = n with
  | some r => rfl
  | none => rfl

/-- A page keeps the word that it has, and otherwise gets the word of the first
    request for it. -/
theorem serve_leaves (tree : Tree root s) (jobs : List Job)
    (proper : ∀ virt phys flags call, Job.map virt phys flags call ∈ jobs → Request.Proper ⟨virt, phys, flags⟩) :
    Post (fun _ s' => Tree root s' ∧
        ∀ n < 2 ^ 36, leaf root s' n = (leaf root s n).or (wordAt (jobs.filterMap Job.request) n))
      (fun _ _ => True) (serve root jobs s) := by
  induction jobs generalizing s with
  | nil => exact ⟨tree, fun n _ => Option.or_none.symm⟩
  | cons job rest ih =>
    cases job with
    | spin => exact trivial
    | map virt phys flags call =>
      have ours := proper virt phys flags call List.mem_cons_self
      have others := fun v p f c member => proper v p f c (List.mem_cons_of_mem _ member)
      have hn : pageOf virt < 2 ^ 36 := pageOf_lt _
      have requests : (Job.map virt phys flags call :: rest).filterMap Job.request =
          ⟨virt, phys, flags⟩ :: rest.filterMap Job.request := rfl
      rw [requests]
      apply post_bind
      apply post_bind
      refine (map_page_post tree).mono ?_ (fun _ _ _ => trivial)
      rintro res _ ⟨mid, mapped, rfl⟩
      have kept := tree_mapped tree mapped
      cases mapped with
      | @same w here =>
        refine (ih (tree_recorded kept) others).mono ?_ (fun _ _ _ => trivial)
        rintro _ s' ⟨tree', leaves⟩
        refine ⟨tree', fun n bound => ?_⟩
        rw [leaves n bound, wordAt_cons]
        show (leaf root s n).or _ = _
        by_cases same : pageOf virt = n
        · rw [← same, here]
          rfl
        · have different : ¬ Request.page ⟨virt, phys, flags⟩ = n := same
          rw [if_neg different]
      | other => exact trivial
      | @new mid pt grown reached free =>
        refine (ih (tree_recorded kept) others).mono ?_ (fun _ _ _ => trivial)
        rintro _ s' ⟨tree', leaves⟩
        refine ⟨tree', fun n bound => ?_⟩
        have present : ((phys &&& PAGE_ADDR_MASK) ||| flags) &&& PAGE_PRESENT ≠ 0 := present_or _ _ ours.1
        rw [leaves n bound, wordAt_cons]
        show (leaf root (stored pt (slot (pageOf virt)) ((phys &&& PAGE_ADDR_MASK) ||| flags) mid) n).or _ = _
        rw [leaf_stored (tree_growth tree rfl grown) reached hn bound, leaf_growth tree rfl grown, if_pos present]
        by_cases same : pageOf virt = n
        · have ask : Request.page ⟨virt, phys, flags⟩ = n := same
          rw [if_pos same.symm, if_pos ask, ← same, free]
          rfl
        · have different : ¬ Request.page ⟨virt, phys, flags⟩ = n := same
          rw [if_neg (Ne.symm same), if_neg different]

end

/-! ## The word of a page -/

section
variable {sections : List Elf64Shdr} {v : UInt64}

/-- The word that a section gives a page. -/
def sectionWord (v : UInt64) (sh : Elf64Shdr) : UInt64 := ((v - KERNEL_VMA) &&& PAGE_ADDR_MASK) ||| section_flags sh

theorem same_page {u v : UInt64} (highU : KERNEL_VMA.toNat ≤ u.toNat) (highV : KERNEL_VMA.toNat ≤ v.toNat)
    (alignedU : u.toNat % 4096 = 0) (alignedV : v.toNat % 4096 = 0) (same : pageOf u = pageOf v) : u = v := by
  have := u.toNat_lt
  have := v.toNat_lt
  apply UInt64.toNat_inj.mp
  rw [toNat_KERNEL_VMA] at highU highV
  rw [pageOf, pageOf] at same
  omega

/-- A section asks for the pages that it touches. -/
theorem wordAt_section {sh : Elf64Shdr} (inKernel : sh.sh_flags &&& SHF_ALLOC ≠ 0 → KERNEL_VMA.toNat ≤ sh.sh_addr.toNat ∧
      sh.sh_addr.toNat + sh.sh_size.toNat ≤ KERNEL_VMA.toNat + ONE_GIB.toNat)
    (high : KERNEL_VMA.toNat ≤ v.toNat) (aligned : v.toNat % 4096 = 0) :
    wordAt ((sectionJobs sh).filterMap Job.request) (pageOf v) = if Touches sh v then some (sectionWord v sh) else none := by
  by_cases loaded : sh.sh_flags &&& SHF_ALLOC ≠ 0
  · obtain ⟨low, bound⟩ := inKernel loaded
    simp only [toNat_KERNEL_VMA, toNat_ONE_GIB] at low bound
    have room : sh.sh_addr.toNat + sh.sh_size.toNat + 4096 ≤ 2 ^ 64 := by omega
    have asked (r : Request) : r ∈ (sectionJobs sh).filterMap Job.request ↔ ∃ u : UInt64,
        align_down sh.sh_addr PAGE_SIZE ≤ u ∧ u.toNat < sh.sh_addr.toNat + sh.sh_size.toNat ∧ u.toNat % 4096 = 0 ∧
          r = ⟨u, u - KERNEL_VMA, section_flags sh⟩ := by
      rw [mem_requests]
      simp only [mem_sectionJobs loaded room]
      constructor
      · rintro ⟨call, u, above, below, here, same⟩
        obtain ⟨virt, phys, flags, _⟩ := Job.map.inj same
        exact ⟨u, above, below, here, Request.mk.injEq .. ▸ ⟨virt, phys, flags⟩⟩
      · rintro ⟨u, above, below, here, rfl⟩
        exact ⟨_, u, above, below, here, rfl⟩
    have above {u : UInt64} (touched : align_down sh.sh_addr PAGE_SIZE ≤ u) : KERNEL_VMA.toNat ≤ u.toNat := by
      rw [UInt64.le_iff_toNat_le, toNat_align_down] at touched
      rw [toNat_KERNEL_VMA]
      omega
    by_cases touched : Touches sh v
    · rw [if_pos touched]
      cases here : wordAt ((sectionJobs sh).filterMap Job.request) (pageOf v) with
      | none =>
        have member := (asked ⟨v, v - KERNEL_VMA, section_flags sh⟩).mpr ⟨v, touched.2.1, touched.2.2, aligned, rfl⟩
        exact absurd rfl (wordAt_eq_none.mp here _ member)
      | some w =>
        obtain ⟨r, member, page, rfl⟩ := wordAt_eq_some here
        obtain ⟨u, from_, _, whole, rfl⟩ := (asked r).mp member
        have same : u = v := same_page (above from_) high whole aligned page
        rw [same]
        rfl
    · rw [if_neg touched, wordAt_eq_none]
      intro r member page
      obtain ⟨u, from_, below, whole, rfl⟩ := (asked r).mp member
      have same : u = v := same_page (above from_) high whole aligned page
      subst same
      exact touched ⟨loaded, from_, below⟩
  · have untouched : ¬ Touches sh v := fun touched => loaded touched.1
    rw [if_neg untouched, sectionJobs, if_neg loaded]
    rfl

/-- The sections ask together for the word of the first that touches the page. -/
theorem wordAt_sections (inKernel : InKernel sections) (high : KERNEL_VMA.toNat ≤ v.toNat) (aligned : v.toNat % 4096 = 0) :
    wordAt ((sections.flatMap sectionJobs).filterMap Job.request) (pageOf v) =
      (sections.find? fun sh => Touches sh v).map (sectionWord v) := by
  induction sections with
  | nil => rfl
  | cons sh rest ih =>
    have others : InKernel rest := fun other member => inKernel other (List.mem_cons_of_mem _ member)
    rw [List.flatMap_cons, List.filterMap_append, wordAt_append, ih others,
      wordAt_section (inKernel sh List.mem_cons_self) high aligned, List.find?_cons]
    by_cases touched : Touches sh v
    · simp [touched]
    · simp [touched]

theorem sectionWord_write (v : UInt64) (sh : Elf64Shdr) : sectionWord v sh &&& PAGE_WRITE ≠ 0 ↔ Writable sh := by
  have mask : PAGE_ADDR_MASK &&& PAGE_WRITE = 0 := by decide
  rw [sectionWord, Words.or_and, UInt64.and_assoc, mask, UInt64.and_zero, UInt64.zero_or, Writable]
  by_cases write : sh.sh_flags &&& SHF_WRITE = 0
  · by_cases exec : sh.sh_flags &&& SHF_EXECINSTR = 0
    · simp only [section_flags, write, exec]
      decide
    · simp only [section_flags, write, exec]
      decide
  · by_cases exec : sh.sh_flags &&& SHF_EXECINSTR = 0
    · simp only [section_flags, write, exec, ne_eq, not_false_eq_true, if_true, iff_true]
      decide
    · simp only [section_flags, write, exec, ne_eq, not_false_eq_true, if_true, if_false, iff_true]
      decide

theorem sectionWord_nx (v : UInt64) (sh : Elf64Shdr) : sectionWord v sh &&& PAGE_NX = 0 ↔ Executable sh := by
  have mask : PAGE_ADDR_MASK &&& PAGE_NX = 0 := by decide
  rw [sectionWord, Words.or_and, UInt64.and_assoc, mask, UInt64.and_zero, UInt64.zero_or, Executable]
  by_cases write : sh.sh_flags &&& SHF_WRITE = 0
  · by_cases exec : sh.sh_flags &&& SHF_EXECINSTR = 0
    · simp only [section_flags, write, exec]
      decide
    · simp only [section_flags, write, exec, ne_eq, not_true, not_false_eq_true, if_false, iff_true]
      decide
  · by_cases exec : sh.sh_flags &&& SHF_EXECINSTR = 0
    · simp only [section_flags, write, exec, ne_eq, not_false_eq_true, if_true, not_true, iff_false]
      decide
    · simp only [section_flags, write, exec, ne_eq, not_false_eq_true, if_true, if_false, iff_true]
      decide

end

/-! ## The rights of a page -/

section
variable {boot s s' : State} {mb2_addr root : UInt64} {tags : List Tag} {sections : List Elf64Shdr} {v : UInt64}

theorem leaf_empty (empty : ∀ i, s.frames root i = 0) (n : Nat) : leaf root s n = none := by
  apply leaf_of_no_table
  simp [table, dir, descend, empty, link_zero]

/-- A page has the word of the first section that touches it. -/
theorem leaf_first (block : Block boot mb2_addr tags) (readable : Readable boot mb2_addr s) (tree : Tree root s)
    (empty : ∀ i, s.frames root i = 0) (found : elfOf tags = some sections) (inKernel : InKernel sections)
    (ran : map_kernel_elf_sections root mb2_addr s = .ok () s') (high : KERNEL_VMA.toNat ≤ v.toNat)
    (aligned : v.toNat % 4096 = 0) :
    leaf root s' (pageOf v) = (sections.find? fun sh => Touches sh v).map (sectionWord v) := by
  have jobs := map_kernel_elf_sections_eq block readable root
  rw [found, ran] at jobs
  have proper : ∀ virt phys flags call, Job.map virt phys flags call ∈ sections.flatMap sectionJobs →
      Request.Proper ⟨virt, phys, flags⟩ := fun _ _ _ _ member =>
    proper_bootJobs (List.mem_append_left (directJobs 0) member)
  have served := (serve_leaves tree (sections.flatMap sectionJobs) proper).of_ok jobs.symm
  rw [served.2 _ (pageOf_lt v), leaf_empty empty, Option.none_or, wordAt_sections inKernel high aligned]

/-- The rights of a page are honoured exactly if its first section has them all. -/
theorem honoured_iff {first : Elf64Shdr} (here : sections.find? (fun sh => Touches sh v) = some first)
    (word : leaf root s' (pageOf v) = some (sectionWord v first)) :
    Honoured root s' sections v ↔ FirstHasAll sections v := by
  have member := List.mem_of_find?_eq_some here
  have touches : Touches first v := by
    have holds := List.find?_some here
    exact of_decide_eq_true holds
  have write := sectionWord_write v first
  have execute := sectionWord_nx v first
  constructor
  · rintro ⟨w, isWord, writes, executes⟩ other found
    rw [here] at found
    cases found
    rw [word] at isWord
    cases isWord
    exact ⟨fun some => write.mp (writes.mpr some), fun some => execute.mp (executes.mpr some)⟩
  · intro all
    obtain ⟨writes, executes⟩ := all first here
    exact ⟨_, word, ⟨fun has => ⟨first, member, touches, write.mp has⟩, fun some => write.mpr (writes some)⟩,
      ⟨fun has => ⟨first, member, touches, execute.mp has⟩, fun some => execute.mpr (executes some)⟩⟩

end

/-! ## Two sections in one page -/

/-- Read-only data in the first half of a page, writable data in the second. -/
def sharedSections : List Elf64Shdr :=
  [⟨SHF_ALLOC, KERNEL_VMA + 0x100000, 0x800⟩, ⟨SHF_ALLOC ||| SHF_WRITE, KERNEL_VMA + 0x100800, 0x800⟩]

def sharedBytes : List UInt8 :=
  le32 168 ++ le32 0 ++
  (le32 9 ++ le32 148 ++ le32 2 ++ le32 64 ++ le32 0 ++
    (le64 0 ++ le64 SHF_ALLOC ++ le64 (KERNEL_VMA + 0x100000) ++ le64 0 ++ le64 0x800 ++ le64 0 ++ le64 0 ++ le64 0) ++
    (le64 0 ++ le64 (SHF_ALLOC ||| SHF_WRITE) ++ le64 (KERNEL_VMA + 0x100800) ++ le64 0 ++ le64 0x800 ++ le64 0 ++ le64 0 ++
      le64 0) ++ le32 0) ++
  (le32 0 ++ le32 8)

/-- Memory with that block and a bitmap at 3 MiB, in which frames 0 and 1 are used. -/
def sharedBoot : State :=
  { loaded sharedBytes 0x200000 with
    mem := fun a => if a = 0x300000 then 3 else (loaded sharedBytes 0x200000).mem a
    bmp_phys := 0x300000
    total_mem := 0x100000 }

theorem block_shared : Block sharedBoot 0x200000 [.elf sharedSections] := by decide +kernel

theorem readable_shared : Readable sharedBoot 0x200000 sharedBoot :=
  ⟨fun _ _ => rfl, rfl, by decide +kernel, by decide⟩

theorem tree_shared : Tree 0x1000 sharedBoot :=
  tree_of_blank (by decide) (by decide) (fun _ => rfl) (by decide +kernel) (fun free => free.2 (by decide +kernel))

theorem inKernel_shared : InKernel sharedSections := by
  intro sh member _
  simp only [sharedSections, List.mem_cons, List.not_mem_nil, or_false] at member
  rcases member with rfl | rfl
  · decide
  · decide

theorem sections_shared_run : ∃ s', map_kernel_elf_sections 0x1000 0x200000 sharedBoot = .ok () s' := by
  have returned : (match map_kernel_elf_sections 0x1000 0x200000 sharedBoot with
      | .ok _ _ => true
      | .error _ _ => false) = true := by decide +kernel
  cases ran : map_kernel_elf_sections 0x1000 0x200000 sharedBoot with
  | ok _ s' => exact ⟨s', rfl⟩
  | error e s' =>
    rw [ran] at returned
    cases returned

end Extron.Permissions
