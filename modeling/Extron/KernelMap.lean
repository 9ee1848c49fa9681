import Extron.BootMap

/-!
The address space that `init_paging` leaves. The pages of the loaded sections map
to their addresses below `KERNEL_VMA`, the direct map covers all of memory from
`NEW_HDDM` on, and nothing else is mapped. The two regions are apart because
`init_pmm` accepts less than 32 TiB, and sections that overlap agree, so that no
call of `map_page` fails.
-/
namespace Extron.KernelMap
open Extron.RadixTree Extron.Multiboot Extron.Format Extron.Pmm Extron.InitPmm Extron.FreeSet Extron.Paging
open Extron.AddressSpace Extron.Accounting Extron.BootJobs Extron.BootMap Extron.Outcomes
set_option linter.unusedSimpArgs false

/-- The loaded sections lie in the first GiB from `KERNEL_VMA` on. -/
def InKernel (sections : List Elf64Shdr) : Prop :=
  ∀ sh ∈ sections, sh.sh_flags &&& SHF_ALLOC ≠ 0 → KERNEL_VMA.toNat ≤ sh.sh_addr.toNat ∧
    sh.sh_addr.toNat + sh.sh_size.toNat ≤ KERNEL_VMA.toNat + ONE_GIB.toNat

/-- The address of a page whose bits 48 to 63 repeat bit 47. -/
def Canonical (v : UInt64) : Prop := v.toNat % 4096 = 0 ∧ (v.toNat < 2 ^ 47 ∨ 2 ^ 64 - 2 ^ 47 ≤ v.toNat)

/-- The canonical address of a page. -/
def addrOf (n : Nat) : UInt64 := UInt64.ofNat (if n < 2 ^ 35 then 4096 * n else 4096 * n + (2 ^ 64 - 2 ^ 48))

def KernelPage (sections : List Elf64Shdr) (v : UInt64) : Prop :=
  ∃ sh ∈ sections, sh.sh_flags &&& SHF_ALLOC ≠ 0 ∧ align_down sh.sh_addr PAGE_SIZE ≤ v ∧
    v.toNat < sh.sh_addr.toNat + sh.sh_size.toNat

def DirectPage (total_mem v : UInt64) : Prop := NEW_HDDM ≤ v ∧ v - NEW_HDDM < align_down total_mem PAGE_SIZE

instance (sections : List Elf64Shdr) (v : UInt64) : Decidable (KernelPage sections v) :=
  inferInstanceAs (Decidable (∃ _ ∈ _, _))

instance (total_mem v : UInt64) : Decidable (DirectPage total_mem v) := inferInstanceAs (Decidable (_ ∧ _))

/-- The frame of a page in the new address space. -/
def bootFrame (sections : List Elf64Shdr) (total_mem v : UInt64) : Option UInt64 :=
  if KernelPage sections v then some (v - KERNEL_VMA)
  else if DirectPage total_mem v then some (v - NEW_HDDM)
  else none

/-! ## Addresses of pages -/

theorem toNat_addrOf {n : Nat} (hn : n < 2 ^ 36) :
    (addrOf n).toNat = if n < 2 ^ 35 then 4096 * n else 4096 * n + (2 ^ 64 - 2 ^ 48) := by
  rw [addrOf, UInt64.toNat_ofNat']
  split
  · omega
  · omega

theorem canonical_addrOf {n : Nat} (hn : n < 2 ^ 36) : Canonical (addrOf n) := by
  have value := toNat_addrOf hn
  split at value
  · exact ⟨by omega, by omega⟩
  · exact ⟨by omega, by omega⟩

theorem pageOf_addrOf {n : Nat} (hn : n < 2 ^ 36) : pageOf (addrOf n) = n := by
  have value := toNat_addrOf hn
  rw [pageOf]
  split at value
  · omega
  · omega

theorem addrOf_pageOf {v : UInt64} (canonical : Canonical v) : addrOf (pageOf v) = v := by
  obtain ⟨aligned, half⟩ := canonical
  have value := toNat_addrOf (pageOf_lt v)
  have small := v.toNat_lt
  apply UInt64.toNat_inj.mp
  rw [value, pageOf]
  split
  · omega
  · omega

/-! ## The pages that are asked for -/

theorem mem_pageJobs_iff {job : UInt64 → Job} {stop v : UInt64} {j : Job} {rounds : Nat}
    (room : stop.toNat + 4096 ≤ 2 ^ 64) (enough : stop.toNat - v.toNat < rounds) :
    j ∈ pageJobs job stop rounds v ↔
      ∃ u : UInt64, v.toNat ≤ u.toNat ∧ u.toNat < stop.toNat ∧ (u.toNat - v.toNat) % 4096 = 0 ∧ j = job u := by
  induction rounds generalizing v with
  | zero => omega
  | succ rounds ih =>
    rw [pageJobs]
    split
    · rename_i inside
      rw [UInt64.lt_iff_toNat_lt] at inside
      have next : (v + PAGE_SIZE).toNat = v.toNat + 4096 := by
        rw [UInt64.toNat_add, toNat_PAGE_SIZE]
        omega
      rw [List.mem_cons, ih (by omega), next]
      constructor
      · rintro (rfl | ⟨u, above, below, aligned, rfl⟩)
        · exact ⟨v, le_rfl, inside, by simp, rfl⟩
        · exact ⟨u, by omega, below, by omega, rfl⟩
      · rintro ⟨u, above, below, aligned, rfl⟩
        by_cases first : u.toNat = v.toNat
        · exact .inl (by rw [UInt64.toNat_inj.mp first])
        · exact .inr ⟨u, by omega, below, by omega, rfl⟩
    · rename_i past
      rw [UInt64.lt_iff_toNat_lt] at past
      simp only [List.not_mem_nil, false_iff]
      rintro ⟨u, above, below, _⟩
      omega

section
variable {sections : List Elf64Shdr} {total_mem : UInt64}

theorem mem_sectionJobs {sh : Elf64Shdr} {j : Job} (loaded : sh.sh_flags &&& SHF_ALLOC ≠ 0)
    (room : sh.sh_addr.toNat + sh.sh_size.toNat + 4096 ≤ 2 ^ 64) :
    j ∈ sectionJobs sh ↔ ∃ u : UInt64, align_down sh.sh_addr PAGE_SIZE ≤ u ∧
      u.toNat < sh.sh_addr.toNat + sh.sh_size.toNat ∧ u.toNat % 4096 = 0 ∧
      j = .map u (u - KERNEL_VMA) (section_flags sh) (.elfMapping u) := by
  have stop : (sh.sh_addr + sh.sh_size).toNat = sh.sh_addr.toNat + sh.sh_size.toNat := by
    rw [UInt64.toNat_add]
    omega
  have start := toNat_align_down sh.sh_addr
  rw [sectionJobs, if_pos loaded, mem_pageJobs_iff (by omega) (by rw [addresses]; omega)]
  constructor
  · rintro ⟨u, above, below, aligned, same⟩
    exact ⟨u, UInt64.le_iff_toNat_le.mpr above, by omega, by omega, same⟩
  · rintro ⟨u, above, below, aligned, same⟩
    rw [UInt64.le_iff_toNat_le] at above
    exact ⟨u, above, by omega, by omega, same⟩

theorem mem_directJobs {j : Job} (small : total_mem.toNat < 2 ^ 45) :
    j ∈ directJobs total_mem ↔ ∃ i : UInt64, i < align_down total_mem PAGE_SIZE ∧ i.toNat % 4096 = 0 ∧
      j = .map (NEW_HDDM + i) i (PAGE_PRESENT ||| PAGE_WRITE ||| PAGE_NX) fun _ => .hhdmMapping := by
  have stop := toNat_align_down total_mem
  have start : (0 : UInt64).toNat = 0 := rfl
  rw [directJobs, mem_pageJobs_iff (by omega) (by rw [addresses]; omega)]
  constructor
  · rintro ⟨i, _, below, aligned, same⟩
    exact ⟨i, UInt64.lt_iff_toNat_lt.mpr below, by omega, same⟩
  · rintro ⟨i, below, aligned, same⟩
    rw [UInt64.lt_iff_toNat_lt] at below
    exact ⟨i, by omega, below, by omega, same⟩

theorem toNat_direct {i : UInt64} (small : total_mem.toNat < 2 ^ 45) (inside : i < align_down total_mem PAGE_SIZE) :
    (NEW_HDDM + i).toNat = 2 ^ 64 - 2 ^ 47 + i.toNat ∧ i.toNat < 2 ^ 45 := by
  have stop := toNat_align_down total_mem
  rw [UInt64.lt_iff_toNat_lt] at inside
  rw [UInt64.toNat_add, toNat_NEW_HDDM]
  omega

theorem kernelPage_bounds (inKernel : InKernel sections) {v : UInt64} (here : KernelPage sections v) :
    2 ^ 64 - 2 ^ 31 ≤ v.toNat ∧ v.toNat < 2 ^ 64 - 2 ^ 31 + 2 ^ 30 := by
  obtain ⟨sh, member, loaded, above, below⟩ := here
  obtain ⟨first, last⟩ := inKernel sh member loaded
  have start := toNat_align_down sh.sh_addr
  rw [UInt64.le_iff_toNat_le] at above
  rw [toNat_KERNEL_VMA] at first last
  rw [toNat_ONE_GIB] at last
  omega

/-- An address of memory is mapped to itself by its page in the direct map. -/
theorem direct_frame (inKernel : InKernel sections) (small : total_mem.toNat < 2 ^ 45) {i : UInt64}
    (inside : i < align_down total_mem PAGE_SIZE) (aligned : i.toNat % 4096 = 0) : Canonical (NEW_HDDM + i) ∧
      bootFrame sections total_mem (NEW_HDDM + i) = some i ∧ i &&& PAGE_ADDR_MASK = i := by
  obtain ⟨value, bound⟩ := toNat_direct small inside
  have back : NEW_HDDM + i - NEW_HDDM = i := by rw [UInt64.add_comm, UInt64.add_sub_cancel]
  have page : DirectPage total_mem (NEW_HDDM + i) := by
    refine ⟨?_, by rw [back]; exact inside⟩
    rw [UInt64.le_iff_toNat_le, value, toNat_NEW_HDDM]
    omega
  have apart : ¬ KernelPage sections (NEW_HDDM + i) := fun here => by
    have := kernelPage_bounds inKernel here
    omega
  refine ⟨⟨by omega, by omega⟩, ?_, mask_of_frame aligned (by omega)⟩
  rw [bootFrame, if_neg apart, if_pos page, back]

/-- Every job asks for a canonical page and for its frame in the new address space. -/
theorem job_frame (inKernel : InKernel sections) (small : total_mem.toNat < 2 ^ 45) {j : Job}
    (member : j ∈ bootJobs sections total_mem) : ∃ v p flags call, j = .map v p flags call ∧ Canonical v ∧
      bootFrame sections total_mem v = some p ∧ p &&& PAGE_ADDR_MASK = p := by
  rcases List.mem_append.mp member with elf | direct
  · obtain ⟨sh, inside, member⟩ := List.mem_flatMap.mp elf
    by_cases loaded : sh.sh_flags &&& SHF_ALLOC ≠ 0
    · have bounds := inKernel sh inside loaded
      rw [toNat_KERNEL_VMA, toNat_ONE_GIB] at bounds
      obtain ⟨u, above, below, aligned, rfl⟩ := (mem_sectionJobs loaded (by omega)).mp member
      have here : KernelPage sections u := ⟨sh, inside, loaded, above, below⟩
      have range := kernelPage_bounds inKernel here
      have phys : (u - KERNEL_VMA).toNat = u.toNat - (2 ^ 64 - 2 ^ 31) := by
        rw [UInt64.toNat_sub, toNat_KERNEL_VMA]
        omega
      refine ⟨u, _, _, _, rfl, ⟨aligned, by omega⟩, ?_, mask_of_frame (by omega) (by omega)⟩
      rw [bootFrame, if_pos here]
    · rw [sectionJobs, if_neg loaded] at member
      cases member
  · obtain ⟨i, inside, aligned, rfl⟩ := (mem_directJobs small).mp direct
    obtain ⟨canonical, frame, masked⟩ := direct_frame inKernel small inside aligned
    exact ⟨_, i, _, _, rfl, canonical, frame, masked⟩

/-- Every page of the new address space is asked for. -/
theorem job_of_frame (inKernel : InKernel sections) (small : total_mem.toNat < 2 ^ 45) {v p : UInt64}
    (canonical : Canonical v) (here : bootFrame sections total_mem v = some p) :
    ∃ flags call, Job.map v p flags call ∈ bootJobs sections total_mem := by
  rw [bootFrame] at here
  split at here
  · rename_i kernel
    obtain ⟨sh, inside, loaded, above, below⟩ := kernel
    cases here
    have bounds := inKernel sh inside loaded
    rw [toNat_KERNEL_VMA, toNat_ONE_GIB] at bounds
    refine ⟨section_flags sh, .elfMapping v, List.mem_append_left _ (List.mem_flatMap.mpr ⟨sh, inside, ?_⟩)⟩
    exact (mem_sectionJobs loaded (by omega)).mpr ⟨v, above, below, canonical.1, rfl⟩
  · split at here
    · rename_i direct
      cases here
      refine ⟨PAGE_PRESENT ||| PAGE_WRITE ||| PAGE_NX, fun _ => .hhdmMapping, List.mem_append_right _ ?_⟩
      have low := UInt64.le_iff_toNat_le.mp direct.1
      rw [toNat_NEW_HDDM] at low
      have offset : (v - NEW_HDDM).toNat = v.toNat - (2 ^ 64 - 2 ^ 47) := by
        rw [UInt64.toNat_sub, toNat_NEW_HDDM]
        have := v.toNat_lt
        omega
      refine (mem_directJobs small).mpr ⟨v - NEW_HDDM, direct.2, ?_, ?_⟩
      · have aligned := canonical.1
        omega
      · rw [UInt64.add_comm, UInt64.sub_add_cancel]
    · cases here

end

/-! ## Serving without a conflict -/

/-- The request asks for the frame that `F` gives its page. -/
structure Meets (F : Nat → Option UInt64) (r : Request) : Prop where
  proper : r.Proper
  frame : F r.page = some (r.phys &&& PAGE_ADDR_MASK)

def Job.request : Job → Option Request
  | .map virt phys flags _ => some ⟨virt, phys, flags⟩
  | .spin => none

section
variable {F : Nat → Option UInt64} {rs : List Request} {n : Nat} {w : UInt64}

theorem wordAt_eq_some (here : wordAt rs n = some w) : ∃ r ∈ rs, r.page = n ∧ w = r.word := by
  obtain ⟨r, found, rfl⟩ := Option.map_eq_some_iff.mp here
  exact ⟨r, List.mem_of_find?_eq_some found, by simpa using List.find?_some found, rfl⟩

theorem wordAt_eq_none : wordAt rs n = none ↔ ∀ r ∈ rs, r.page ≠ n := by
  rw [wordAt, Option.map_eq_none_iff, List.find?_eq_none]
  simp

theorem frame_of_word (meets : ∀ r ∈ rs, Meets F r) (here : wordAt rs n = some w) : F n = some (w &&& PAGE_ADDR_MASK) := by
  obtain ⟨r, member, rfl, rfl⟩ := wordAt_eq_some here
  obtain ⟨⟨_, outside⟩, frame⟩ := meets r member
  rw [frame, Request.word, Words.or_and, mask_idem, outside, UInt64.or_zero]

theorem settled_all {jobs : List Job} (meets : ∀ r ∈ rs, Meets F r)
    (fine : ∀ virt phys flags call, .map virt phys flags call ∈ jobs → Meets F ⟨virt, phys, flags⟩)
    (ends : .spin ∉ jobs) : settled rs jobs = rs ++ jobs.filterMap Job.request := by
  induction jobs generalizing rs with
  | nil => simp [settled]
  | cons job rest ih =>
    cases job with
    | spin => exact absurd List.mem_cons_self ends
    | map virt phys flags call =>
      have meet := fine virt phys flags call (by simp)
      have agree : ¬ Conflicts rs ⟨virt, phys, flags⟩ := by
        rintro ⟨w, here, different⟩
        have frame := frame_of_word meets here
        rw [meet.frame] at frame
        exact different (Option.some.inj frame).symm
      have more : ∀ r ∈ rs ++ [⟨virt, phys, flags⟩], Meets F r := by
        intro r member
        rcases List.mem_append.mp member with old | new
        · exact meets r old
        · rw [List.mem_singleton.mp new]
          exact meet
      rw [settled, if_neg agree, ih more (fun v p f c member => fine v p f c (List.mem_cons_of_mem _ member))
        (fun member => ends (List.mem_cons_of_mem _ member))]
      simp [Job.request]

theorem mem_requests {jobs : List Job} {r : Request} :
    r ∈ jobs.filterMap Job.request ↔ ∃ call, .map r.virt r.phys r.flags call ∈ jobs := by
  rw [List.mem_filterMap]
  constructor
  · rintro ⟨j, member, same⟩
    cases j with
    | map virt phys flags call =>
      cases same
      exact ⟨call, member⟩
    | spin => cases same
  · rintro ⟨call, member⟩
    exact ⟨_, member, rfl⟩

end

section
variable {sections : List Elf64Shdr} {total_mem : UInt64}

/-- The frame that a page is to have, by number. -/
def bootPage (sections : List Elf64Shdr) (total_mem : UInt64) (n : Nat) : Option UInt64 :=
  bootFrame sections total_mem (addrOf n)

/-- The pages that `init_paging` maps lie in the first GiB of the kernel, or they are the
    first of the upper half, one for each page of memory. -/
theorem page_of_boot (inKernel : InKernel sections) {n : Nat} (hn : n < 2 ^ 36)
    (mapped : bootPage sections total_mem n ≠ none) :
    (2 ^ 36 - 2 ^ 19 ≤ n ∧ n < 2 ^ 36 - 2 ^ 18) ∨ (2 ^ 35 ≤ n ∧ n < 2 ^ 35 + total_mem.toNat / 4096) := by
  have value := toNat_addrOf hn
  rw [bootPage, bootFrame] at mapped
  split at mapped
  · rename_i kernel
    have range := kernelPage_bounds inKernel kernel
    split at value
    · omega
    · omega
  · split at mapped
    · rename_i direct
      obtain ⟨above, below⟩ := direct
      have stop := toNat_align_down total_mem
      rw [UInt64.le_iff_toNat_le, toNat_NEW_HDDM] at above
      rw [UInt64.lt_iff_toNat_lt, UInt64.toNat_sub, toNat_NEW_HDDM] at below
      split at value
      · omega
      · omega
    · exact absurd rfl mapped

theorem job_meets (inKernel : InKernel sections) (small : total_mem.toNat < 2 ^ 45) {v p flags : UInt64}
    {call : Int32 → Panic} (member : .map v p flags call ∈ bootJobs sections total_mem) :
    Meets (bootPage sections total_mem) ⟨v, p, flags⟩ := by
  refine ⟨proper_bootJobs member, ?_⟩
  obtain ⟨v, p, flags, call, same, canonical, frame, masked⟩ := job_frame inKernel small member
  cases same
  show bootFrame sections total_mem (addrOf (pageOf v)) = _
  rw [addrOf_pageOf canonical, frame, masked]

theorem boot_ends (inKernel : InKernel sections) (small : total_mem.toNat < 2 ^ 45) :
    .spin ∉ bootJobs sections total_mem := by
  intro member
  obtain ⟨_, _, _, _, impossible, _⟩ := job_frame inKernel small member
  cases impossible

/-- The requests that `init_paging` serves, all of them. -/
def bootRequests (sections : List Elf64Shdr) (total_mem : UInt64) : List Request :=
  (bootJobs sections total_mem).filterMap Job.request

theorem settled_boot (inKernel : InKernel sections) (small : total_mem.toNat < 2 ^ 45) :
    settled [] (bootJobs sections total_mem) = bootRequests sections total_mem :=
  settled_all (fun _ impossible => absurd impossible List.not_mem_nil)
    (fun _ _ _ _ member => job_meets inKernel small member) (boot_ends inKernel small)

theorem meets_boot (inKernel : InKernel sections) (small : total_mem.toNat < 2 ^ 45) {r : Request}
    (member : r ∈ bootRequests sections total_mem) : Meets (bootPage sections total_mem) r := by
  obtain ⟨_, job⟩ := mem_requests.mp member
  exact job_meets inKernel small job

/-- The jobs of `init_paging` end early only for want of a frame within reach. -/
theorem stuck_of_ended (inKernel : InKernel sections) (small : total_mem.toNat < 2 ^ 45) {s₀ s : State} {root : UInt64}
    {own : Set Nat} {e : Halt}
    (ended : Ended s₀ root own (bootJobs sections total_mem) (bootRequests sections total_mem) e s) :
    ∃ rs r mid, rs ++ [r] <+: bootRequests sections total_mem ∧ Serving s₀ root own rs mid ∧ Stuck root (dir r.page) mid e s := by
  cases ended with
  | conflict serving clash asked =>
    obtain ⟨w, here, different⟩ := clash
    have frame := frame_of_word (fun _ member => meets_boot inKernel small member) here
    rw [(job_meets inKernel small asked).frame] at frame
    exact absurd (Option.some.inj frame).symm different
  | spin serving endless => exact absurd endless (boot_ends inKernel small)
  | stuck next serving stuck => exact ⟨_, _, _, next, serving, stuck⟩

/-- The words of the requests have the frames of the new address space. -/
theorem frame_served (inKernel : InKernel sections) (small : total_mem.toNat < 2 ^ 45) {n : Nat} (hn : n < 2 ^ 36) :
    (wordAt (bootRequests sections total_mem) n).map (· &&& PAGE_ADDR_MASK) = bootPage sections total_mem n := by
  cases here : wordAt (bootRequests sections total_mem) n with
  | some w =>
    rw [frame_of_word (fun _ member => meets_boot inKernel small member) here]
    rfl
  | none =>
    cases frame : bootPage sections total_mem n with
    | none => rfl
    | some p =>
      obtain ⟨flags, call, member⟩ := job_of_frame inKernel small (canonical_addrOf hn) frame
      have asked : ⟨addrOf n, p, flags⟩ ∈ bootRequests sections total_mem := mem_requests.mpr ⟨call, member⟩
      exact absurd (pageOf_addrOf hn) (wordAt_eq_none.mp here _ asked)

end

/-! ## The switch -/

section
variable {s₀ s : State} {window root k : UInt64} {own : Set Nat} {held : Set UInt64}

@[simp] theorem frames_switched : (switched window root s).frames = s.frames := rfl
@[simp] theorem total_switched : (switched window root s).total_mem = s.total_mem := rfl
@[simp] theorem root_switched : (switched window root s).kernel_pml4 = s.kernel_pml4 := rfl
@[simp] theorem cursor_switched : (switched window root s).last_allocated_index = s.last_allocated_index := rfl
@[simp] theorem journal_switched : (switched window root s).journal = .cr3 root :: .cr3 root :: s.journal := rfl

@[simp] theorem table_switched (top : UInt64) (q : List (Fin 512)) : table top (switched window root s) q = table top s q := by
  rw [table, frames_switched]

@[simp] theorem leaf_switched (top : UInt64) (n : Nat) : leaf top (switched window root s) n = leaf top s n := by
  rw [leaf, leaf, frames_switched]

@[simp] theorem frameOf_switched (top : UInt64) (n : Nat) : frameOf top (switched window root s) n = frameOf top s n := by
  rw [frameOf, frameOf, leaf_switched]

theorem marked_switched (window root : UInt64) (offset : s.g_hhdm_offset = 0) (i : UInt64) : Marked (switched window root s) i ↔ Marked s i := by
  have address : s.bmp_phys + window + i / 8 - window = s.bmp_phys + i / 8 - s.g_hhdm_offset := by
    rw [offset, UInt64.sub_zero, UInt64.add_assoc, UInt64.add_comm window, ← UInt64.add_assoc, UInt64.add_sub_cancel]
  have same : bitmap_test (switched window root s) i = bitmap_test s i := by
    simp only [bitmap_test, State.byte]
    rw [← address]
    rfl
  rw [Marked, Marked, same]

theorem ledger_switched (ledger : Ledger s₀ root own held s) (offset : s.g_hhdm_offset = 0) :
    Ledger s₀ root own held (switched window root s) := by
  have marked := marked_switched window root offset
  have tree := ledger.tree
  have free : ¬ Free (switched window root s) 0 := by
    rw [Free, total_switched, marked]
    exact tree.zeroTaken
  have used : ∀ q t, q.length ≤ 3 → table root (switched window root s) q = some t → Marked (switched window root s) (addr_to_idx t) := by
    intro q t short reached
    rw [table_switched] at reached
    exact (marked _).mpr (tree.used q t short reached)
  have shape : Shape root (switched window root s) := by
    refine ⟨tree.aligned, ?_, ?_, used, ?_, free⟩
    · rw [total_switched]
      exact tree.memory
    · rw [frames_switched]
      exact tree.unshared
    · rw [frames_switched]
      exact tree.flat
  refine ⟨⟨shape, ?_⟩, ?_, ledger.zero, ledger.bounded, ledger.accounts.congr marked ?_⟩
  · intro q t nonempty short reached
    rw [table_switched] at reached
    exact tree.nonzero q t nonempty short reached
  · rw [total_switched]
    exact ledger.total
  · intro h i
    cases h with
    | table q => simp only [Holds, table_switched]
    | page n => simp only [Holds, frameOf_switched]
    | hand j => rfl

/-- What `init_paging` leaves, whatever pages `own` are to get frames of their own later. -/
structure Paged (s₀ : State) (sections : List Elf64Shdr) (own : Set Nat) (s : State) : Prop where
  ledger : Ledger s₀ s.kernel_pml4 own ∅ s
  offset : s.g_hhdm_offset = NEW_HDDM
  cursor : s.last_allocated_index = s₀.last_allocated_index
  frames : ∀ n < 2 ^ 36, frameOf s.kernel_pml4 s n = bootPage sections s₀.total_mem n
  paths : ∀ q, q.length ≤ 3 → ((table s.kernel_pml4 s q).isSome ↔ q ∈ pathsOf (bootRequests sections s₀.total_mem))
  none : NoneFailed s₀ s
  loaded : s.journal.head? = some (.cr3 s.kernel_pml4)

/-- The pages are apart from those of `init_paging`. -/
def Apart (sections : List Elf64Shdr) (total_mem : UInt64) (own : Set Nat) : Prop :=
  ∀ n ∈ own, n < 2 ^ 36 ∧ bootPage sections total_mem n = none

variable {sections : List Elf64Shdr}

theorem paged_switched (inKernel : InKernel sections) (small : s₀.total_mem.toNat < 2 ^ 45) (offset : s₀.g_hhdm_offset = 0)
    {mid : State} (kept : Kept (rooted k s₀) mid)
    (serving : Serving s₀ (idx_to_addr k) own (bootRequests sections s₀.total_mem) mid) :
    Paged s₀ sections own (switched NEW_HDDM (idx_to_addr k) mid) := by
  have root : (switched NEW_HDDM (idx_to_addr k) mid).kernel_pml4 = idx_to_addr k := by
    rw [root_switched, kept.rest]
    rfl
  refine ⟨?_, rfl, ?_, ?_, ?_, ?_, ?_⟩
  · rw [root]
    exact ledger_switched serving.ledger (serving.offset.trans offset)
  · rw [cursor_switched, kept.rest]
    rfl
  · intro n hn
    rw [root, ← frame_served inKernel small hn, ← serving.leaves n hn, frameOf_switched]
    rfl
  · intro q short
    rw [root, table_switched, serving.paths q short]
  · intro pml4 v res member
    rw [journal_switched] at member
    exact serving.none pml4 v res (by simpa using member)
  · rw [root, journal_switched]
    rfl

end

/-! ## The run of `init_paging` -/

section
variable {image : Image} {mb2_addr : UInt64} {boot s : State} {tags : List Tag} {sections : List Elf64Shdr}

/-- `init_paging` either leaves the new address space or stops for want of a frame
    within reach. -/
theorem init_paging_paged (own : Set Nat) (on : PowerOn boot) (block : Block boot mb2_addr tags)
    (done : init_pmm image mb2_addr boot = .ok () s) (found : elfOf tags = some sections) (inKernel : InKernel sections)
    (apart : Apart sections s.total_mem own) :
    Post (fun _ => Paged s sections own) Stops (init_paging mb2_addr s) := by
  have accepted := init_pmm_accepted done
  have small := accepted.total
  have readable := readable_of_done on block done
  have zero : ¬ Free s 0 := fun free => free.2 (accepted.low 0 (by decide))
  rcases init_paging_cases block readable zero with ⟨k, least, near, runs⟩ | ⟨k, least, far, runs⟩ | ⟨full, runs⟩
  · rw [found] at runs
    rw [runs]
    have fine : ∀ virt phys flags call, Job.map virt phys flags call ∈ bootJobs sections s.total_mem →
        Request.Proper ⟨virt, phys, flags⟩ ∧ pageOf virt ∉ own := by
      intro virt phys flags call member
      refine ⟨proper_bootJobs member, ?_⟩
      intro mine
      have frame := (job_meets inKernel small member).frame
      rw [Request.page, (apart _ mine).2] at frame
      cases frame
    have served := serve_post _ fine (serving_rooted own (by omega) zero (fun n mine => (apart n mine).1) least near)
    rw [settled_boot inKernel small] at served
    apply post_bind
    refine (served.and (keeps_serve _ _ _)).mono ?_ ?_
    · rintro _ mid ⟨serving, kept⟩
      exact paged_switched inKernel small readable.offset kept serving
    · rintro e mid ⟨ended, _⟩
      obtain ⟨_, _, _, _, _, stuck⟩ := stuck_of_ended inKernel small ended
      exact stops_of_stuck stuck
  · rw [runs]
    exact stops_of_far far
  · rw [runs]
    exact .inl ⟨rfl, full⟩

/-- A block without an ELF-sections tag stops `init_paging`. -/
theorem init_paging_without_elf (on : PowerOn boot) (block : Block boot mb2_addr tags)
    (done : init_pmm image mb2_addr boot = .ok () s) (missing : elfOf tags = none) :
    Post (fun _ _ => False) (fun _ _ => True) (init_paging mb2_addr s) := by
  have accepted := init_pmm_accepted done
  have zero : ¬ Free s 0 := fun free => free.2 (accepted.low 0 (by decide))
  rcases init_paging_cases block (readable_of_done on block done) zero with ⟨k, _, _, runs⟩ | ⟨k, _, _, runs⟩ | ⟨_, runs⟩
  · rw [missing] at runs
    rw [runs]
    trivial
  · rw [runs]
    trivial
  · rw [runs]
    trivial

end

theorem inKernel_small : InKernel [⟨SHF_ALLOC, KERNEL_VMA + 0x100000, 0x1000⟩] := by
  intro sh member _
  rw [List.mem_singleton.mp member]
  exact ⟨by decide, by decide⟩

theorem linked_small {sections : List Elf64Shdr} (found : elfOf smallTags = some sections) : InKernel sections := by
  have same : elfOf smallTags = some [⟨SHF_ALLOC, KERNEL_VMA + 0x100000, 0x1000⟩] := rfl
  rw [same] at found
  rw [← Option.some.inj found]
  exact inKernel_small

end Extron.KernelMap
