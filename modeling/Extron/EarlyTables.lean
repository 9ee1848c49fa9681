import Extron.BootMap

/-!
The tables that `init_paging` builds before the direct map is in use. They lie in
the lowest free frames, one for each table that the pages need, so all of them are
within the first GiB exactly when enough frames there are free, or no frame above
is free at all.
-/
namespace Extron.EarlyTables
open Extron.RadixTree Extron.Multiboot Extron.Format Extron.Pmm Extron.InitPmm Extron.FreeSet Extron.Paging
open Extron.Accounting Extron.BootJobs Extron.BootMap Extron.Outcomes
set_option linter.unusedSimpArgs false

instance (s : State) (i : UInt64) : Decidable (Free s i) := inferInstanceAs (Decidable (_ ∧ _))

/-- The indices below a bound. -/
def indices (n : Nat) : Finset UInt64 := (Finset.range n).image UInt64.ofNat

theorem mem_indices {n : Nat} (small : n ≤ 2 ^ 64) {i : UInt64} : i ∈ indices n ↔ i.toNat < n := by
  simp only [indices, Finset.mem_image, Finset.mem_range]
  constructor
  · rintro ⟨j, inside, rfl⟩
    rw [UInt64.toNat_ofNat', Nat.mod_eq_of_lt (by omega)]
    exact inside
  · intro inside
    exact ⟨i.toNat, inside, UInt64.ofNat_toNat⟩

/-- The number of free frames within the first GiB. -/
def lowFree (s : State) : Nat := ((indices (2 ^ 18)).filter fun i => Free s i).card

/-- The number of tables that `init_paging` needs: the root, and without an ELF-sections
    tag nothing more. -/
def tablesNeeded (elf : Option (List Elf64Shdr)) (total_mem : UInt64) : Nat :=
  match elf with
  | none => 1
  | some sections => (pathsOf (settled [] (bootJobs sections total_mem))).card

/-- The first GiB has a free frame for every table, or no free frame lies above it. -/
def FitsLow (s : State) (needed : Nat) : Prop := needed ≤ lowFree s ∨ ∀ k, Free s k → idx_to_addr k < ONE_GIB

theorem length_of_mem_pathsOf {rs : List Request} {q : List (Fin 512)} (member : q ∈ pathsOf rs) : q.length ≤ 3 := by
  rcases mem_pathsOf.mp member with rfl | ⟨r, _, along⟩
  · simp
  · simpa using along.length_le

section
variable {s₀ s : State} {root k : UInt64} {rs : List Request}

/-- Without pages of its own the ledger lists tables only. -/
theorem table_of_taken (ledger : Ledger s₀ root ∅ ∅ s) (marked : Marked s k) (before : ¬ Marked s₀ k) :
    ∃ q t, q.length ≤ 3 ∧ table root s q = some t ∧ addr_to_idx t = k := by
  rcases (ledger.accounts.used k).mp marked with old | ⟨h, holds⟩
  · exact absurd old before
  · cases h with
    | table q =>
      obtain ⟨short, t, reached, index⟩ := holds
      exact ⟨q, t, short, reached, index⟩
    | page n => exact absurd holds.1 (Set.notMem_empty n)
    | hand j => exact absurd holds.1 (Set.notMem_empty j)

theorem index_of_near {t : UInt64} (offset : s.g_hhdm_offset = 0) (near : Window s t) : (addr_to_idx t).toNat < 2 ^ 18 := by
  have low := near offset
  rw [UInt64.lt_iff_toNat_lt, toNat_ONE_GIB] at low
  rw [addr_to_idx, UInt64.toNat_div, toNat_PAGE_SIZE]
  omega

theorem low_of_index (memory : s.total_mem.toNat ≤ 2 ^ 52) (free : Free s k) :
    idx_to_addr k < ONE_GIB ↔ k.toNat < 2 ^ 18 := by
  rw [UInt64.lt_iff_toNat_lt, (frame_of_free memory free).2.2.1, toNat_ONE_GIB]
  omega

/-- Tables within reach are in frames of the first GiB that were free. -/
theorem tables_le_lowFree (offset : s₀.g_hhdm_offset = 0) (serving : Serving s₀ root ∅ rs s) :
    (pathsOf rs).card ≤ lowFree s₀ := by
  have there : ∀ q ∈ pathsOf rs, ∃ t, table root s q = some t := fun q member =>
    Option.isSome_iff_exists.mp ((serving.paths q (length_of_mem_pathsOf member)).mpr member)
  choose! t reached using there
  apply Finset.card_le_card_of_injOn (fun q => addr_to_idx (t q))
  · intro q member
    have short := length_of_mem_pathsOf member
    rw [Finset.mem_coe, Finset.mem_filter, mem_indices (by decide)]
    refine ⟨index_of_near (serving.offset.trans offset) (serving.near q _ short (reached q member)), ?_⟩
    exact serving.ledger.accounts.usable (h := .table q) ⟨short, _, reached q member, rfl⟩
  · intro q member q' member' same
    have single := serving.ledger.accounts.single (h := .table q) (o := .table q') (i := addr_to_idx (t q))
      ⟨length_of_mem_pathsOf member, _, reached q member, rfl⟩
      ⟨length_of_mem_pathsOf member', _, reached q' member', same.symm⟩
    exact Holder.table.inj single

theorem none_below {n : Nat} (least : Least s k) (far : n ≤ k.toNat) : ∀ j : UInt64, j.toNat < n → ¬ Free s j := by
  intro j low free
  have below := least.least j free
  rw [UInt64.le_iff_toNat_le] at below
  omega

/-- When a table is missing and the first GiB has no free frame left, it had fewer than
    there are tables to place. -/
theorem lowFree_lt {r : Request} {mid : State} (serving : Serving s₀ root ∅ rs s) (grown : Growth root (dir r.page) s mid)
    (missing : Missing root (dir r.page) mid) (none : ∀ j : UInt64, j.toNat < 2 ^ 18 → ¬ Free mid j) :
    lowFree s₀ < (pathsOf (rs ++ [r])).card := by
  have tree := serving.ledger.tree
  have ledger := ledger_growth serving.ledger rfl grown
  obtain ⟨p, i, t, along, reached, unlinked⟩ := missing
  have wanted : p ++ [i] ∈ pathsOf (rs ++ [r]) := mem_pathsOf.mpr (.inr ⟨r, by simp, along⟩)
  have absent := table_under_unlinked reached unlinked
  have held : ∀ j ∈ (indices (2 ^ 18)).filter (fun i => Free s₀ i), ∃ q, q ∈ (pathsOf (rs ++ [r])).erase (p ++ [i]) ∧
      ∃ u, table root mid q = some u ∧ addr_to_idx u = j := by
    intro j member
    rw [Finset.mem_filter, mem_indices (by decide)] at member
    obtain ⟨low, free⟩ := member
    have marked : Marked mid j := by
      by_contra clear
      exact none j low ⟨by rw [ledger.total]; exact free.1, clear⟩
    obtain ⟨q, u, short, here, index⟩ := table_of_taken ledger marked free.2
    refine ⟨q, Finset.mem_erase.mpr ⟨?_, ?_⟩, u, here, index⟩
    · rintro rfl
      rw [absent] at here
      cases here
    · rcases table_growth_only tree rfl grown short here with old | new
      · rcases mem_pathsOf.mp ((serving.paths q short).mp (by rw [old]; rfl)) with top | ⟨r', member, along⟩
        · exact mem_pathsOf.mpr (.inl top)
        · exact mem_pathsOf.mpr (.inr ⟨r', by simp [member], along⟩)
      · exact mem_pathsOf.mpr (.inr ⟨r, by simp, new⟩)
  choose! q inside there using held
  have fewer : lowFree s₀ ≤ ((pathsOf (rs ++ [r])).erase (p ++ [i])).card := by
    refine Finset.card_le_card_of_injOn q (fun j member => inside j member) ?_
    intro j member j' member' same
    obtain ⟨u, here, rfl⟩ := there j member
    obtain ⟨u', here', rfl⟩ := there j' member'
    rw [same, here'] at here
    cases here
    rfl
  exact lt_of_le_of_lt fewer (Finset.card_erase_lt_of_mem wanted)

theorem card_pathsOf_mono {rs' : List Request} (sub : rs <+: rs') : (pathsOf rs).card ≤ (pathsOf rs').card := by
  apply Finset.card_le_card
  intro q member
  rcases mem_pathsOf.mp member with top | ⟨r, inside, along⟩
  · exact mem_pathsOf.mpr (.inl top)
  · exact mem_pathsOf.mpr (.inr ⟨r, sub.subset inside, along⟩)

/-- Where the first GiB has a frame for every table, serving never stops on the way to a
    request. -/
theorem not_stuck {goal : List Request} {r : Request} {s' : State} {e : Halt}
    (memory : s₀.total_mem.toNat ≤ 2 ^ 52) (next : rs ++ [r] <+: goal) (serving : Serving s₀ root ∅ rs s)
    (fits : (pathsOf goal).card ≤ lowFree s₀) : ¬ Stuck root (dir r.page) s e s' := by
  have more := card_pathsOf_mono next
  intro stuck
  cases stuck with
  | outOfMemory grown missing full =>
    have few := lowFree_lt serving grown missing (fun j _ => full j)
    omega
  | farTable grown along reached far =>
    exact far (near_growth serving.ledger.tree rfl serving.near grown _ _ along.length_le reached)
  | @farFrame mid k grown missing least far =>
    have free := (ledger_growth serving.ledger rfl grown).free_start least.free
    have beyond : ¬ k.toNat < 2 ^ 18 := fun small => far fun _ => (low_of_index memory free).mpr small
    have few := lowFree_lt serving grown missing (none_below least (by omega))
    omega

/-- Serving that stops on the way to a request faults exactly when the tables do not fit. -/
theorem stuck_fits {goal : List Request} {r : Request} {s' : State} {e : Halt} (offset : s₀.g_hhdm_offset = 0)
    (memory : s₀.total_mem.toNat ≤ 2 ^ 52) (next : rs ++ [r] <+: goal) (serving : Serving s₀ root ∅ rs s)
    (stuck : Stuck root (dir r.page) s e s') : (∀ a, e ≠ .fault a) ↔ FitsLow s₀ (pathsOf goal).card := by
  have tree := serving.ledger.tree
  have nearEnd : ∀ {mid}, Growth root (dir r.page) s mid → Near root mid := near_growth tree rfl serving.near
  have offsetEnd : ∀ {mid}, Growth root (dir r.page) s mid → mid.g_hhdm_offset = 0 := fun grown =>
    (offset_total_growth grown).1.trans (serving.offset.trans offset)
  cases stuck with
  | outOfMemory grown _ full =>
    refine iff_of_true (by simp) (.inr ?_)
    intro k free
    have ledger := ledger_growth serving.ledger rfl grown
    have marked : Marked s' k := by
      by_contra clear
      exact full k ⟨by rw [ledger.total]; exact free.1, clear⟩
    obtain ⟨q, t, short, reached, index⟩ := table_of_taken ledger marked free.2
    rw [low_of_index memory free, ← index]
    exact index_of_near (offsetEnd grown) (nearEnd grown q t short reached)
  | farTable grown along reached far =>
    have short := along.length_le
    exact absurd (nearEnd grown _ _ short reached) far
  | @farFrame mid k grown missing least far =>
    have ledger := ledger_growth serving.ledger rfl grown
    have free := ledger.free_start least.free
    have high : ¬ idx_to_addr k < ONE_GIB := fun low => far (fun _ => low)
    have beyond : ¬ k.toNat < 2 ^ 18 := fun small => high ((low_of_index memory free).mpr small)
    have few := lowFree_lt serving grown missing (none_below least (by omega))
    have more := card_pathsOf_mono next
    refine iff_of_false (fun none => none _ rfl) ?_
    rintro (fits | low)
    · omega
    · exact high (low k free)

end

/-! ## The run of `init_paging` -/

section
variable {image : Image} {mb2_addr : UInt64} {boot s : State} {tags : List Tag}

theorem no_fault_ok {r : EStateM.Result Halt State Unit} {s' : State} (runs : r = .ok () s') :
    ∀ a s', r ≠ .error (.fault a) s' := by
  rintro a s' rfl
  cases runs

theorem no_fault_error {r : EStateM.Result Halt State Unit} {e : Halt} {s' : State} (runs : r = .error e s') :
    (∀ a s', r ≠ .error (.fault a) s') ↔ ∀ a, e ≠ .fault a := by
  subst runs
  simp

/-- Where no frame of the first GiB is free, not even the root is within reach. -/
theorem root_far {k : UInt64} (memory : s.total_mem.toNat ≤ 2 ^ 52) (least : Least s k) (far : ¬ Window s (idx_to_addr k)) :
    lowFree s = 0 ∧ ¬ idx_to_addr k < ONE_GIB := by
  have high : ¬ idx_to_addr k < ONE_GIB := fun low => far (fun _ => low)
  refine ⟨?_, high⟩
  rw [low_of_index memory least.free] at high
  rw [lowFree, Finset.card_eq_zero, Finset.filter_eq_empty_iff]
  intro i inside
  rw [mem_indices (by decide)] at inside
  exact none_below least (by omega) i inside

theorem tablesNeeded_pos (elf : Option (List Elf64Shdr)) (total_mem : UInt64) : 0 < tablesNeeded elf total_mem := by
  cases elf with
  | none => exact Nat.one_pos
  | some sections => exact Finset.card_pos.mpr ⟨[], mem_pathsOf.mpr (.inl rfl)⟩

/-- `init_paging` faults exactly when its tables do not fit. -/
theorem no_fault_iff (readable : Readable boot mb2_addr s) (memory : s.total_mem.toNat ≤ 2 ^ 52)
    (zero : ¬ Free s 0) (block : Block boot mb2_addr tags) :
    (∀ a s', init_paging mb2_addr s ≠ .error (.fault a) s') ↔ FitsLow s (tablesNeeded (elfOf tags) s.total_mem) := by
  rcases init_paging_cases block readable zero with ⟨k, least, near, runs⟩ | ⟨k, least, far, runs⟩ | ⟨full, runs⟩
  · have start := serving_rooted ∅ memory zero (by simp) least near
    cases found : elfOf tags with
    | none =>
      rw [found] at runs
      exact iff_of_true ((no_fault_error runs).mpr (by simp)) (.inl (tables_le_lowFree readable.offset start))
    | some sections =>
      rw [found] at runs
      have served := serve_post (bootJobs sections s.total_mem)
        (fun _ _ _ _ member => ⟨proper_bootJobs member, Set.notMem_empty _⟩) start
      cases ran : serve (idx_to_addr k) (bootJobs sections s.total_mem) (rooted k s) with
      | ok _ mid =>
        have fits := tables_le_lowFree readable.offset (served.of_ok ran)
        exact iff_of_true (no_fault_ok (runs.trans (bind_ok ran))) (.inl fits)
      | error e mid =>
        rw [no_fault_error (runs.trans (bind_error ran))]
        cases served.of_error ran with
        | conflict serving => exact iff_of_true (by simp) (.inl (tables_le_lowFree readable.offset serving))
        | spin serving => exact iff_of_true (by simp) (.inl (tables_le_lowFree readable.offset serving))
        | stuck next serving stuck => exact stuck_fits readable.offset memory next serving stuck
  · obtain ⟨none, high⟩ := root_far memory least far
    have some := tablesNeeded_pos (elfOf tags) s.total_mem
    rw [no_fault_error runs]
    refine iff_of_false (fun never => never _ rfl) ?_
    rintro (fits | low)
    · omega
    · exact high (low k least.free)
  · exact iff_of_true ((no_fault_error runs).mpr (by simp)) (.inr (fun k free => absurd free (full k)))

end

def fewTags : List Tag :=
  [.mmap [⟨0, 0x224000, 1⟩, ⟨0x100000000, 0x1000000, 1⟩], .elf [⟨SHF_ALLOC, KERNEL_VMA + 0x100000, 0x1000⟩]]

def fewBytes : List UInt8 :=
  le32 168 ++ le32 0 ++
  (le32 6 ++ le32 64 ++ le32 24 ++ le32 0 ++ le64 0 ++ le64 0x224000 ++ le32 1 ++ le32 0 ++ le64 0x100000000 ++
    le64 0x1000000 ++ le32 1 ++ le32 0) ++
  (le32 9 ++ le32 84 ++ le32 1 ++ le32 64 ++ le32 0 ++ le64 0 ++ le64 SHF_ALLOC ++ le64 (KERNEL_VMA + 0x100000) ++ le64 0 ++
    le64 0x1000 ++ le64 0 ++ le64 0 ++ le64 0 ++ le32 0) ++
  (le32 0 ++ le32 8)

def fewBoot : State := loaded fewBytes 0x200000

theorem powerOn_few : PowerOn fewBoot := ⟨rfl, rfl, rfl, rfl⟩

theorem block_few : Block fewBoot 0x200000 fewTags := by decide +kernel

theorem init_pmm_few : ∃ s, init_pmm smallImage 0x200000 fewBoot = .ok () s ∧ s.total_mem = 0x101000000 ∧
    s.bmp_phys = 0x201000 ∧ bitmap_size_bytes s = 0x21000 := by
  obtain ⟨s, done, total, start, size⟩ := init_pmm_accepts smallImage powerOn_few block_few (by decide) (by decide +kernel)
  exact ⟨s, done, total.trans (by decide +kernel), start.trans (by decide +kernel), size.trans (by decide +kernel)⟩

theorem free_few {s : State} (done : init_pmm smallImage 0x200000 fewBoot = .ok () s) (i : UInt64) :
    (Free s i → i.toNat < 2 ^ 18 → i = 0x222 ∨ i = 0x223) ∧ (i = 0x100000 → Free s i) := by
  obtain ⟨s', done', total, start, size⟩ := init_pmm_few
  rw [done] at done'
  cases done'
  have pages : s.total_mem.toNat / 4096 = 0x101000 := by rw [total]; decide
  have spare : i.toNat < 0x101000 → _ := fun managed =>
    clear_iff_spare powerOn_few block_few (by decide +kernel) (fun _ impossible => by cases impossible) done (by rw [pages, size]; decide)
      (i := i) (by rw [pages]; exact managed)
  have kernelStart : (smallImage.kernel_start - KERNEL_VMA).toNat = 0x100000 := rfl
  have kernelEnd : (smallImage.kernel_end - KERNEL_VMA).toNat = 0x200000 := rfl
  have mb2_size : (fewBoot.read32 0x200000).toNat = 168 := by decide +kernel
  have bitmapStart : s.bmp_phys.toNat = 0x201000 := by rw [start]; rfl
  have bitmapSize : (bitmap_size_bytes s).toNat = 0x21000 := by rw [size]; rfl
  refine ⟨?_, ?_⟩
  · rintro ⟨_, clear⟩ low
    obtain ⟨⟨x, member, _, inside⟩, offLow, offKernel, offBlock, _, offBitmap⟩ := (spare (by omega)).mp clear
    rw [kernelStart, kernelEnd] at offKernel
    rw [mb2_size, show (0x200000 : UInt64).toNat = 0x200000 from rfl] at offBlock
    rw [bitmapStart, bitmapSize] at offBitmap
    rw [page_subset] at inside
    have besideLow := beside_of_disjoint offLow (by norm_num)
    have besideKernel := beside_of_disjoint offKernel (by norm_num)
    have besideBlock := beside_of_disjoint offBlock (by norm_num)
    have besideBitmap := beside_of_disjoint offBitmap (by norm_num)
    have bound : 4096 * (i.toNat + 1) ≤ 0x224000 := by
      rcases List.mem_pair.mp member with rfl | rfl
      · exact inside.2
      · have first : (⟨0x100000000, 0x1000000, 1⟩ : Entry).addr.toNat = 0x100000000 := rfl
        omega
    have two : i.toNat = 0x222 ∨ i.toNat = 0x223 := by omega
    rcases two with first | second
    · exact .inl (UInt64.toNat_inj.mp (by rw [first]; rfl))
    · exact .inr (UInt64.toNat_inj.mp (by rw [second]; rfl))
  · intro here
    have index : i.toNat = 0x100000 := by simp [here]
    have entry : (⟨0x100000000, 0x1000000, 1⟩ : Entry) ∈ entriesOf fewTags := by decide
    have first : (⟨0x100000000, 0x1000000, 1⟩ : Entry).addr.toNat = 0x100000000 := rfl
    have stop : Entry.stop ⟨0x100000000, 0x1000000, 1⟩ = 0x101000000 := rfl
    exact free_above_bitmap powerOn_few block_few (by decide +kernel) (fun _ impossible => by cases impossible) done entry rfl
      (by omega) (by omega) (by omega)

/-- Already the first page of the kernel needs four tables. -/
theorem four_tables : 4 ≤ tablesNeeded (elfOf fewTags) 0x101000000 := by
  have jobs : bootJobs [⟨SHF_ALLOC, KERNEL_VMA + 0x100000, 0x1000⟩] 0x101000000 =
      .map (KERNEL_VMA + 0x100000) 0x100000 (PAGE_PRESENT ||| PAGE_NX) (.elfMapping (KERNEL_VMA + 0x100000)) ::
        (bootJobs [⟨SHF_ALLOC, KERNEL_VMA + 0x100000, 0x1000⟩] 0x101000000).tail := by
    have allocated : SHF_ALLOC &&& SHF_ALLOC ≠ 0 := by decide
    rw [bootJobs, List.flatMap_cons, sectionJobs, if_pos allocated, pageJobs_cons (by decide)]
    rfl
  have first : pathsOf [⟨KERNEL_VMA + 0x100000, 0x100000, PAGE_PRESENT ||| PAGE_NX⟩] ⊆
      pathsOf (settled [] (bootJobs [⟨SHF_ALLOC, KERNEL_VMA + 0x100000, 0x1000⟩] 0x101000000)) := by
    rw [jobs, settled, if_neg (by decide)]
    intro q member
    rcases mem_pathsOf.mp member with top | ⟨r, inside, along⟩
    · exact mem_pathsOf.mpr (.inl top)
    · exact mem_pathsOf.mpr (.inr ⟨r, (settled_extends _ _).subset inside, along⟩)
  have four : (pathsOf [⟨KERNEL_VMA + 0x100000, 0x100000, PAGE_PRESENT ||| PAGE_NX⟩]).card = 4 := by decide
  exact four ▸ Finset.card_le_card first

end Extron.EarlyTables
