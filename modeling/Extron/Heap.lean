import Extron.Startup

/-!
The heap: what one call of `vmm_alloc_pages` or `vmm_free_pages` does to the bitmap
and to the pages. An allocation takes the first gap of the heap bitmap at or after
the cursor, else the first gap before it; a release goes page by page and stops at
the first page that is not mapped.
-/
namespace Extron.Heap
open Extron.RadixTree Extron.Multiboot Extron.Pmm Extron.Paging Extron.AddressSpace Extron.Accounting Extron.BootJobs
open Extron.KernelMap Extron.Regions Extron.Vmm Extron.OwnPages Extron.Startup Extron.Outcomes
set_option linter.unusedSimpArgs false

/-! ## Gaps -/

/-- The `n` bits from `a` on lie between `lo` and `hi` and are clear. -/
structure Gap (s : State) (n lo hi a : Nat) : Prop where
  low : lo ≤ a
  high : a + n ≤ hi
  clear : ∀ j : UInt64, a ≤ j.toNat → j.toNat < a + n → ¬ Taken s j

/-- The lowest gap. -/
structure FirstGap (s : State) (n lo hi a : Nat) : Prop extends Gap s n lo hi a where
  first : ∀ b, Gap s n lo hi b → a ≤ b

/-- What a pass over the bits from `lo` to `hi` reports. -/
def Found (s : State) (n lo hi : Nat) : Option UInt64 → Prop
  | some a => FirstGap s n lo hi a.toNat
  | none => ∀ b, ¬ Gap s n lo hi b

section
variable {s₀ s : State} {sections : List Elf64Shdr} {filled : Set Nat}

theorem byte_of_bit {i : UInt64} (inside : i.toNat < 2 ^ 25) : (i >>> 3).toNat < 2 ^ 22 := by
  rw [UInt64.toNat_shiftRight]
  simp [Nat.shiftRight_eq_div_pow]
  omega

/-- Every byte of the heap bitmap can be touched. -/
def Touchable (s : State) : Prop := ∀ k : UInt64, k.toNat < 2 ^ 22 → touch k s = .ok () s

theorem touchable_of_core (core : Core s₀ sections filled s) (mapped : bitmapPages ⊆ filled) : Touchable s :=
  fun _ inside => touch_ok core mapped inside

theorem bitmap_test_ok (readable : Touchable s) {i : UInt64} (inside : i.toNat < 2 ^ 25) :
    Vmm.bitmap_test i s = .ok (s.vmm_bitmap (i >>> 3) &&& (1 <<< (i &&& 7).toUInt8)) s := by
  rw [Vmm.bitmap_test, bind_ok (readable _ (byte_of_bit inside))]
  rfl

/-- A pass that has seen `found` clear bits just before `i`, where no gap can start
    before them, reports the first gap. -/
theorem search_found (readable : Touchable s) {n : UInt64} {lo stop : Nat}
    (bound : stop ≤ 2 ^ 25) {rounds : Nat} {i found start : UInt64} (total : i.toNat + rounds = stop)
    (few : found.toNat < n.toNat) (length : lo + found.toNat ≤ i.toNat)
    (begun : found ≠ 0 → start.toNat + found.toNat = i.toNat)
    (clear : ∀ j : UInt64, i.toNat - found.toNat ≤ j.toNat → j.toNat < i.toNat → ¬ Taken s j)
    (earliest : ∀ b, Gap s n.toNat lo stop b → i.toNat - found.toNat ≤ b) :
    ∃ r, vmm_alloc_pages.search n rounds i found start s = .ok r s ∧ Found s n.toNat lo stop r := by
  induction rounds generalizing i found start with
  | zero =>
    refine ⟨none, rfl, ?_⟩
    intro b gap
    have := earliest b gap
    have := gap.high
    omega
  | succ rounds ih =>
    have test := bitmap_test_ok readable (i := i) (by omega)
    have next : (i + 1).toNat = i.toNat + 1 := by
      rw [UInt64.toNat_add, UInt64.toNat_one]
      omega
    have more : (found + 1).toNat = found.toNat + 1 := by
      have := n.toNat_lt
      rw [UInt64.toNat_add, UInt64.toNat_one]
      omega
    rw [vmm_alloc_pages.search, bind_ok test]
    by_cases free : s.vmm_bitmap (i >>> 3) &&& (1 <<< (i &&& 7).toUInt8) = 0
    · have untaken : ¬ Taken s i := fun taken => taken free
      have first : (if found = 0 then i else start).toNat + found.toNat = i.toNat := by
        by_cases none : found = 0
        · rw [if_pos none, none]
          simp
        · rw [if_neg none]
          exact begun none
      have clearNow : ∀ j : UInt64, i.toNat - found.toNat ≤ j.toNat → j.toNat < i.toNat + 1 → ¬ Taken s j := by
        intro j low high
        by_cases here : j = i
        · rw [here]
          exact untaken
        · have different : j.toNat ≠ i.toNat := fun same => here (UInt64.toNat_inj.mp same)
          exact clear j low (by omega)
      simp only [if_pos free]
      by_cases enough : found + 1 = n
      · have count := congrArg UInt64.toNat enough
        rw [more] at count
        rw [if_pos enough]
        refine ⟨some (if found = 0 then i else start), rfl, ⟨by omega, by omega, ?_⟩, ?_⟩
        · intro j low high
          exact clearNow j (by omega) (by omega)
        · intro b gap
          have := earliest b gap
          omega
      · have short : found.toNat + 1 ≠ n.toNat := fun same => enough (UInt64.toNat_inj.mp (more.trans same))
        rw [if_neg enough]
        refine ih (by omega) (by omega) (by omega) (fun _ => by omega) ?_ ?_
        · intro j low high
          exact clearNow j (by omega) (by omega)
        · intro b gap
          have := earliest b gap
          omega
    · have taken : Taken s i := free
      simp only [if_neg free]
      refine ih (by omega) (by simp; omega) (by simp; omega) (fun bad => absurd rfl bad) ?_ ?_
      · intro j low high
        simp at low
        omega
      · intro b gap
        have after := earliest b gap
        by_contra before
        simp at before
        exact gap.clear i (by omega) (by omega) taken

/-- A whole pass from bit `i` on. -/
theorem pass_found (readable : Touchable s) {n i : UInt64} {rounds stop : Nat}
    (bound : stop ≤ 2 ^ 25) (total : i.toNat + rounds = stop) (count : 0 < n.toNat) :
    ∃ r, vmm_alloc_pages.search n rounds i 0 0 s = .ok r s ∧ Found s n.toNat i.toNat stop r := by
  refine search_found readable bound total (by simpa using count) (by simp) (by simp) ?_ ?_
  · intro j low high
    simp at low
    omega
  · intro b gap
    simpa using gap.low

end

/-! ## Bits and pages -/

section
variable {s₀ s s' : State} {sections : List Elf64Shdr}

theorem takenPages_congr (same : s'.vmm_bitmap = s.vmm_bitmap) : takenPages s' = takenPages s := by
  simp only [takenPages, Taken, same]

theorem mem_takenPages {i : UInt64} (inside : i.toNat < 2 ^ 25) : heapPage i.toNat ∈ takenPages s ↔ Taken s i := by
  constructor
  · rintro ⟨j, _, taken, same⟩
    rw [heapPage, heapPage] at same
    have index : i = j := UInt64.toNat_inj.mp (by omega)
    rw [index]
    exact taken
  · intro taken
    exact ⟨i, inside, taken, rfl⟩

theorem heapPage_mem {i : Nat} (inside : i < 2 ^ 25) : heapPage i ∈ heapPages := by
  rw [mem_heapPages, heapPage]
  omega

theorem heapPage_own {i : Nat} (inside : i < 2 ^ 25) : heapPage i ∈ ownPages := .inl (.inr (heapPage_mem inside))

/-- A heap page is mapped exactly when its bit is set. -/
theorem mem_occupied {i : UInt64} (inside : i.toNat < 2 ^ 25) :
    heapPage i.toNat ∈ bitmapPages ∪ stackPages ∪ takenPages s ↔ Taken s i := by
  have heap := heapPage_mem inside
  rw [mem_heapPages] at heap
  rw [Set.mem_union, Set.mem_union, mem_takenPages inside, mem_bitmapPages, mem_stackPages]
  constructor
  · rintro ((bitmap | stack) | taken)
    · omega
    · omega
    · exact taken
  · exact fun taken => .inr taken

theorem mapped_iff_taken (core : Core s₀ sections (bitmapPages ∪ stackPages ∪ takenPages s) s) {i : UInt64}
    (inside : i.toNat < 2 ^ 25) : (leaf s.kernel_pml4 s (heapPage i.toNat)).isSome ↔ Taken s i := by
  rw [core.filled _ (heapPage_own inside), mem_occupied inside]

theorem unmapped_of_clear (core : Core s₀ sections (bitmapPages ∪ stackPages ∪ takenPages s) s) {i : UInt64}
    (inside : i.toNat < 2 ^ 25) (clear : ¬ Taken s i) : leaf s.kernel_pml4 s (heapPage i.toNat) = none := by
  simpa using mt (mapped_iff_taken core inside).mp clear

theorem takenPages_taken {i : UInt64} (inside : i.toNat < 2 ^ 25) :
    takenPages (taken i s) = insert (heapPage i.toNat) (takenPages s) := by
  ext n
  constructor
  · rintro ⟨j, small, set, rfl⟩
    rcases (taken_set s i j).mp set with rfl | old
    · exact .inl rfl
    · exact .inr ⟨j, small, old, rfl⟩
  · rintro (rfl | ⟨j, small, old, rfl⟩)
    · exact ⟨i, inside, (taken_set s i i).mpr (.inl rfl), rfl⟩
    · exact ⟨j, small, (taken_set s i j).mpr (.inr old), rfl⟩

theorem takenPages_untaken {i : UInt64} :
    takenPages (untaken i s) = takenPages s \ {heapPage i.toNat} := by
  ext n
  constructor
  · rintro ⟨j, small, set, rfl⟩
    obtain ⟨other, old⟩ := (taken_clear s i j).mp set
    refine ⟨⟨j, small, old, rfl⟩, ?_⟩
    intro same
    rw [Set.mem_singleton_iff, heapPage, heapPage] at same
    exact other (UInt64.toNat_inj.mp (by omega))
  · rintro ⟨⟨j, small, old, rfl⟩, different⟩
    exact ⟨j, small, (taken_clear s i j).mpr ⟨fun same => different (by rw [same]; rfl), old⟩, rfl⟩

theorem bitmap_set_ok (readable : Touchable s) {i : UInt64} (inside : i.toNat < 2 ^ 25) :
    Vmm.bitmap_set i s = .ok () (taken i s) := by
  rw [Vmm.bitmap_set, bind_ok (readable _ (byte_of_bit inside))]
  rfl

theorem bitmap_clear_ok (readable : Touchable s) {i : UInt64} (inside : i.toNat < 2 ^ 25) :
    Vmm.bitmap_clear i s = .ok () (untaken i s) := by
  rw [Vmm.bitmap_clear, bind_ok (readable _ (byte_of_bit inside))]
  rfl

theorem touchable_of_rest (rest : AtRest s₀ sections s) : Touchable s :=
  touchable_of_core rest.core fun _ member => .inl (.inl member)

end

/-! ## Allocation -/

/-- The pages of the heap bits from `a` on. -/
def pagesFrom (a n : Nat) : Set Nat := Set.Ico (heapPage a) (heapPage (a + n))

/-- The loop that maps the pages of the bits from `a` on, after `k` rounds. -/
structure Taking (s₀ : State) (sections : List Elf64Shdr) (a : UInt64) (start : State) (k : Nat) (s : State) : Prop where
  core : Core s₀ sections (bitmapPages ∪ stackPages ∪ takenPages s) s
  within : Within (pagesFrom a.toNat k) start s
  bits : ∀ j : UInt64, Taken s j ↔ Taken start j ∨ a.toNat ≤ j.toNat ∧ j.toNat < a.toNat + k

section
variable {s₀ s start : State} {sections : List Elf64Shdr} {n a : UInt64}

theorem pagesFrom_mono {a k m : Nat} (le : k ≤ m) : pagesFrom a k ⊆ pagesFrom a m := by
  intro n inside
  rw [pagesFrom, Set.mem_Ico, heapPage, heapPage] at inside ⊢
  omega

theorem toNat_offset {k : Nat} (room : a.toNat + k < 2 ^ 64) : (a + UInt64.ofNat k).toNat = a.toNat + k := by
  rw [UInt64.toNat_add, UInt64.toNat_ofNat']
  omega

/-- The last of the pages comes after the others. -/
theorem within_extend {b k : Nat} {mid : State} (before : Within (pagesFrom b k) start s) (last : Within {heapPage (b + k)} s mid) :
    Within (pagesFrom b (k + 1)) start mid := by
  refine (before.mono (pagesFrom_mono (Nat.le_succ k))).trans (last.mono ?_)
  intro m member
  rw [Set.mem_singleton_iff.mp member, pagesFrom, Set.mem_Ico, heapPage, heapPage, heapPage]
  omega

theorem taken_congr {mid : State} (same : mid.vmm_bitmap = s.vmm_bitmap) (j : UInt64) : Taken mid j ↔ Taken s j := by
  rw [Taken, Taken, same]

theorem taken_extend {b k : Nat} {i : UInt64} {mid : State} (same : mid.vmm_bitmap = s.vmm_bitmap)
    (before : ∀ j : UInt64, Taken s j ↔ Taken start j ∨ b ≤ j.toNat ∧ j.toNat < b + k) (index : i.toNat = b + k) (j : UInt64) :
    Taken (taken i mid) j ↔ Taken start j ∨ b ≤ j.toNat ∧ j.toNat < b + (k + 1) := by
  rw [taken_set, taken_congr same, before, ← UInt64.toNat_inj, index]
  by_cases old : Taken start j
  · simp [old]
  · simp only [old, false_or]
    omega

theorem take_round {k : Nat} (inside : a.toNat + k < 2 ^ 25)
    (clear : ∀ j : UInt64, j.toNat = a.toNat + k → ¬ Taken start j) (here : Taking s₀ sections a start k s) :
    Post (fun _ => Taking s₀ sections a start (k + 1)) (Starved s₀) (vmm_alloc_pages.take_page a k s) := by
  have index := toNat_offset (a := a) (k := k) (by omega)
  have small : (a + UInt64.ofNat k).toNat < 2 ^ 25 := by omega
  have page := (heap_address small).2
  have untaken : ¬ Taken s (a + UInt64.ofNat k) := by
    rw [here.bits]
    rintro (old | ⟨_, before⟩)
    · exact clear _ index old
    · omega
  rw [vmm_alloc_pages.take_page]
  apply post_bind
  refine (core_fill here.core ?_ ?_).mono ?_ (fun _ _ starved => starved)
  · rw [page]
    exact heapPage_own small
  · rw [page, mem_occupied small]
    exact untaken
  · rintro _ mid ⟨core, within, kept⟩
    rw [page] at core within
    have bitmap : bitmapPages ⊆ insert (heapPage (a + UInt64.ofNat k).toNat) (bitmapPages ∪ stackPages ∪ takenPages s) :=
      fun _ member => .inr (.inl (.inl member))
    have same : mid.vmm_bitmap = s.vmm_bitmap := by rw [kept.rest]
    rw [bitmap_set_ok (touchable_of_core core bitmap) small]
    refine ⟨?_, ?_, taken_extend same here.bits index⟩
    · rw [takenPages_taken small, takenPages_congr same, Set.union_insert]
      exact core_aside core
    · rw [index] at within
      exact (within_extend here.within within).trans within_aside

/-- What an allocation of `n` pages at bit `a` does. -/
structure Allocated (s₀ : State) (sections : List Elf64Shdr) (n a : UInt64) (s s' : State) : Prop where
  rest : AtRest s₀ sections s'
  within : Within (pagesFrom a.toNat n.toNat) s s'
  gap : Gap s n.toNat 0 (2 ^ 25) a.toNat
  bits : ∀ j : UInt64, Taken s' j ↔ Taken s j ∨ a.toNat ≤ j.toNat ∧ j.toNat < a.toNat + n.toNat
  cursor : s'.last_allocated_index = a + n

/-- The bit that an allocation of `n` pages starts at: the first gap at or after the
    cursor, else the first gap before it. -/
def NextFit (s : State) (n : Nat) (a : UInt64) : Prop :=
  FirstGap s n s.last_allocated_index.toNat (2 ^ 25) a.toNat ∨
    (∀ b, ¬ Gap s n s.last_allocated_index.toNat (2 ^ 25) b) ∧ FirstGap s n 0 s.last_allocated_index.toNat a.toNat

/-- How an allocation can stop. -/
inductive Unallocated (s₀ s : State) (n : UInt64) : Halt → State → Prop
  | starved {e : Halt} {s' : State} (starved : Starved s₀ e s') : Unallocated s₀ s n e s'
  | exhausted (after : ∀ b, ¬ Gap s n.toNat s.last_allocated_index.toNat (2 ^ 25) b)
      (before : ∀ b, ¬ Gap s n.toNat 0 s.last_allocated_index.toNat b) :
      Unallocated s₀ s n (.panic .heapExhausted) s

theorem take_post (rest : AtRest s₀ sections s) (gap : Gap s n.toNat 0 (2 ^ 25) a.toNat) :
    Post (fun v s' => v = KERNEL_HEAP_START + a * PAGE_SIZE ∧ Allocated s₀ sections n a s s') (Starved s₀)
      (vmm_alloc_pages.take n a s) := by
  have high := gap.high
  rw [vmm_alloc_pages.take]
  apply post_bind
  refine (post_times (Taking s₀ sections a s) n.toNat (fun k mid below here => take_round (by omega) ?_ here) n.toNat 0 s
    (Nat.zero_add _) ?_).mono ?_ (fun _ _ starved => starved)
  · intro j index
    exact gap.clear j (by omega) (by omega)
  · refine ⟨rest.core, .refl s, ?_⟩
    intro j
    have none : ¬ (a.toNat ≤ j.toNat ∧ j.toNat < a.toNat + 0) := by omega
    simp [none]
  · rintro _ mid ⟨core, within, bits⟩
    have cursor : (a + n).toNat ≤ 2 ^ 25 := by
      rw [UInt64.toNat_add]
      omega
    exact ⟨rfl, ⟨core_aside core, cursor⟩, within.trans within_aside, gap, bits, rfl⟩

/-- The two passes: an allocation takes the next fit, and finds none when there is no gap
    on either side of the cursor. -/
theorem post_vmm_alloc_pages {Q : UInt64 → State → Prop} {E : Halt → State → Prop} (readable : Touchable s)
    (cursor : s.last_allocated_index.toNat ≤ 2 ^ 25) (some : n ≠ 0)
    (fits : ∀ a, NextFit s n.toNat a → Gap s n.toNat 0 (2 ^ 25) a.toNat → Post Q E (vmm_alloc_pages.take n a s))
    (none : (∀ b, ¬ Gap s n.toNat s.last_allocated_index.toNat (2 ^ 25) b) →
      (∀ b, ¬ Gap s n.toNat 0 s.last_allocated_index.toNat b) → E (.panic .heapExhausted) s) :
    Post Q E (vmm_alloc_pages n s) := by
  have count : 0 < n.toNat := by
    have nonzero : n.toNat ≠ 0 := fun zero => some (UInt64.toNat_inj.mp zero)
    omega
  have total : (KERNEL_HEAP_SIZE / PAGE_SIZE).toNat = 2 ^ 25 := by decide
  have distance : s.last_allocated_index.toNat + Words.distance s.last_allocated_index (KERNEL_HEAP_SIZE / PAGE_SIZE) =
      2 ^ 25 := by
    rw [Words.distance, total]
    omega
  obtain ⟨first, firstRun, firstFound⟩ := pass_found readable le_rfl distance count
  rw [vmm_alloc_pages]
  simp only [get_bind]
  rw [bind_ok firstRun]
  cases first with
  | some a =>
    obtain ⟨⟨low, high, clear⟩, least⟩ := id firstFound
    exact fits a (.inl firstFound) ⟨by omega, high, clear⟩
  | none =>
    obtain ⟨second, secondRun, secondFound⟩ := pass_found (i := 0) readable cursor (Nat.zero_add _) count
    simp only
    rw [bind_ok secondRun]
    cases second with
    | some a =>
      obtain ⟨⟨low, high, clear⟩, least⟩ := id secondFound
      exact fits a (.inr ⟨firstFound, secondFound⟩) ⟨by omega, by omega, clear⟩
    | none => exact none firstFound secondFound

/-- An allocation takes the next fit, and stops only when frames or gaps run out. -/
theorem vmm_alloc_pages_post (rest : AtRest s₀ sections s) (some : n ≠ 0) :
    Post (fun v s' => ∃ a, v = KERNEL_HEAP_START + a * PAGE_SIZE ∧ NextFit s n.toNat a ∧ Allocated s₀ sections n a s s')
      (Unallocated s₀ s n) (vmm_alloc_pages n s) := by
  refine post_vmm_alloc_pages (touchable_of_rest rest) rest.cursor some (fun a fit gap => ?_) .exhausted
  refine (take_post rest gap).mono ?_ (fun _ _ starved => .starved starved)
  rintro v s' ⟨value, allocated⟩
  exact ⟨a, value, fit, allocated⟩

end

section
variable {s₀ s : State} {sections : List Elf64Shdr}

/-- A pass never counts as many as no clear bits. -/
theorem search_zero (readable : Touchable s) {rounds : Nat} {i found start : UInt64} (bound : i.toNat + rounds ≤ 2 ^ 25) (few : found.toNat ≤ i.toNat) :
    vmm_alloc_pages.search 0 rounds i found start s = .ok none s := by
  induction rounds generalizing i found start with
  | zero => rfl
  | succ rounds ih =>
    have next : (i + 1).toNat = i.toNat + 1 := by
      rw [UInt64.toNat_add, UInt64.toNat_one]
      omega
    have more : (found + 1).toNat = found.toNat + 1 := by
      rw [UInt64.toNat_add, UInt64.toNat_one]
      omega
    have never : found + 1 ≠ 0 := fun zero => by
      have count := congrArg UInt64.toNat zero
      rw [more] at count
      cases count
    rw [vmm_alloc_pages.search, bind_ok (bitmap_test_ok readable (by omega))]
    by_cases free : s.vmm_bitmap (i >>> 3) &&& (1 <<< (i &&& 7).toUInt8) = 0
    · simp only [if_pos free, if_neg never]
      exact ih (by omega) (by omega)
    · simp only [if_neg free]
      exact ih (by omega) (by simp)

/-- No pages are never allocated. -/
theorem vmm_alloc_pages_zero (rest : AtRest s₀ sections s) :
    vmm_alloc_pages 0 s = .error (.panic .heapExhausted) s := by
  have cursor := rest.cursor
  have readable := touchable_of_rest rest
  have total : (KERNEL_HEAP_SIZE / PAGE_SIZE).toNat = 2 ^ 25 := by decide
  have distance : s.last_allocated_index.toNat + Words.distance s.last_allocated_index (KERNEL_HEAP_SIZE / PAGE_SIZE) ≤
      2 ^ 25 := by
    rw [Words.distance, total]
    omega
  rw [vmm_alloc_pages]
  simp only [get_bind]
  rw [bind_ok (search_zero readable distance (by simp))]
  simp only
  rw [bind_ok (search_zero readable (by simpa using cursor) (by simp))]
  rfl

end

/-! ## Release -/

/-- The loop that frees the pages of the bits from `a` on, after `k` rounds. -/
structure Freeing (s₀ : State) (sections : List Elf64Shdr) (a : UInt64) (start : State) (k : Nat) (s : State) : Prop where
  core : Core s₀ sections (bitmapPages ∪ stackPages ∪ takenPages s) s
  within : Within (pagesFrom a.toNat k) start s
  bits : ∀ j : UInt64, Taken s j ↔ Taken start j ∧ ¬ (a.toNat ≤ j.toNat ∧ j.toNat < a.toNat + k)
  taken : ∀ j : UInt64, a.toNat ≤ j.toNat → j.toNat < a.toNat + k → Taken start j
  tables : ∀ q, q.length ≤ 3 → table start.kernel_pml4 s q = table start.kernel_pml4 start q
  cursor : s.last_allocated_index = start.last_allocated_index

/-- The release stopped after `k` rounds, at a page that was not mapped. -/
structure Unmet (s₀ : State) (sections : List Elf64Shdr) (a : UInt64) (start : State) (k : Nat) (e : Halt) (s : State) :
    Prop where
  freeing : Freeing s₀ sections a start k s
  stopped : e = .panic (.neverMapped (KERNEL_HEAP_START + (a + UInt64.ofNat k) * PAGE_SIZE))
  clear : ¬ Taken start (a + UInt64.ofNat k)

section
variable {s₀ s start : State} {sections : List Elf64Shdr} {v n a : UInt64}

theorem Freeing.rest {k : Nat} (here : Freeing s₀ sections a start k s) (rest : AtRest s₀ sections start) :
    AtRest s₀ sections s :=
  ⟨here.core, by rw [here.cursor]; exact rest.cursor⟩

theorem free_round {k : Nat} (inside : a.toNat + k < 2 ^ 25) (here : Freeing s₀ sections a start k s) :
    Post (fun _ => Freeing s₀ sections a start (k + 1)) (Unmet s₀ sections a start k)
      (vmm_free_pages.free_page (KERNEL_HEAP_START + a * PAGE_SIZE) a k s) := by
  have index := toNat_offset (a := a) (k := k) (by omega)
  have small : (a + UInt64.ofNat k).toNat < 2 ^ 25 := by omega
  have page := (heap_address small).2
  have address : KERNEL_HEAP_START + a * PAGE_SIZE + UInt64.ofNat k * PAGE_SIZE =
      KERNEL_HEAP_START + (a + UInt64.ofNat k) * PAGE_SIZE := by
    rw [UInt64.add_mul, UInt64.add_assoc]
  have unchanged : Taken s (a + UInt64.ofNat k) ↔ Taken start (a + UInt64.ofNat k) := by
    rw [here.bits, and_iff_left]
    omega
  rw [vmm_free_pages.free_page, address]
  apply post_bind
  refine (core_free here.core ?_).mono ?_ ?_
  · rw [page]
    exact heapPage_own small
  · rintro _ mid ⟨mapped, core, within, kept, tables⟩
    rw [page] at mapped core within
    have set : Taken start (a + UInt64.ofNat k) := unchanged.mp ((mem_occupied small).mp mapped)
    have bitmap : bitmapPages ⊆ (bitmapPages ∪ stackPages ∪ takenPages s) \ {heapPage (a + UInt64.ofNat k).toNat} := by
      intro m member
      refine ⟨.inl (.inl member), ?_⟩
      rintro rfl
      rw [mem_bitmapPages, heapPage] at member
      omega
    have same : mid.vmm_bitmap = s.vmm_bitmap := by rw [kept.rest]
    rw [bitmap_clear_ok (touchable_of_core core bitmap) small]
    refine ⟨?_, ?_, ?_, ?_, ?_, ?_⟩
    · refine core_aside (core.congr ?_)
      intro m own
      rw [takenPages_untaken, takenPages_congr same]
      have apart : heapPage (a + UInt64.ofNat k).toNat ∉ bitmapPages ∪ stackPages := by
        rw [Set.mem_union, mem_bitmapPages, mem_stackPages, heapPage]
        omega
      simp only [Set.mem_union, Set.mem_sdiff, Set.mem_singleton_iff] at apart ⊢
      constructor
      · rintro (other | ⟨old, different⟩)
        · exact ⟨.inl other, fun equal => apart (equal ▸ other)⟩
        · exact ⟨.inr old, different⟩
      · rintro ⟨other | old, different⟩
        · exact .inl other
        · exact .inr ⟨old, different⟩
    · rw [index] at within
      exact (within_extend here.within within).trans within_aside
    · intro j
      rw [taken_clear, taken_congr same, here.bits, ne_eq, ← UInt64.toNat_inj, index]
      constructor
      · rintro ⟨other, old, outside⟩
        exact ⟨old, by omega⟩
      · rintro ⟨old, outside⟩
        exact ⟨by omega, old, by omega⟩
    · intro j low high
      by_cases last : j.toNat = a.toNat + k
      · rw [UInt64.toNat_inj.mp (last.trans index.symm)]
        exact set
      · exact here.taken j low (by omega)
    · intro q short
      have moved := tables q short
      rw [here.within.root, here.tables q short] at moved
      exact moved
    · have kept_cursor : mid.last_allocated_index = s.last_allocated_index := by rw [kept.rest]
      exact kept_cursor.trans here.cursor
  · rintro e s' ⟨stopped, rfl, unmapped⟩
    rw [page, mem_occupied small, unchanged] at unmapped
    exact ⟨here, stopped, unmapped⟩

/-- A release of a range of the heap frees its pages, and stops only at a page that was
    not mapped. -/
theorem vmm_free_pages_post (rest : AtRest s₀ sections s) (room : a.toNat + n.toNat ≤ 2 ^ 25) :
    Post (fun r s' => r = 0 ∧ Freeing s₀ sections a s n.toNat s') (fun e s' => ∃ k < n.toNat, Unmet s₀ sections a s k e s')
      (vmm_free_pages (KERNEL_HEAP_START + a * PAGE_SIZE) n s) := by
  have first : (KERNEL_HEAP_START + a * PAGE_SIZE).toNat = KERNEL_HEAP_START.toNat + 4096 * a.toNat :=
    toNat_add_pages (by rw [toNat_KERNEL_HEAP_START]; omega)
  have last : (KERNEL_HEAP_START + a * PAGE_SIZE + n * PAGE_SIZE).toNat =
      KERNEL_HEAP_START.toNat + 4096 * a.toNat + 4096 * n.toNat := by
    rw [toNat_add_pages, first]
    rw [first, toNat_KERNEL_HEAP_START]
    omega
  have accepted : ¬ (KERNEL_HEAP_START + a * PAGE_SIZE < KERNEL_HEAP_START ∨
      KERNEL_HEAP_START + a * PAGE_SIZE + n * PAGE_SIZE > KERNEL_HEAP_START + KERNEL_HEAP_SIZE) := by
    have top : (KERNEL_HEAP_START + KERNEL_HEAP_SIZE).toNat = 0xFFFFC00000000000 + 2 ^ 37 := rfl
    rw [gt_iff_lt, UInt64.lt_iff_toNat_lt, UInt64.lt_iff_toNat_lt, first, last, top, toNat_KERNEL_HEAP_START]
    omega
  have start : (KERNEL_HEAP_START + a * PAGE_SIZE - KERNEL_HEAP_START) / PAGE_SIZE = a := by
    rw [UInt64.add_comm, UInt64.add_sub_cancel]
    apply UInt64.toNat_inj.mp
    rw [UInt64.toNat_div, UInt64.toNat_mul, toNat_PAGE_SIZE]
    omega
  rw [vmm_free_pages, if_neg accepted, start]
  apply post_bind
  refine (post_times (Freeing s₀ sections a s) n.toNat (fun k mid below here => (free_round (by omega) here).mono
    (fun _ _ after => after) (fun _ _ unmet => ⟨k, below, unmet⟩)) n.toNat 0 s (Nat.zero_add _) ?_).mono
    (fun _ _ freeing => ⟨rfl, freeing⟩) (fun _ _ unmet => unmet)
  refine ⟨rest.core, .refl s, ?_, ?_, fun _ _ => rfl, rfl⟩
  · intro j
    have none : ¬ (a.toNat ≤ j.toNat ∧ j.toNat < a.toNat + 0) := by omega
    simp [none]
  · intro j low high
    omega

/-- A release of no pages changes nothing. -/
theorem vmm_free_pages_none (v : UInt64) (s : State) : ∃ r, vmm_free_pages v 0 s = .ok r s := by
  rw [vmm_free_pages]
  split
  · exact ⟨-1, rfl⟩
  · exact ⟨0, rfl⟩

/-- A page-aligned range of the heap starts at a bit. -/
theorem heap_range (aligned : v.toNat % 4096 = 0) (some : n ≠ 0)
    (inside : Set.Ico v.toNat (v.toNat + 4096 * n.toNat) ⊆
      Set.Ico KERNEL_HEAP_START.toNat (KERNEL_HEAP_START.toNat + KERNEL_HEAP_SIZE.toNat)) :
    ∃ a : UInt64, v = KERNEL_HEAP_START + a * PAGE_SIZE ∧ a.toNat + n.toNat ≤ 2 ^ 25 := by
  have nonzero : n.toNat ≠ 0 := fun zero => some (UInt64.toNat_inj.mp zero)
  obtain ⟨low, high⟩ := (Set.Ico_subset_Ico_iff (by omega)).mp inside
  rw [toNat_KERNEL_HEAP_START] at low high
  rw [toNat_KERNEL_HEAP_SIZE] at high
  have index : (UInt64.ofNat ((v.toNat - 0xFFFFC00000000000) / 4096)).toNat = (v.toNat - 0xFFFFC00000000000) / 4096 := by
    rw [UInt64.toNat_ofNat']
    omega
  refine ⟨UInt64.ofNat ((v.toNat - 0xFFFFC00000000000) / 4096), ?_, by omega⟩
  apply UInt64.toNat_inj.mp
  rw [(heap_address (by omega)).1, index, toNat_KERNEL_HEAP_START]
  omega

end

/-! ## Runs -/

theorem pagesFrom_heap {a n : Nat} (room : a + n ≤ 2 ^ 25) : pagesFrom a n ⊆ heapPages := by
  intro m inside
  rw [pagesFrom, Set.mem_Ico, heapPage, heapPage] at inside
  rw [mem_heapPages]
  omega

/-- How a run of calls on the heap can stop: no frame is free, the heap has no gap, or a
    page to free is not mapped. -/
inductive RunStops (s₀ : State) (sections : List Elf64Shdr) : Halt → State → Prop
  | starved {e : Halt} {s : State} (starved : Starved s₀ e s) : RunStops s₀ sections e s
  | exhausted {s : State} (rest : AtRest s₀ sections s) : RunStops s₀ sections (.panic .heapExhausted) s
  | neverMapped {s : State} (addr : UInt64) (rest : AtRest s₀ sections s) :
      RunStops s₀ sections (.panic (.neverMapped addr)) s

section
variable {s₀ s : State} {sections : List Elf64Shdr}

/-- A call on the heap leaves the memory manager at rest and every page outside of the
    heap as it was. -/
theorem call_post (rest : AtRest s₀ sections s) (call : HeapCall) :
    Post (fun _ s' => AtRest s₀ sections s' ∧ Within heapPages s s') (RunStops s₀ sections) (call.run s) := by
  cases call with
  | vmm_alloc_pages n some =>
    apply post_bind
    refine (vmm_alloc_pages_post rest some).mono ?_ ?_
    · rintro v s' ⟨a, _, _, allocated⟩
      exact ⟨allocated.rest, allocated.within.mono (pagesFrom_heap allocated.gap.high)⟩
    · intro e s' stopped
      cases stopped with
      | starved starved => exact .starved starved
      | exhausted => exact .exhausted rest
  | vmm_free_pages v n aligned inside =>
    apply post_bind
    by_cases none : n = 0
    · obtain ⟨r, runs⟩ := vmm_free_pages_none v s
      rw [none, runs]
      exact ⟨rest, .refl s⟩
    · obtain ⟨a, rfl, room⟩ := heap_range aligned none inside
      refine (vmm_free_pages_post rest room).mono ?_ ?_
      · rintro r s' ⟨_, freeing⟩
        exact ⟨freeing.rest rest, freeing.within.mono (pagesFrom_heap room)⟩
      · rintro e s' ⟨k, _, unmet⟩
        rw [unmet.stopped]
        exact .neverMapped _ (unmet.freeing.rest rest)

/-- So does any run of calls on the heap. -/
theorem runs_post (rest : AtRest s₀ sections s) (calls : List HeapCall) :
    Post (fun _ s' => AtRest s₀ sections s' ∧ Within heapPages s s') (RunStops s₀ sections) (runs calls s) := by
  induction calls generalizing s with
  | nil => exact ⟨rest, .refl s⟩
  | cons call others ih =>
    apply post_bind
    refine (call_post rest call).mono ?_ (fun _ _ stops => stops)
    rintro _ mid ⟨restMid, within⟩
    refine (ih restMid).mono ?_ (fun _ _ stops => stops)
    rintro _ s' ⟨restEnd, withinEnd⟩
    exact ⟨restEnd, within.trans withinEnd⟩

end

end Extron.Heap
