import Extron.FreeSet

/-!
Whole runs of the frame allocator. After `init_pmm`, callers take frames and give
back frames that they hold. The clear bits are always the frames that were free at
the start without those that are held, so no frame is ever held twice, and a
release by its holder is always accepted.
-/
namespace Extron.FrameRuns
open Extron.Multiboot Extron.Pmm Extron.InitPmm
set_option linter.unusedSimpArgs false

/-- The runs from `s₀` in which every address that is freed was returned by an
    earlier allocation and not freed since, with the addresses now held. -/
inductive Run (s₀ : State) : List UInt64 → State → Prop
  | start : Run s₀ [] s₀
  | alloc {live : List UInt64} {s s' : State} {a : UInt64} (before : Run s₀ live s)
      (call : pmm_alloc_page s = .ok a s') : Run s₀ (a :: live) s'
  | free {live : List UInt64} {s s' : State} {a : UInt64} (before : Run s₀ live s) (held : a ∈ live)
      (call : pmm_free_page a s = .ok () s') : Run s₀ (live.erase a) s'

/-- A frame that a caller may be given. -/
structure Usable (s₀ : State) (a : UInt64) : Prop where
  aligned : a % PAGE_SIZE = 0
  inside : a.toNat < s₀.total_mem.toNat
  above : 0x100000 ≤ a.toNat
  free : Free s₀ (addr_to_idx a)

/-- The held frames are distinct usable frames, and the clear bits are the frames
    that were free at the start without them. -/
structure Conserves (s₀ : State) (live : List UInt64) (s : State) : Prop where
  total : s.total_mem = s₀.total_mem
  distinct : live.Nodup
  usable : ∀ a ∈ live, Usable s₀ a
  clear : ∀ i, Free s i ↔ Free s₀ i ∧ idx_to_addr i ∉ live

theorem idx_of_frame {total i : UInt64} (managed : i < addr_to_idx total) :
    (idx_to_addr i).toNat = 4096 * i.toNat ∧ 4096 * i.toNat + 4096 ≤ total.toNat := by
  rw [UInt64.lt_iff_toNat_lt, addr_to_idx, UInt64.toNat_div, toNat_PAGE_SIZE] at managed
  have := total.toNat_lt
  rw [idx_to_addr, UInt64.toNat_mul, toNat_PAGE_SIZE]
  omega

theorem addr_to_idx_of_frame {total i : UInt64} (managed : i < addr_to_idx total) : addr_to_idx (idx_to_addr i) = i := by
  obtain ⟨address, _⟩ := idx_of_frame managed
  apply UInt64.toNat_inj.mp
  rw [addr_to_idx, UInt64.toNat_div, address, toNat_PAGE_SIZE]
  omega

theorem idx_to_addr_of_aligned {a : UInt64} (aligned : a % PAGE_SIZE = 0) : idx_to_addr (addr_to_idx a) = a := by
  have whole : a.toNat % 4096 = 0 := by
    simpa using congrArg UInt64.toNat aligned
  have := a.toNat_lt
  apply UInt64.toNat_inj.mp
  rw [idx_to_addr, UInt64.toNat_mul, addr_to_idx, UInt64.toNat_div, toNat_PAGE_SIZE]
  omega

/-- Every free frame of the start is usable: frames below 1 MiB are marked. -/
theorem usable_of_free {s₀ : State} (low : ∀ j : UInt64, j.toNat < 256 → Marked s₀ j) {i : UInt64} (free : Free s₀ i) :
    Usable s₀ (idx_to_addr i) := by
  obtain ⟨address, inside⟩ := idx_of_frame free.1
  have high : 256 ≤ i.toNat := by
    by_contra small
    exact free.2 (low i (by omega))
  refine ⟨?_, by omega, by omega, ?_⟩
  · apply UInt64.toNat_inj.mp
    rw [UInt64.toNat_mod, address, toNat_PAGE_SIZE]
    simp
  · rw [addr_to_idx_of_frame free.1]
    exact free

theorem free_set (s : State) (i j : UInt64) : Free (bitmap_set s i) j ↔ Free s j ∧ j ≠ i := by
  have total : (bitmap_set s i).total_mem = s.total_mem := rfl
  rw [Free, Free, total, marked_set, not_or]
  tauto

theorem free_clear {s : State} {i j : UInt64} (managed : i < addr_to_idx s.total_mem) :
    Free (bitmap_clear s i) j ↔ Free s j ∨ j = i := by
  have total : (bitmap_clear s i).total_mem = s.total_mem := rfl
  rw [Free, Free, total, marked_clear, not_and]
  constructor
  · rintro ⟨inside, clear⟩
    by_cases same : j = i
    · exact .inr same
    · exact .inl ⟨inside, clear same⟩
  · rintro (⟨inside, clear⟩ | rfl)
    · exact ⟨inside, fun _ => clear⟩
    · exact ⟨managed, fun different => absurd rfl different⟩

section
variable {s₀ s s' : State} {live : List UInt64} {a : UInt64}

theorem conserves_alloc (low : ∀ j : UInt64, j.toNat < 256 → Marked s₀ j) (here : Conserves s₀ live s)
    (call : pmm_alloc_page s = .ok a s') : Conserves s₀ (a :: live) s' := by
  rcases pmm_alloc_page_cases s with ⟨i, free, _, runs⟩ | ⟨_, runs⟩
  · rw [runs] at call
    cases call
    obtain ⟨free₀, unheld⟩ := (here.clear i).mp free
    refine ⟨here.total, List.nodup_cons.mpr ⟨unheld, here.distinct⟩, ?_, ?_⟩
    · intro b member
      rcases List.mem_cons.mp member with rfl | old
      · exact usable_of_free low free₀
      · exact here.usable b old
    · intro j
      have sameFrame : Free s₀ j → (idx_to_addr j = idx_to_addr i ↔ j = i) := by
        intro freeJ
        constructor
        · intro same
          have index := congrArg addr_to_idx same
          rwa [addr_to_idx_of_frame freeJ.1, addr_to_idx_of_frame free₀.1] at index
        · rintro rfl
          rfl
      rw [free_set, here.clear j, List.mem_cons, not_or]
      constructor
      · rintro ⟨⟨freeJ, unheldJ⟩, different⟩
        exact ⟨freeJ, fun same => different ((sameFrame freeJ).mp same), unheldJ⟩
      · rintro ⟨freeJ, different, unheldJ⟩
        exact ⟨⟨freeJ, unheldJ⟩, fun same => different ((sameFrame freeJ).mpr same)⟩
  · rw [runs] at call
    cases call

/-- The holder of a frame can always release it. -/
theorem release_accepted (here : Conserves s₀ live s) (held : a ∈ live) :
    pmm_free_page a s = .ok () (bitmap_clear s (addr_to_idx a)) := by
  have usable := here.usable a held
  have marked : Marked s (addr_to_idx a) := by
    by_contra clear
    have managed : addr_to_idx a < addr_to_idx s.total_mem := by
      rw [here.total]
      exact usable.free.1
    have unheld := ((here.clear _).mp ⟨managed, clear⟩).2
    rw [idx_to_addr_of_aligned usable.aligned] at unheld
    exact unheld held
  rcases pmm_free_page_cases s a with ⟨_, _, runs⟩ | ⟨unaligned, _⟩ | ⟨_, clear, _⟩
  · exact runs
  · exact absurd usable.aligned unaligned
  · exact absurd marked clear

theorem conserves_free (here : Conserves s₀ live s) (held : a ∈ live) (call : pmm_free_page a s = .ok () s') :
    Conserves s₀ (live.erase a) s' := by
  rw [release_accepted here held] at call
  cases call
  have usable := here.usable a held
  have managed : addr_to_idx a < addr_to_idx s.total_mem := by
    rw [here.total]
    exact usable.free.1
  refine ⟨here.total, here.distinct.erase a, fun b member => here.usable b (List.mem_of_mem_erase member), ?_⟩
  intro j
  rw [free_clear managed, here.clear j, here.distinct.mem_erase_iff]
  constructor
  · rintro (⟨freeJ, unheld⟩ | rfl)
    · exact ⟨freeJ, fun member => unheld member.2⟩
    · refine ⟨usable.free, ?_⟩
      rw [idx_to_addr_of_aligned usable.aligned]
      exact fun member => member.1 rfl
  · rintro ⟨freeJ, erased⟩
    by_cases same : idx_to_addr j = a
    · rw [← same, addr_to_idx_of_frame freeJ.1]
      exact .inr rfl
    · exact .inl ⟨freeJ, fun member => erased ⟨same, member⟩⟩

theorem conserves_run (low : ∀ j : UInt64, j.toNat < 256 → Marked s₀ j) (run : Run s₀ live s) :
    Conserves s₀ live s := by
  induction run with
  | start => exact ⟨rfl, List.nodup_nil, by simp, by simp⟩
  | alloc _ call ih => exact conserves_alloc low ih call
  | free _ held call ih => exact conserves_free ih held call

end

/-- After `init_pmm`, in every run whose callers free only frames that they hold:
    the held frames are distinct and usable, the clear bits are the initially free
    frames that nobody holds, the next allocation returns the lowest free frame or
    panics exactly when all of them are held, and no release by a holder panics. -/
theorem frame_allocator_safe {image : Image} {mb2_addr : UInt64} {boot s₀ s : State} {live : List UInt64}
    (done : init_pmm image mb2_addr boot = .ok () s₀) (run : Run s₀ live s) :
    Conserves s₀ live s ∧
      (∀ a s', pmm_alloc_page s = .ok a s' → a ∉ live ∧ Usable s₀ a ∧ Free s (addr_to_idx a) ∧
        ∀ j, Free s j → addr_to_idx a ≤ j) ∧
      ((∃ s', pmm_alloc_page s = .error (.panic .outOfMemory) s') ↔ ∀ i, Free s₀ i → idx_to_addr i ∈ live) ∧
      (∀ e s', pmm_alloc_page s = .error e s' → e = .panic .outOfMemory) ∧
      ∀ a ∈ live, ∃ s', pmm_free_page a s = .ok () s' := by
  have low := (init_pmm_accepted done).low
  have here := conserves_run low run
  refine ⟨here, ?_, ?_, ?_, fun a held => ⟨_, release_accepted here held⟩⟩
  · intro a s' call
    have next := conserves_alloc low here call
    rcases pmm_alloc_page_cases s with ⟨i, free, least, runs⟩ | ⟨_, runs⟩
    · rw [runs] at call
      cases call
      rw [addr_to_idx_of_frame free.1]
      exact ⟨(List.nodup_cons.mp next.distinct).1, next.usable _ (by simp), free, least⟩
    · rw [runs] at call
      cases call
  · rcases pmm_alloc_page_cases s with ⟨i, free, _, runs⟩ | ⟨full, runs⟩
    · constructor
      · rintro ⟨s', panics⟩
        rw [runs] at panics
        cases panics
      · intro allHeld
        obtain ⟨free₀, unheld⟩ := (here.clear i).mp free
        exact absurd (allHeld i free₀) unheld
    · constructor
      · intro _ i free₀
        by_contra unheld
        exact full i ((here.clear i).mpr ⟨free₀, unheld⟩)
      · intro _
        exact ⟨s, runs⟩
  · intro e s' call
    rcases pmm_alloc_page_cases s with ⟨i, _, _, runs⟩ | ⟨_, runs⟩
    · rw [runs] at call
      cases call
    · rw [runs] at call
      cases call
      rfl

/-- One allocation after a boot on 32 MiB. -/
theorem frame_allocator_safe_small : ∃ (s₀ s : State) (a : UInt64), Conserves s₀ [a] s ∧
    (∀ b s', pmm_alloc_page s = .ok b s' → b ∉ [a] ∧ Usable s₀ b ∧ Free s (addr_to_idx b) ∧
      ∀ j, Free s j → addr_to_idx b ≤ j) ∧
    ((∃ s', pmm_alloc_page s = .error (.panic .outOfMemory) s') ↔ ∀ i, Free s₀ i → idx_to_addr i ∈ [a]) ∧
    (∀ e s', pmm_alloc_page s = .error e s' → e = .panic .outOfMemory) ∧
    ∀ b ∈ [a], ∃ s', pmm_free_page b s = .ok () s' := by
  obtain ⟨s₀, done, _⟩ := FreeSet.init_pmm_small
  have free := FreeSet.free_small done (i := 0x1000) (by decide) (by decide)
  rcases pmm_alloc_page_cases s₀ with ⟨i, _, _, runs⟩ | ⟨full, _⟩
  · exact ⟨s₀, _, _, frame_allocator_safe done (.alloc .start runs)⟩
  · exact absurd free (full _)

end Extron.FrameRuns
