import Extron.AddressSpace
import Extron.Vmm

/-!
The bounds check of `vmm_free_pages` for any two words. Product and sum are taken in
64 bits, so a range that runs past the end of the address space can pass the check;
then pages outside the heap are unmapped and freed. Everywhere else the check is
sound (`free_bounds_iff`).
-/
namespace Extron.FreeBounds
open Extron.Pmm Extron.Paging Extron.AddressSpace Extron.Vmm Extron.Outcomes
set_option linter.unusedSimpArgs false

/-- The range lies in the heap, over the integers. -/
def InBounds (v n : UInt64) : Prop :=
  KERNEL_HEAP_START.toNat ≤ v.toNat ∧ v.toNat + n.toNat * 4096 ≤ KERNEL_HEAP_START.toNat + KERNEL_HEAP_SIZE.toNat

instance (v n : UInt64) : Decidable (InBounds v n) := inferInstanceAs (Decidable (_ ∧ _))

/-- The end of the range exceeds the end of the heap, and its remainder modulo
    `2 ^ 64` does not. -/
def WrapsInto (v n : UInt64) : Prop :=
  KERNEL_HEAP_START.toNat ≤ v.toNat ∧ KERNEL_HEAP_START.toNat + KERNEL_HEAP_SIZE.toNat < v.toNat + n.toNat * 4096 ∧
    (v.toNat + n.toNat * 4096) % 2 ^ 64 ≤ KERNEL_HEAP_START.toNat + KERNEL_HEAP_SIZE.toNat

def InHeap (addr : UInt64) : Prop :=
  KERNEL_HEAP_START.toNat ≤ addr.toNat ∧ addr.toNat < KERNEL_HEAP_START.toNat + KERNEL_HEAP_SIZE.toNat

/-- The bits of the heap bitmap. -/
def heapBits : Nat := KERNEL_HEAP_SIZE.toNat / 4096

/-- The rounds of a call before round `k`. -/
def rounds (v : UInt64) (k : Nat) : Kernel Unit :=
  times (vmm_free_pages.free_page v ((v - KERNEL_HEAP_START) / PAGE_SIZE)) 0 k

/-- The frame is what a heap page of the call translates to when its turn comes. -/
def Translated (v n : UInt64) (s : State) (p : UInt64) : Prop :=
  ∃ k < n.toNat, InHeap (v + UInt64.ofNat k * PAGE_SIZE) ∧
    ∃ mid, rounds v k s = .ok () mid ∧ kvirt_to_phys (v + UInt64.ofNat k * PAGE_SIZE) mid = .ok p mid

/-- Pages are unmapped and frames freed only in the heap. -/
def HeapOnly (v n : UInt64) (s : State) : Event → Prop
  | .unmapped _ virt _ => InHeap virt
  | .invlpg virt => InHeap virt
  | .store _ _ word => word = 0
  | .freeing p => Translated v n s p
  | _ => False

/-- What a call that starts in `s` leaves alone. -/
structure Confined (v n : UInt64) (s s' : State) : Prop where
  bits : ∀ i, heapBits ≤ i.toNat → (Taken s' i ↔ Taken s i)
  events : ∃ new, s'.journal = new ++ s.journal ∧ ∀ e ∈ new, HeapOnly v n s e

/-- The check is sound for these arguments. -/
structure Guarded (v n : UInt64) (s : State) : Prop where
  /-- A range that is not in the heap is refused, and nothing changes. -/
  refused : ¬ InBounds v n → vmm_free_pages v n s = .ok (-1) s
  /-- Nothing outside of the heap is unmapped, freed or cleared. -/
  confined : Confined v n s (final (vmm_free_pages v n s))

/-! ## The check -/

theorem sum_toNat (v n : UInt64) : (v + n * PAGE_SIZE).toNat = (v.toNat + n.toNat * 4096) % 2 ^ 64 := by
  simp only [UInt64.toNat_add, UInt64.toNat_mul, toNat_PAGE_SIZE]
  omega

theorem heap_end_toNat : (KERNEL_HEAP_START + KERNEL_HEAP_SIZE).toNat =
    KERNEL_HEAP_START.toNat + KERNEL_HEAP_SIZE.toNat := rfl

/-- The check refuses a range exactly if it is not in the heap and does not wrap into it. -/
theorem check_iff (v n : UInt64) :
    (v < KERNEL_HEAP_START ∨ v + n * PAGE_SIZE > KERNEL_HEAP_START + KERNEL_HEAP_SIZE) ↔
      ¬ InBounds v n ∧ ¬ WrapsInto v n := by
  rw [gt_iff_lt, UInt64.lt_iff_toNat_lt, UInt64.lt_iff_toNat_lt, sum_toNat, heap_end_toNat, InBounds, WrapsInto,
    toNat_KERNEL_HEAP_START, toNat_KERNEL_HEAP_SIZE]
  have := v.toNat_lt
  omega

theorem refused_of_check {v n : UInt64} (s : State)
    (check : v < KERNEL_HEAP_START ∨ v + n * PAGE_SIZE > KERNEL_HEAP_START + KERNEL_HEAP_SIZE) :
    vmm_free_pages v n s = .ok (-1) s := by
  rw [vmm_free_pages, if_pos check]
  rfl

/-- A range that passes the check is not refused. -/
theorem accepted_of_check {v n : UInt64} (s : State)
    (check : ¬ (v < KERNEL_HEAP_START ∨ v + n * PAGE_SIZE > KERNEL_HEAP_START + KERNEL_HEAP_SIZE)) :
    vmm_free_pages v n s = (rounds v n.toNat >>= fun _ => pure 0) s := by
  rw [vmm_free_pages, if_neg check]
  rfl

/-! ## What a round changes -/

section
variable {v n : UInt64} {s : State}

theorem confined_refl (v n : UInt64) (s : State) : Confined v n s s :=
  ⟨fun _ _ => Iff.rfl, [], rfl, fun _ none => absurd none List.not_mem_nil⟩

theorem Confined.quiet {t t' : State} (here : Confined v n s t) (bitmap : t'.vmm_bitmap = t.vmm_bitmap)
    (journal : t'.journal = t.journal) : Confined v n s t' := by
  refine ⟨fun i high => ?_, ?_⟩
  · rw [← here.bits i high, Taken, bitmap]
    rfl
  · rw [journal]
    exact here.events

theorem confined_record {e : Event} (allowed : HeapOnly v n s e) : Preserves (Confined v n s) (record e) := by
  rintro t ⟨bits, new, journal, only⟩
  refine ⟨bits, e :: new, ?_, ?_⟩
  · show e :: t.journal = e :: new ++ s.journal
    rw [journal]
    rfl
  · intro e' member
    rcases List.mem_cons.mp member with rfl | before
    · exact allowed
    · exact only e' before

theorem confined_store_zero (t : UInt64) (i : Fin 512) : Preserves (Confined v n s) (store t i 0) :=
  preserves_bind (quiet_deref t).preserves fun _ =>
    preserves_bind (preserves_modify fun _ here => here.quiet rfl rfl) fun _ => confined_record rfl

theorem confined_kunmap {virt : UInt64} (inside : InHeap virt) : Preserves (Confined v n s) (kunmap virt) :=
  preserves_bind preserves_get fun _ => preserves_bind
    (preserves_bind (quiet_find_table _ _).preserves fun _ => preserves_ite (preserves_pure _)
      (preserves_bind (quiet_load _ _).preserves fun _ => preserves_ite (preserves_pure _)
        (preserves_bind (confined_store_zero _ _) fun _ =>
          preserves_bind (confined_record inside) fun _ => preserves_pure _)))
    fun _ => preserves_bind (confined_record inside) fun _ => preserves_pure _

theorem confined_pmm_free_page (p : UInt64) : Preserves (Confined v n s) (pmm_free_page p) := by
  intro t here
  rcases pmm_free_page_cases t p with ⟨_, _, ran⟩ | ⟨_, ran⟩ | ⟨_, _, ran⟩
  · rw [ran]
    exact here.quiet rfl rfl
  · rw [ran]
    exact here
  · rw [ran]
    exact here

theorem confined_bitmap_clear {i : UInt64} (inside : i.toNat < heapBits) :
    Preserves (Confined v n s) (Vmm.bitmap_clear i) := by
  refine preserves_bind (quiet_touch _).preserves fun _ => preserves_modify fun t here => ⟨fun j high => ?_, here.events⟩
  have different : j ≠ i := by
    rintro rfl
    omega
  show Taken (untaken i t) j ↔ _
  rw [taken_clear, here.bits j high]
  simp [different]

/-- The pages of a range in the heap, and their bits. -/
theorem page_inside (inside : InBounds v n) {k : Nat} (below : k < n.toNat) :
    InHeap (v + UInt64.ofNat k * PAGE_SIZE) ∧
      ((v - KERNEL_HEAP_START) / PAGE_SIZE + UInt64.ofNat k).toNat < heapBits := by
  have small := n.toNat_lt
  obtain ⟨low, high⟩ := inside
  simp only [toNat_KERNEL_HEAP_START, toNat_KERNEL_HEAP_SIZE] at low high
  have word : (UInt64.ofNat k).toNat = k := UInt64.toNat_ofNat_of_lt' (by rw [UInt64.size]; omega)
  have offset : (v - KERNEL_HEAP_START).toNat = v.toNat - KERNEL_HEAP_START.toNat :=
    UInt64.toNat_sub_of_le _ _ (UInt64.le_iff_toNat_le.mpr low)
  constructor
  · rw [InHeap, sum_toNat, word, toNat_KERNEL_HEAP_START, toNat_KERNEL_HEAP_SIZE]
    omega
  · rw [UInt64.toNat_add, UInt64.toNat_div, offset, word, heapBits, toNat_KERNEL_HEAP_START, toNat_KERNEL_HEAP_SIZE,
      toNat_PAGE_SIZE]
    omega

/-- One round stays in the heap. -/
theorem confined_round (inside : InBounds v n) {k : Nat} (below : k < n.toNat) {mid : State}
    (before : rounds v k s = .ok () mid) (here : Confined v n s mid) :
    Post (fun _ => Confined v n s) (fun _ => Confined v n s)
      (vmm_free_pages.free_page v ((v - KERNEL_HEAP_START) / PAGE_SIZE) k mid) := by
  obtain ⟨page, bit⟩ := page_inside inside below
  have released : Post (fun _ => Confined v n s) (fun _ => Confined v n s)
      (vmm_free_pages.free_frame (v + UInt64.ofNat k * PAGE_SIZE) mid) := by
    rw [vmm_free_pages.free_frame]
    have same := quiet_kvirt_to_phys (v + UInt64.ofNat k * PAGE_SIZE) mid mid rfl
    cases looked : kvirt_to_phys (v + UInt64.ofNat k * PAGE_SIZE) mid with
    | ok p after =>
      have unchanged := same.of_ok looked
      subst unchanged
      rw [bind_ok looked]
      by_cases mapped : p = 0
      · rw [if_neg (not_not.mpr mapped)]
        exact here
      · rw [if_pos mapped]
        have freed : HeapOnly v n s (.freeing p) := ⟨k, below, page, after, before, looked⟩
        exact preserves_bind (confined_kunmap page) (fun _ => preserves_bind (confined_record freed) fun _ =>
          confined_pmm_free_page p) after here
    | error e after =>
      have unchanged := same.of_error looked
      subst unchanged
      rw [bind_error looked]
      exact here
  apply post_bind
  exact released.mono (fun _ after kept => confined_bitmap_clear bit after kept) (fun _ _ kept => kept)

theorem confined_rounds (inside : InBounds v n) :
    Post (fun _ => Confined v n s) (fun _ => Confined v n s) (rounds v n.toNat s) := by
  have swept : Post (fun _ t => rounds v n.toNat s = .ok () t ∧ Confined v n s t) (fun _ => Confined v n s)
      (rounds v n.toNat s) := by
    apply post_times (fun k t => rounds v k s = .ok () t ∧ Confined v n s t) n.toNat ?_ n.toNat 0 s (Nat.zero_add _)
      ⟨rfl, confined_refl v n s⟩
    rintro k mid below ⟨before, here⟩
    have round := confined_round inside below before here
    have step : rounds v (k + 1) s = vmm_free_pages.free_page v ((v - KERNEL_HEAP_START) / PAGE_SIZE) k mid := by
      have last := times_succ_last (vmm_free_pages.free_page v ((v - KERNEL_HEAP_START) / PAGE_SIZE)) k 0 s
      rw [Nat.zero_add] at last
      exact last.trans (bind_ok before)
    cases ran : vmm_free_pages.free_page v ((v - KERNEL_HEAP_START) / PAGE_SIZE) k mid with
    | ok _ after => exact ⟨step.trans ran, round.of_ok ran⟩
    | error e after => exact round.of_error ran
  exact swept.mono (fun _ _ ended => ended.2) (fun _ _ stopped => stopped)

end

/-- For any arguments and any state the check is sound exactly if the range does not
    wrap around the address space into the heap or below it. -/
theorem free_bounds_iff (v n : UInt64) (s : State) : Guarded v n s ↔ ¬ WrapsInto v n := by
  constructor
  · rintro ⟨refused, _⟩ wraps
    have out : ¬ InBounds v n := fun inside => absurd inside.2 (Nat.not_le_of_lt wraps.2.1)
    have accepted := accepted_of_check s fun check => ((check_iff v n).mp check).2 wraps
    rw [refused out] at accepted
    obtain ⟨_, _, _, ended⟩ := bind_eq_ok.mp accepted.symm
    cases ended
  · intro fits
    by_cases inside : InBounds v n
    · refine ⟨fun out => absurd inside out, ?_⟩
      have accepted := accepted_of_check s fun check => ((check_iff v n).mp check).1 inside
      have swept := confined_rounds (s := s) inside
      rw [accepted]
      cases ran : rounds v n.toNat s with
      | ok _ after =>
        rw [bind_ok ran]
        exact swept.of_ok ran
      | error e after =>
        rw [bind_error ran]
        exact swept.of_error ran
    · have refused := refused_of_check s ((check_iff v n).mpr ⟨inside, fits⟩)
      refine ⟨fun _ => refused, ?_⟩
      rw [refused]
      exact confined_refl v n s

/-- The first page of the kernel image is mapped where the kernel maps it. -/
def imagePage : State := machine (fun _ => 0xFF) fun t i =>
  if t = 0x1000 ∧ i = 511 then 0x2000 ||| PAGE_PRESENT
  else if t = 0x2000 ∧ i = 510 then 0x3000 ||| PAGE_PRESENT
  else if t = 0x3000 ∧ i = 0 then 0x4000 ||| PAGE_PRESENT
  else if t = 0x4000 ∧ i = 256 then 0x100000 ||| PAGE_PRESENT
  else 0

/-- A range from the kernel image to the end of the address space has the end 0. The
    page of the image is unmapped and its frame freed. -/
theorem image_page_freed :
    (final (vmm_free_pages (KERNEL_VMA + 0x100000) 0x7FF00 imagePage)).journal =
        [.freeing 0x100000, .unmapped 0x1000 (KERNEL_VMA + 0x100000) 0, .invlpg (KERNEL_VMA + 0x100000),
          .store 0x4000 256 0] ∧
      ¬ Guarded (KERNEL_VMA + 0x100000) 0x7FF00 imagePage := by
  have journal : (final (vmm_free_pages (KERNEL_VMA + 0x100000) 0x7FF00 imagePage)).journal =
      [.freeing 0x100000, .unmapped 0x1000 (KERNEL_VMA + 0x100000) 0, .invlpg (KERNEL_VMA + 0x100000),
        .store 0x4000 256 0] := by decide +kernel
  refine ⟨journal, fun guarded => ?_⟩
  rw [guarded.refused (by decide)] at journal
  cases journal

end Extron.FreeBounds
