import Extron.Startup
import Extron.Library.Cache

/-!
The TLB. The processor may at any moment take in a translation that the page tables
of the kernel hold, or drop one; `invlpg` and writes of CR3 flush translations. The
journal of a run is replayed as the stores that the processor sees. A page's word
changes from absent to present without a flush, which leaves nothing stale, and from
present to absent only right before the page is flushed.
-/
namespace Extron.Tlb
open Extron.RadixTree Extron.Multiboot Extron.Format Extron.Pmm Extron.InitPmm Extron.FreeSet Extron.Paging
open Extron.AddressSpace Extron.Accounting Extron.BootJobs Extron.KernelMap Extron.Regions Extron.Vmm
open Extron.OwnPages Extron.Startup Extron.Outcomes Extron.Cache
set_option linter.unusedSimpArgs false

/-! ## The processor -/

/-- A page with the word of its leaf: its frame and flags. -/
structure Translation where
  page : Nat
  word : UInt64
deriving DecidableEq, Repr

/-- The words of all page tables. -/
abbrev Frames := UInt64 → Fin 512 → UInt64

/-- The present word of a page. -/
def leafOf (root : UInt64) (frames : Frames) (n : Nat) : Option UInt64 :=
  (word link frames root (dir n) (slot n)).filter fun w => w &&& PAGE_PRESENT ≠ 0

/-- Bits 48 to 63 of the address repeat bit 47; `invlpg` does nothing at others. -/
def SignExtended (v : UInt64) : Prop := v.toNat < 2 ^ 47 ∨ 2 ^ 64 - 2 ^ 47 ≤ v.toNat

def tlb (root : UInt64) : Device Event Frames Translation where
  holds frames := {t | t.page < 2 ^ 36 ∧ leafOf root frames t.page = some t.word}
  change
    | .store t i w, frames => write frames t i w
    | .zero t, frames => blank frames t 0
    | _, frames => frames
  flush
    | .invlpg v => {t | SignExtended v ∧ t.page = pageOf v}
    | .cr3 _ => Set.univ
    | _ => ∅

/-- What must hold of every translation in the TLB just after an event: once `map_page`
    or `unmap_page` returns, that it is current, and when `vmm_free_pages` frees a frame,
    that no page of the heap still translates to it. -/
def Sound (root : UInt64) : Event → Frames → Translation → Prop
  | .mapped _ _ _, frames, t => leafOf root frames t.page = some t.word
  | .unmapped _ _ _, frames, t => leafOf root frames t.page = some t.word
  | .freeing phys, _, t => t.page ∈ heapPages → t.word &&& PAGE_ADDR_MASK ≠ phys
  | _, _, _ => True

/-! ## Coherence -/

/-- Since `start` the journal has recorded all stores, every event was sound, and the
    TLB is current but for the pages in `stale`. -/
def Coherent (root : UInt64) (start : State) (stale : Set Nat) (s : State) : Prop :=
  ∃ es, s.journal = es ++ start.journal ∧ s.frames = replay (tlb root) start.frames es ∧
    Checked (tlb root) start.frames (Sound root) es ∧
    ∀ t ∈ may (tlb root) start.frames es, t.page < 2 ^ 36 ∧ (t.page ∉ stale → leaf root s t.page = some t.word)

section
variable {root : UInt64} {start s s' : State} {stale now : Set Nat}

theorem coherent_start : Coherent root start ∅ start :=
  ⟨[], rfl, rfl, trivial, fun _ held => ⟨held.1, fun _ => held.2⟩⟩

/-- What one more event has to keep: current translations stay current, those that were
    stale are flushed, and the event is sound. -/
theorem Coherent.event {e : Event} (here : Coherent root start stale s) (journal : s'.journal = e :: s.journal)
    (frames : s'.frames = (tlb root).change e s.frames)
    (kept : ∀ n w, n < 2 ^ 36 → n ∉ now → n ∉ stale → leaf root s n = some w → leaf root s' n = some w)
    (flushed : ∀ t : Translation, t.page ∈ stale → t.page ∉ now → t ∈ (tlb root).flush e)
    (sound : ∀ t : Translation, t.page < 2 ^ 36 → (t.page ∉ now → leaf root s' t.page = some t.word) →
      Sound root e s'.frames t) : Coherent root start now s' := by
  obtain ⟨es, past, memory, checked, current⟩ := here
  have replayed : s'.frames = replay (tlb root) start.frames (e :: es) := by
    rw [frames, memory]
    rfl
  have entries : ∀ t ∈ may (tlb root) start.frames (e :: es),
      t.page < 2 ^ 36 ∧ (t.page ∉ now → leaf root s' t.page = some t.word) := by
    rintro t (⟨old, unflushed⟩ | new)
    · obtain ⟨bound, same⟩ := current t old
      refine ⟨bound, fun outside => ?_⟩
      by_cases was : t.page ∈ stale
      · exact absurd (flushed t was outside) unflushed
      · exact kept _ _ bound outside was (same was)
    · refine ⟨new.1, fun _ => ?_⟩
      have held := new.2
      rw [← memory, ← frames] at held
      exact held
  refine ⟨e :: es, by rw [journal, past]; rfl, replayed, ⟨checked, fun t member => ?_⟩, entries⟩
  rw [← replayed]
  exact sound t (entries t member).1 (entries t member).2

/-- Other parts of the state do not matter. -/
theorem Coherent.congr (here : Coherent root start stale s) (journal : s'.journal = s.journal)
    (frames : s'.frames = s.frames) : Coherent root start stale s' := by
  obtain ⟨es, past, memory, checked, current⟩ := here
  refine ⟨es, by rw [journal, past], by rw [frames, memory], checked, fun t member => ?_⟩
  obtain ⟨bound, same⟩ := current t member
  exact ⟨bound, fun outside => by rw [leaf, frames]; exact same outside⟩

/-- An event that changes no word and flushes nothing. -/
theorem Coherent.report {e : Event} (here : Coherent root start ∅ s) (quiet : (tlb root).change e s.frames = s.frames)
    (sound : ∀ t : Translation, t.page < 2 ^ 36 → leaf root s t.page = some t.word → Sound root e s.frames t) :
    Coherent root start ∅ (recorded e s) :=
  here.event rfl quiet.symm (fun _ _ _ _ _ same => same) (fun _ impossible => absurd impossible (Set.notMem_empty _))
    (fun t bound same => sound t bound (same (Set.notMem_empty _)))

theorem coherent_linked {k t : UInt64} {p : List (Fin 512)} {i : Fin 512} (tree : Tree root s)
    (here : Coherent root start ∅ s) (reached : table root s p = some t) (short : p.length < 3)
    (unlinked : link (s.frames t i) = none) (free : Free s k) : Coherent root start ∅ (linked t i k s) := by
  have zeroed : Coherent root start ∅ (cleared (idx_to_addr k) (bitmap_set s k)) := by
    refine Coherent.event (e := .zero (idx_to_addr k)) here rfl rfl ?_
      (fun _ impossible => absurd impossible (Set.notMem_empty _)) (fun _ _ _ => trivial)
    intro n w _ _ _ same
    exact (leaf_cleared tree free n).trans same
  refine Coherent.event (e := .store t i (tableWord (idx_to_addr k))) zeroed rfl rfl ?_
    (fun _ impossible => absurd impossible (Set.notMem_empty _)) (fun _ _ _ => trivial)
  intro n w _ _ _ same
  rw [leaf_linked tree reached short unlinked free]
  exact (leaf_cleared tree free n).symm.trans same

theorem coherent_growth {path : List (Fin 512)} (tree : Tree root s) (three : path.length = 3)
    (here : Coherent root start ∅ s) (grown : Growth root path s s') : Coherent root start ∅ s' := by
  induction grown with
  | refl => exact here
  | link before along reached unlinked least _ _ ih =>
    exact coherent_linked (tree_growth tree three before) ih reached (short_of_along along three) unlinked least.free

section
variable {n : Nat} {pt w : UInt64} (tree : Tree root s) (here : Coherent root start ∅ s)
  (reached : table root s (dir n) = some pt) (hn : n < 2 ^ 36)
include tree here reached hn

/-- A page that was not mapped is in no TLB. -/
theorem coherent_stored_new (unmapped : leaf root s n = none) : Coherent root start ∅ (stored pt (slot n) w s) := by
  refine Coherent.event (e := .store pt (slot n) w) here rfl rfl ?_
    (fun _ impossible => absurd impossible (Set.notMem_empty _)) (fun _ _ _ => trivial)
  intro m u hm _ _ same
  have other : m ≠ n := by
    rintro rfl
    rw [unmapped] at same
    cases same
  rw [leaf_stored tree reached hn hm, if_neg other]
  exact same

/-- A page that is being unmapped may be stale until it is flushed. -/
theorem coherent_stored_zero : Coherent root start {n} (stored pt (slot n) 0 s) := by
  refine Coherent.event (e := .store pt (slot n) 0) here rfl rfl ?_
    (fun _ impossible => absurd impossible (Set.notMem_empty _)) (fun _ _ _ => trivial)
  intro m u hm outside _ same
  have other : m ≠ n := outside
  rw [leaf_stored tree reached hn hm, if_neg other]
  exact same

omit reached in
theorem coherent_mapped {phys flags : UInt64} {res : Int32} {mid : State} (mapped : Mapped root n phys flags s res mid) :
    Coherent root start ∅ mid := by
  cases mapped with
  | same => exact here
  | other => exact here
  | new grown reached free =>
    exact coherent_stored_new (tree_growth tree rfl grown) (coherent_growth tree rfl here grown) reached hn
      ((leaf_growth tree rfl grown n).trans free)

end

theorem coherent_flushed {v : UInt64} (signExtended : SignExtended v) (here : Coherent root start {pageOf v} s) :
    Coherent root start ∅ (recorded (.invlpg v) s) :=
  here.event rfl rfl (fun _ _ _ _ _ same => same) (fun _ was _ => ⟨signExtended, was⟩) (fun _ _ _ => trivial)

end

/-! ## Steps of the memory manager -/

/-- What every step after `start` keeps: the frames of heap pages are accounted for, and
    the TLB is current. -/
structure Safe (s₀ start s : State) : Prop where
  root : s.kernel_pml4 = start.kernel_pml4
  reach : s.g_hhdm_offset ≠ 0
  ledger : ∃ held, Ledger s₀ start.kernel_pml4 heapPages held s
  coherent : Coherent start.kernel_pml4 start ∅ s

section
variable {s₀ start s s' mid : State} {root : UInt64} {held : Set UInt64} {n : Nat} {phys flags v k : UInt64} {res : Int32}

theorem safe_aside {bits : UInt64 → UInt8} {cursor : UInt64} (safe : Safe s₀ start s) : Safe s₀ start (aside bits cursor s) := by
  obtain ⟨held, ledger⟩ := safe.ledger
  exact ⟨safe.root, safe.reach, ⟨held, ledger_aside ledger⟩, safe.coherent.congr rfl rfl⟩

theorem Safe.tree (safe : Safe s₀ start s) : Tree s.kernel_pml4 s := by
  obtain ⟨_, ledger⟩ := safe.ledger
  rw [safe.root]
  exact ledger.tree

theorem Safe.kept (safe : Safe s₀ start s) (kept : Kept s s') (ledger : Ledger s₀ start.kernel_pml4 heapPages held s')
    (coherent : Coherent start.kernel_pml4 start ∅ s') : Safe s₀ start s' := by
  refine ⟨?_, ?_, ⟨held, ledger⟩, coherent⟩
  · rw [kept.rest]
    exact safe.root
  · rw [kept.rest]
    exact safe.reach

/-- Mapping a page to a frame in hand. -/
theorem ledger_filled (ledger : Ledger s₀ root heapPages held s) (inHand : k ∈ held) (hn : n < 2 ^ 36)
    (mapped : Mapped root n (idx_to_addr k) ownFlags s res mid) : ∃ held', Ledger s₀ root heapPages held' mid := by
  cases mapped with
  | same => exact ⟨held, ledger⟩
  | other => exact ⟨held, ledger⟩
  | new grown reached free =>
    by_cases heap : n ∈ heapPages
    · exact ⟨_, ledger_fill ledger inHand heap free grown reached⟩
    · exact ⟨held, ledger_store_other (ledger_growth ledger rfl grown) reached hn heap⟩

/-- Mapping a page outside of the heap. -/
theorem ledger_mapped (ledger : Ledger s₀ root heapPages held s) (outside : n ∉ heapPages) (hn : n < 2 ^ 36)
    (mapped : Mapped root n phys flags s res mid) : Ledger s₀ root heapPages held mid := by
  cases mapped with
  | same => exact ledger
  | other => exact ledger
  | new grown reached => exact ledger_store_other (ledger_growth ledger rfl grown) reached hn outside

theorem coherent_reported (tree : Tree root s) (here : Coherent root start ∅ s) (hn : n < 2 ^ 36)
    (mapped : Mapped root n phys flags s res mid) (pml4 v : UInt64) :
    Coherent root start ∅ (recorded (.mapped pml4 v res) mid) :=
  (coherent_mapped tree here hn mapped).report rfl (fun _ _ same => same)

theorem preserves_fill_page (v : UInt64) (noFrame : Panic) (notMapped : Option Panic) :
    Preserves (Safe s₀ start) (fill_page v noFrame notMapped) := by
  intro s safe
  obtain ⟨held, ledger⟩ := safe.ledger
  have hn := pageOf_lt v
  have taken : ∀ {k}, Least s k → Ledger s₀ start.kernel_pml4 heapPages (insert k held) (bitmap_set s k) :=
    fun least => ledger_take ledger least.free
  have begun : ∀ {k}, Coherent start.kernel_pml4 start ∅ (bitmap_set s k) := safe.coherent.congr rfl rfl
  have returned : ∀ {k res mid}, Least s k →
      Mapped s.kernel_pml4 (pageOf v) (idx_to_addr k) ownFlags (bitmap_set s k) res mid →
      Kept s (recorded (.mapped s.kernel_pml4 v res) mid) → Safe s₀ start (recorded (.mapped s.kernel_pml4 v res) mid) := by
    intro k res mid least mapped kept
    rw [safe.root] at mapped
    obtain ⟨_, filled⟩ := ledger_filled (taken least) (Set.mem_insert k held) hn mapped
    exact safe.kept kept (ledger_recorded filled) (coherent_reported (taken least).tree begun hn mapped _ _)
  refine ((fill_page_post safe.tree).and (keeps_fill_page v noFrame notMapped s)).mono ?_ ?_
  · rintro _ _ ⟨⟨least, mapped, _⟩, kept⟩
    exact returned least mapped kept
  · rintro e s' ⟨stopped, kept⟩
    cases stopped with
    | noFrame => exact safe
    | @noTable k _ _ least stuck =>
      have reach : (bitmap_set s k).g_hhdm_offset ≠ 0 := safe.reach
      obtain ⟨_, grown, _⟩ := stuck_reached reach stuck
      rw [safe.root] at grown
      exact safe.kept kept (ledger_growth (taken least) rfl grown) (coherent_growth (taken least).tree rfl begun grown)
    | notMapped least mapped => exact returned least mapped kept

theorem preserves_kmap (outside : pageOf v ∉ heapPages) : Preserves (Safe s₀ start) (kmap v phys flags) := by
  intro s safe
  obtain ⟨held, ledger⟩ := safe.ledger
  refine ((map_page_post safe.tree).and (keeps_map_page s.kernel_pml4 v phys flags s)).mono ?_ ?_
  · rintro res _ ⟨⟨mid, mapped, rfl⟩, kept⟩
    rw [safe.root] at mapped
    exact safe.kept kept (ledger_recorded (ledger_mapped ledger outside (pageOf_lt v) mapped))
      (coherent_reported ledger.tree safe.coherent (pageOf_lt v) mapped _ _)
  · rintro e s' ⟨stuck, kept⟩
    obtain ⟨_, grown, _⟩ := stuck_reached safe.reach stuck
    rw [safe.root] at grown
    exact safe.kept kept (ledger_growth ledger rfl grown) (coherent_growth ledger.tree rfl safe.coherent grown)

/-- A page's word is cleared and the page flushed at once. -/
theorem coherent_unmapped {pt : UInt64} (tree : Tree root s) (here : Coherent root start ∅ s)
    (reached : table root s (dir (pageOf v)) = some pt) (signExtended : SignExtended v) (pml4 : UInt64) :
    Coherent root start ∅ (recorded (.unmapped pml4 v 0) (recorded (.invlpg v) (stored pt (slot (pageOf v)) 0 s))) :=
  (coherent_flushed signExtended (coherent_stored_zero tree here reached (pageOf_lt v))).report rfl (fun _ _ same => same)

theorem preserves_kunmap (signExtended : SignExtended v) (outside : pageOf v ∉ heapPages) :
    Preserves (Safe s₀ start) (kunmap v) := by
  intro s safe
  obtain ⟨held, ledger⟩ := safe.ledger
  refine (unmap_page_post safe.tree).mono ?_ (fun _ _ faulted => absurd faulted (faulted_reached safe.reach))
  rintro res _ ⟨mid, unmapped, rfl⟩
  cases unmapped with
  | absent => exact ⟨safe.root, safe.reach, ⟨held, ledger_recorded ledger⟩, safe.coherent.report rfl (fun _ _ same => same)⟩
  | present _ reached =>
    rw [safe.root] at reached
    exact ⟨safe.root, safe.reach,
      ⟨held, ledger_recorded (ledger_recorded (ledger_store_other ledger reached (pageOf_lt v) outside))⟩,
      coherent_unmapped ledger.tree safe.coherent reached signExtended _⟩

/-- No page of the heap has a frame that is in hand. -/
theorem no_page_in_hand {f w : UInt64} (ledger : Ledger s₀ root heapPages held s) (inHand : addr_to_idx f ∈ held)
    (mine : n ∈ heapPages) (here : leaf root s n = some w) : w &&& PAGE_ADDR_MASK ≠ f := by
  intro same
  cases ledger.accounts.single (h := .page n) (o := .hand (addr_to_idx f)) ⟨mine, _, frameOf_of_leaf here, by rw [same]⟩
    ⟨inHand, rfl⟩

/-- When a frame is freed it is in hand, so no page of the heap has it. -/
theorem preserves_free_frame (signExtended : SignExtended v) (heap : pageOf v ∈ heapPages) :
    Preserves (Safe s₀ start) (vmm_free_pages.free_frame v) := by
  intro s safe
  obtain ⟨held, ledger⟩ := safe.ledger
  have owned : Ledger s₀ s.kernel_pml4 heapPages held s := by
    rw [safe.root]
    exact ledger
  rcases free_frame_cases owned safe.reach heap with ⟨w, pt, here, reached, runs⟩ | ⟨_, runs⟩
  · rw [runs]
    have frame : frameOf s.kernel_pml4 s (pageOf v) = some (w &&& PAGE_ADDR_MASK) := frameOf_of_leaf here
    have released := ledger_freed owned heap here reached
    have unmapped := ledger_recorded (e := .unmapped s.kernel_pml4 v 0)
      (ledger_recorded (e := .invlpg v) (ledger_unmap owned reached (pageOf_lt v) heap frame))
    have coherent := safe.coherent
    rw [← safe.root] at coherent
    have current := coherent_unmapped owned.tree coherent reached signExtended s.kernel_pml4
    have freeing := Coherent.report (e := .freeing (w &&& PAGE_ADDR_MASK)) current rfl
      (fun _ _ same mine => no_page_in_hand unmapped (Set.mem_insert _ _) mine same)
    rw [safe.root] at released freeing
    refine ⟨safe.root, safe.reach, ⟨held, ?_⟩, ?_⟩
    · rw [safe.root]
      exact released
    · rw [safe.root]
      exact freeing.congr rfl rfl
  · rw [runs]
    exact safe

end

/-! ## Operations -/

/-- The address lies outside of the heap and of its bitmap. -/
def Elsewhere (v : UInt64) : Prop :=
  ¬ (KERNEL_HEAP_START.toNat ≤ v.toNat ∧ v.toNat < KERNEL_HEAP_START.toNat + KERNEL_HEAP_SIZE.toNat) ∧
    ¬ (VMM_BITMAP_VIRT_START.toNat ≤ v.toNat ∧ v.toNat < VMM_BITMAP_VIRT_START.toNat + KERNEL_HEAP_BITMAP_SIZE.toNat)

/-- The calls that follow `init_paging`, in any order. -/
inductive Operation
  | vmm_init
  | vmm_setup_stack
  | vmm_alloc_pages (n : UInt64)
  | vmm_free_pages (v n : UInt64) (inside : Set.Ico v.toNat (v.toNat + 4096 * n.toNat) ⊆
      Set.Ico KERNEL_HEAP_START.toNat (KERNEL_HEAP_START.toNat + KERNEL_HEAP_SIZE.toNat))
  | kmap (v p flags : UInt64) (signExtended : SignExtended v) (elsewhere : Elsewhere v)
      (present : flags &&& PAGE_PRESENT ≠ 0) (notGlobal : flags &&& PAGE_GLOBAL = 0)
  | kunmap (v : UInt64) (signExtended : SignExtended v) (elsewhere : Elsewhere v)

def Operation.run : Operation → Kernel Unit
  | .vmm_init => Vmm.vmm_init
  | .vmm_setup_stack => do let _ ← Vmm.vmm_setup_stack
  | .vmm_alloc_pages n => do let _ ← Vmm.vmm_alloc_pages n
  | .vmm_free_pages v n _ => do let _ ← Vmm.vmm_free_pages v n
  | .kmap v p flags _ _ _ _ => do let _ ← Paging.kmap v p flags
  | .kunmap v _ _ => do let _ ← Paging.kunmap v

def performs : List Operation → Kernel Unit
  | [] => return
  | operation :: rest => do
    operation.run
    performs rest

section
variable {s₀ start : State} {v n : UInt64}

theorem outside_heap (signExtended : SignExtended v) (elsewhere : Elsewhere v) : pageOf v ∉ heapPages := by
  obtain ⟨outside, _⟩ := elsewhere
  rw [toNat_KERNEL_HEAP_START, toNat_KERNEL_HEAP_SIZE] at outside
  have small := v.toNat_lt
  rw [mem_heapPages, pageOf]
  rcases signExtended with low | high
  · omega
  · omega

theorem preserves_bitmap_set (i : UInt64) : Preserves (Safe s₀ start) (Vmm.bitmap_set i) :=
  preserves_bind (quiet_touch _).preserves fun _ => preserves_modify fun _ safe => safe_aside safe

theorem preserves_bitmap_clear (i : UInt64) : Preserves (Safe s₀ start) (Vmm.bitmap_clear i) :=
  preserves_bind (quiet_touch _).preserves fun _ => preserves_modify fun _ safe => safe_aside safe

theorem preserves_bitmap_test (i : UInt64) : Preserves (Safe s₀ start) (Vmm.bitmap_test i) :=
  preserves_bind (quiet_touch _).preserves fun _ => preserves_bind preserves_get fun _ => preserves_pure _

theorem preserves_for_pages {Inv : State → Prop} {body : UInt64 → Kernel Unit} {stop : UInt64}
    (each : ∀ v, Preserves Inv (body v)) (rounds : Nat) (v : UInt64) : Preserves Inv (for_pages body stop rounds v) := by
  induction rounds generalizing v with
  | zero => exact preserves_throw _
  | succ rounds ih => exact preserves_ite (preserves_bind (each v) fun _ => ih _) (preserves_pure _)

theorem preserves_vmm_init : Preserves (Safe s₀ start) Vmm.vmm_init := by
  refine preserves_bind (preserves_times fun k _ => preserves_fill_page _ _ _) fun _ => preserves_times fun k _ => ?_
  exact preserves_bind (quiet_touch _).preserves fun _ => preserves_modify fun _ safe => safe_aside safe

theorem preserves_vmm_setup_stack : Preserves (Safe s₀ start) Vmm.vmm_setup_stack :=
  preserves_bind (preserves_for_pages (fun _ => preserves_fill_page _ _ _) _ _) fun _ => preserves_pure _

theorem preserves_search (rounds : Nat) (i found first : UInt64) :
    Preserves (Safe s₀ start) (vmm_alloc_pages.search n rounds i found first) := by
  induction rounds generalizing i found first with
  | zero => exact preserves_pure _
  | succ rounds ih =>
    refine preserves_bind (preserves_bitmap_test i) fun _ => ?_
    exact preserves_ite (preserves_ite (preserves_pure _) (ih _ _ _)) (ih _ _ _)

theorem preserves_take (a : UInt64) : Preserves (Safe s₀ start) (vmm_alloc_pages.take n a) := by
  refine preserves_bind (preserves_times fun k _ => ?_) fun _ => ?_
  · exact preserves_bind (preserves_fill_page _ _ _) fun _ => preserves_bitmap_set _
  · exact preserves_bind (preserves_modify fun _ safe => safe_aside safe) fun _ => preserves_pure _

theorem preserves_vmm_alloc_pages (n : UInt64) : Preserves (Safe s₀ start) (Vmm.vmm_alloc_pages n) := by
  refine preserves_bind preserves_get fun _ => preserves_bind (preserves_search _ _ _ _) fun first => ?_
  cases first with
  | some a => exact preserves_take a
  | none =>
    refine preserves_bind (preserves_search _ _ _ _) fun second => ?_
    cases second with
    | some a => exact preserves_take a
    | none => exact preserves_throw _

theorem preserves_vmm_free_pages (inside : Set.Ico v.toNat (v.toNat + 4096 * n.toNat) ⊆
    Set.Ico KERNEL_HEAP_START.toNat (KERNEL_HEAP_START.toNat + KERNEL_HEAP_SIZE.toNat)) :
    Preserves (Safe s₀ start) (Vmm.vmm_free_pages v n) := by
  refine preserves_ite (preserves_pure _) ?_
  refine preserves_bind (preserves_times fun k below => ?_) fun _ => preserves_pure _
  obtain ⟨low, high⟩ := (Set.Ico_subset_Ico_iff (by omega)).mp inside
  rw [toNat_KERNEL_HEAP_START] at low high
  rw [toNat_KERNEL_HEAP_SIZE] at high
  have index : (UInt64.ofNat k).toNat = k := by
    rw [UInt64.toNat_ofNat']
    omega
  have address : (v + UInt64.ofNat k * PAGE_SIZE).toNat = v.toNat + 4096 * k := by
    rw [toNat_add_pages]
    · rw [index]
    · omega
  have heap : pageOf (v + UInt64.ofNat k * PAGE_SIZE) ∈ heapPages := by
    rw [mem_heapPages, pageOf, address]
    omega
  refine preserves_bind (preserves_free_frame (.inr ?_) heap) fun _ => preserves_bitmap_clear _
  omega

theorem preserves_operation (operation : Operation) : Preserves (Safe s₀ start) operation.run := by
  cases operation with
  | vmm_init => exact preserves_vmm_init
  | vmm_setup_stack => exact preserves_bind preserves_vmm_setup_stack fun _ => preserves_pure _
  | vmm_alloc_pages n => exact preserves_bind (preserves_vmm_alloc_pages n) fun _ => preserves_pure _
  | vmm_free_pages v n inside => exact preserves_bind (preserves_vmm_free_pages inside) fun _ => preserves_pure _
  | kmap v p flags signExtended elsewhere =>
    exact preserves_bind (preserves_kmap (outside_heap signExtended elsewhere)) fun _ => preserves_pure _
  | kunmap v signExtended elsewhere =>
    exact preserves_bind (preserves_kunmap signExtended (outside_heap signExtended elsewhere)) fun _ => preserves_pure _

theorem preserves_performs (operations : List Operation) : Preserves (Safe s₀ start) (performs operations) := by
  induction operations with
  | nil => exact preserves_pure _
  | cons operation rest ih => exact preserves_bind (preserves_operation operation) fun _ => ih

end

/-! ## Runs -/

/-- What a run of the kernel from `start` to `s` shows to a processor whose TLB is empty
    at the start: the journal has every store, and every event is sound, whatever the TLB
    took in or dropped in between. -/
structure NoStale (start s : State) : Prop where
  root : s.kernel_pml4 = start.kernel_pml4
  sound : ∃ es, s.journal = es ++ start.journal ∧ s.frames = replay (tlb start.kernel_pml4) start.frames es ∧
    ∀ later e earlier p, es = later ++ e :: earlier → Run (tlb start.kernel_pml4) ⟨start.frames, ∅⟩ (e :: earlier) p →
      ∀ t ∈ p.cache, Sound start.kernel_pml4 e p.memory t

theorem safe_start {s₀ start : State} {sections : List Elf64Shdr} (paged : Paged s₀ sections heapPages start) :
    Safe s₀ start start := by
  refine ⟨rfl, ?_, ⟨∅, paged.ledger⟩, coherent_start⟩
  rw [paged.offset]
  decide

theorem noStale_of_safe {s₀ start s : State} (safe : Safe s₀ start s) : NoStale start s := by
  obtain ⟨es, journal, frames, checked, _⟩ := safe.coherent
  refine ⟨safe.root, es, journal, frames, ?_⟩
  rintro later e earlier p rfl run
  exact checked.always run

end Extron.Tlb
