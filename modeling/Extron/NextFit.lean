import Extron.Heap
import Extron.Supply

/-!
`vmm_alloc_pages` as next fit, for any heap bitmap whose clear bits stand for unmapped
pages. The call takes the lowest gap at or after the cursor, else the lowest gap before
it, and touches nothing but the bits and the pages of that gap; it stops without a
change when there is no such gap, and for want of frames only when fewer were free than
the pages and their missing tables need.
-/
namespace Extron.NextFit
open Extron.RadixTree Extron.Multiboot Extron.Format Extron.Pmm Extron.InitPmm Extron.FreeSet Extron.Paging
open Extron.AddressSpace Extron.Accounting Extron.BootJobs Extron.KernelMap Extron.Regions Extron.Vmm Extron.OwnPages
open Extron.Startup Extron.Heap Extron.Supply Extron.Outcomes
set_option linter.unusedSimpArgs false

/-- The page tables are a tree within reach that maps the heap bitmap, and a clear bit
    means an unmapped page. Set bits may be any. -/
structure Ready (s : State) : Prop where
  tree : Tree s.kernel_pml4 s
  reach : s.g_hhdm_offset ≠ 0
  bitmap : ∀ n ∈ bitmapPages, (leaf s.kernel_pml4 s n).isSome
  clear : ∀ i : UInt64, i.toNat < 2 ^ 25 → ¬ Taken s i → leaf s.kernel_pml4 s (heapPage i.toNat) = none
  cursor : s.last_allocated_index.toNat ≤ 2 ^ 25

/-- The paths below the root of the tables on the way to the pages of the bits from `a` on. -/
def gapPaths (a n : Nat) : Finset (List (Fin 512)) :=
  (Finset.Ico a (a + n)).biUnion fun j => {(dir (heapPage j)).take 1, (dir (heapPage j)).take 2, dir (heapPage j)}

/-- The frames that an allocation of `n` pages at bit `a` takes: one for each page and
    one for each table that is missing. -/
def framesNeeded (s : State) (n a : Nat) : Nat := n + (missingTables (gapPaths a n) s.kernel_pml4 s).card

theorem gapPaths_eq (a n : Nat) : gapPaths a n = pathsTo ((Finset.Ico a (a + n)).image heapPage) := by
  rw [pathsTo, Finset.image_biUnion, gapPaths]

theorem mem_gapPaths {a n : Nat} {q : List (Fin 512)} :
    q ∈ gapPaths a n ↔ q ≠ [] ∧ ∃ j, (a ≤ j ∧ j < a + n) ∧ q <+: dir (heapPage j) := by
  simp only [gapPaths_eq, mem_pathsTo, Finset.mem_image, Finset.mem_Ico, exists_exists_and_eq_and]

theorem short_gapPaths {a n : Nat} : ∀ q ∈ gapPaths a n, q.length ≤ 3 := by
  rw [gapPaths_eq]
  exact short_pathsTo

theorem Ready.touchable {s : State} (ready : Ready s) : Touchable s := by
  intro k inside
  rw [touch, if_pos (ready.bitmap _ (byte_address inside))]

/-- The loop that maps the pages of the bits from `a` on, after `k` rounds. -/
structure Placing (start : State) (n a : UInt64) (k : Nat) (s : State) : Prop where
  tree : Tree start.kernel_pml4 s
  reach : s.g_hhdm_offset ≠ 0
  within : Within (pagesFrom a.toNat k) start s
  mapped : ∀ j < k, (leaf start.kernel_pml4 s (heapPage (a.toNat + j))).isSome
  bits : ∀ j : UInt64, Taken s j ↔ Taken start j ∨ a.toNat ≤ j.toNat ∧ j.toNat < a.toNat + k
  supply : supply (gapPaths a.toNat n.toNat) start.kernel_pml4 s + k =
    supply (gapPaths a.toNat n.toNat) start.kernel_pml4 start

/-- An allocation of `n` pages at bit `a` ran out of frames. -/
def OutOfFrames (s : State) (n a : UInt64) (e : Halt) : Prop :=
  e = .panic .outOfMemory ∧ (freeFrames s).card < framesNeeded s n.toNat a.toNat

section
variable {start s s' : State} {n a : UInt64}

theorem tree_aside {root cursor : UInt64} {bits : UInt64 → UInt8} (tree : Tree root s) : Tree root (aside bits cursor s) :=
  ⟨⟨tree.aligned, tree.memory, tree.unshared, tree.used, tree.flat, tree.zeroTaken⟩, tree.nonzero⟩

theorem tree_placed {v : UInt64} (tree : Tree s.kernel_pml4 s) (placed : Placed v s s') : Tree s.kernel_pml4 s' := by
  cases placed with
  | @intro k _ _ _ grown reached =>
    exact tree_recorded (tree_stored (tree_growth (tree_set tree k) rfl grown) reached)

theorem heapPage_lt {i : Nat} (inside : i < 2 ^ 25) : heapPage i < 2 ^ 36 := by
  rw [heapPage]
  omega

/-- A page outside the heap is none of the pages of the gap. -/
theorem off_gap {m k : Nat} (room : a.toNat + k ≤ 2 ^ 25) (other : m ∉ heapPages) : m ∉ pagesFrom a.toNat k :=
  fun inside => other (pagesFrom_heap room inside)

theorem bitmap_not_heap {m : Nat} (bitmap : m ∈ bitmapPages) : m ∉ heapPages := by
  rw [mem_bitmapPages] at bitmap
  rw [mem_heapPages]
  omega

/-- A loop that runs out of frames started with too few. -/
theorem out_of_frames {k : Nat} (few : k < n.toNat) (here : Placing start n a k s)
    (short : supply (gapPaths a.toNat n.toNat) start.kernel_pml4 s ≤ (gapPaths a.toNat n.toNat).card) :
    (freeFrames start).card < framesNeeded start n.toNat a.toNat := by
  have total := here.supply
  have split := card_present_add_missing (gapPaths a.toNat n.toNat) start.kernel_pml4 start
  have before : supply (gapPaths a.toNat n.toNat) start.kernel_pml4 start =
      (freeFrames start).card + (presentTables (gapPaths a.toNat n.toNat) start.kernel_pml4 start).card := rfl
  rw [framesNeeded]
  omega

theorem place_round {k : Nat} (ready : Ready start) (few : k < n.toNat) (high : a.toNat + n.toNat ≤ 2 ^ 25)
    (clear : ∀ j : UInt64, j.toNat = a.toNat + k → ¬ Taken start j) (here : Placing start n a k s) :
    Post (fun _ => Placing start n a (k + 1)) (fun e _ => OutOfFrames start n a e)
      (vmm_alloc_pages.take_page a k s) := by
  have index := toNat_offset (a := a) (k := k) (by omega)
  have small : (a + UInt64.ofNat k).toNat < 2 ^ 25 := by omega
  have page := (heap_address small).2
  have root := here.within.root
  have tree : Tree s.kernel_pml4 s := root ▸ here.tree
  have fresh : heapPage (a + UInt64.ofNat k).toNat ∉ pagesFrom a.toNat k := by
    rw [index, pagesFrom, Set.mem_Ico]
    simp only [heapPage]
    omega
  have unmapped : leaf s.kernel_pml4 s (heapPage (a + UInt64.ofNat k).toNat) = none := by
    rw [root, here.within.leaves _ (heapPage_lt small) fresh]
    exact ready.clear _ small (clear _ index)
  have along : ∀ q, q ≠ [] → q <+: dir (heapPage (a + UInt64.ofNat k).toNat) → q ∈ gapPaths a.toNat n.toNat := by
    intro q nonempty along
    rw [index] at along
    exact mem_gapPaths.mpr ⟨nonempty, _, by omega, along⟩
  rw [vmm_alloc_pages.take_page]
  rw [← page] at unmapped along
  apply post_bind
  refine (fill_unmapped tree here.reach unmapped).mono ?_ ?_
  · rintro _ mid ⟨placed, kept⟩
    have within := within_placed tree kept placed
    have spent := supply_placed short_gapPaths along tree placed
    obtain ⟨w, new⟩ := leaf_placed tree placed
    rw [page, index] at within new
    rw [root] at spent new
    have midRoot : mid.kernel_pml4 = start.kernel_pml4 := within.root.trans root
    have same : mid.vmm_bitmap = s.vmm_bitmap := by rw [kept.rest]
    have whole := within_extend here.within within
    have readable : Touchable mid := by
      intro byte inside
      have bitmap := byte_address inside
      have still := whole.leaves _ (pageOf_lt _) (off_gap (by omega) (bitmap_not_heap bitmap))
      rw [touch, midRoot, still, if_pos (ready.bitmap _ bitmap)]
    rw [bitmap_set_ok readable small]
    refine ⟨tree_aside (root ▸ tree_placed tree placed), ?_, whole.trans within_aside, ?_, taken_extend same here.bits index, ?_⟩
    · have offset : mid.g_hhdm_offset = s.g_hhdm_offset := by rw [kept.rest]
      rw [taken, Vmm.setByte, offset]
      exact here.reach
    · intro j below
      show (leaf start.kernel_pml4 mid (heapPage (a.toNat + j))).isSome
      by_cases last : j = k
      · rw [last, new]
        rfl
      · have other : heapPage (a.toNat + j) ∉ ({heapPage (a.toNat + k)} : Set Nat) := by
          rw [Set.mem_singleton_iff, heapPage, heapPage]
          omega
        have old := within.leaves _ (heapPage_lt (by omega)) other
        rw [root] at old
        rw [old]
        exact here.mapped j (by omega)
    · have total := here.supply
      show supply _ _ mid + (k + 1) = _
      omega
  · rintro e s' ⟨rfl, short⟩
    have spent := supply_short short_gapPaths along tree short
    rw [root] at spent
    exact ⟨rfl, out_of_frames few here spent⟩

/-- What an allocation of `n` pages at bit `a` changes. -/
structure Exactly (s : State) (n a : UInt64) (s' : State) : Prop where
  /-- The bits of the gap are set, and no other bit changes. -/
  bits : ∀ j : UInt64, Taken s' j ↔ Taken s j ∨ a.toNat ≤ j.toNat ∧ j.toNat < a.toNat + n.toNat
  /-- The pages of the gap were unmapped and are mapped. -/
  mapped : ∀ j < n.toNat, leaf s.kernel_pml4 s (heapPage (a.toNat + j)) = none ∧
    (leaf s'.kernel_pml4 s' (heapPage (a.toNat + j))).isSome
  /-- Every other page keeps its word. -/
  others : ∀ m < 2 ^ 36, (∀ j < n.toNat, m ≠ heapPage (a.toNat + j)) → leaf s'.kernel_pml4 s' m = leaf s.kernel_pml4 s m
  cursor : s'.last_allocated_index = a + n ∧ a.toNat + n.toNat ≤ 2 ^ 25

theorem place_post (ready : Ready s) (gap : Gap s n.toNat 0 (2 ^ 25) a.toNat) :
    Post (fun v s' => v = KERNEL_HEAP_START + a * PAGE_SIZE ∧ Exactly s n a s') (fun e _ => OutOfFrames s n a e)
      (vmm_alloc_pages.take n a s) := by
  have high := gap.high
  rw [vmm_alloc_pages.take]
  apply post_bind
  refine (post_times (Placing s n a) n.toNat (fun k mid below here => place_round ready below high ?_ here) n.toNat 0 s
    (Nat.zero_add _) ?_).mono ?_ (fun _ _ short => short)
  · intro j index
    exact gap.clear j (by omega) (by omega)
  · refine ⟨ready.tree, ready.reach, .refl s, by simp, ?_, rfl⟩
    intro j
    have none : ¬ (a.toNat ≤ j.toNat ∧ j.toNat < a.toNat + 0) := by omega
    simp [none]
  · rintro _ mid ⟨_, _, within, mapped, bits, _⟩
    refine ⟨rfl, bits, ?_, ?_, rfl, high⟩
    · intro j below
      have index := toNat_offset (a := a) (k := j) (by omega)
      have before := ready.clear (a + UInt64.ofNat j) (by omega) (gap.clear _ (by omega) (by omega))
      rw [index] at before
      refine ⟨before, ?_⟩
      rw [within.root]
      exact mapped j below
    · intro m hm other
      have outside : m ∉ pagesFrom a.toNat n.toNat := by
        intro inside
        rw [pagesFrom, Set.mem_Ico, heapPage, heapPage] at inside
        exact other (m - heapPage a.toNat) (by rw [heapPage]; omega) (by rw [heapPage, heapPage]; omega)
      rw [within.root]
      exact within.leaves m hm outside

/-- How an allocation can stop: no gap on either side of the cursor, and nothing has
    changed, or fewer frames than the next fit needs. -/
inductive Refused (s : State) (n : UInt64) : Halt → State → Prop
  | exhausted (after : ∀ b, ¬ Gap s n.toNat s.last_allocated_index.toNat (2 ^ 25) b)
      (before : ∀ b, ¬ Gap s n.toNat 0 s.last_allocated_index.toNat b) : Refused s n (.panic .heapExhausted) s
  | outOfFrames {a : UInt64} {e : Halt} {s' : State} (fit : NextFit s n.toNat a) (out : OutOfFrames s n a e) :
      Refused s n e s'

end

/-- Between calls on the heap the memory manager is ready. -/
theorem ready_of_rest {s₀ s : State} {sections : List Elf64Shdr} (rest : AtRest s₀ sections s) : Ready s := by
  have core := rest.core
  refine ⟨core.ledger.tree, core.reach, ?_, ?_, rest.cursor⟩
  · intro n bitmap
    exact (core.filled n (.inl (.inl bitmap))).mpr (.inl (.inl bitmap))
  · intro i inside clear
    exact unmapped_of_clear core inside clear

end Extron.NextFit
