import Extron.EarlyTables
import Extron.OwnPages

/-!
How many frames a step uses up. A table that is linked costs one frame, so the free
frames together with the tables of a fixed set of paths are as many as before, and a
page that gets a frame of its own makes them one fewer. A step that runs out of frames
therefore started with fewer than the pages and the missing tables needed.
-/
namespace Extron.Supply
open Extron.RadixTree Extron.Pmm Extron.Paging Extron.AddressSpace Extron.Accounting Extron.BootJobs Extron.BootMap
open Extron.EarlyTables Extron.OwnPages Extron.Outcomes
set_option linter.unusedSimpArgs false

/-- The managed frames that are free. -/
def freeFrames (s : State) : Finset UInt64 := (indices (s.total_mem.toNat / 4096)).filter fun i => Free s i

/-- The paths at which a table is missing. -/
def missingTables (paths : Finset (List (Fin 512))) (root : UInt64) (s : State) : Finset (List (Fin 512)) :=
  paths.filter fun q => table root s q = none

/-- The paths at which there is a table. -/
def presentTables (paths : Finset (List (Fin 512))) (root : UInt64) (s : State) : Finset (List (Fin 512)) :=
  paths.filter fun q => ¬ table root s q = none

/-- The free frames and the tables together. -/
def supply (paths : Finset (List (Fin 512))) (root : UInt64) (s : State) : Nat :=
  (freeFrames s).card + (presentTables paths root s).card

/-! ## The paths to some pages -/

/-- The paths below the root of the tables on the way to some pages. -/
def pathsTo (pages : Finset Nat) : Finset (List (Fin 512)) :=
  pages.biUnion fun n => {(dir n).take 1, (dir n).take 2, dir n}

theorem card_pathsTo (pages : Finset Nat) : (pathsTo pages).card ≤ pages.card * 3 :=
  Finset.card_biUnion_le_card_mul _ _ _ fun _ _ => Finset.card_le_three

theorem mem_pathsTo {pages : Finset Nat} {q : List (Fin 512)} : q ∈ pathsTo pages ↔ q ≠ [] ∧ ∃ n ∈ pages, q <+: dir n := by
  simp only [pathsTo, Finset.mem_biUnion, Finset.mem_insert, Finset.mem_singleton]
  constructor
  · rintro ⟨n, inside, path⟩
    refine ⟨?_, n, inside, prefix_dir_iff.mpr (.inr path)⟩
    rcases path with rfl | rfl | rfl
    · exact List.cons_ne_nil _ _
    · exact List.cons_ne_nil _ _
    · exact List.cons_ne_nil _ _
  · rintro ⟨nonempty, n, inside, along⟩
    exact ⟨n, inside, (prefix_dir_iff.mp along).resolve_left nonempty⟩

theorem short_pathsTo {pages : Finset Nat} : ∀ q ∈ pathsTo pages, q.length ≤ 3 := by
  intro q member
  obtain ⟨_, n, _, along⟩ := mem_pathsTo.mp member
  simpa using along.length_le

/-! ## The supply -/

section
variable {s s' : State} {root t k : UInt64} {paths : Finset (List (Fin 512))}

theorem mem_freeFrames {i : UInt64} : i ∈ freeFrames s ↔ Free s i := by
  have bound := s.total_mem.toNat_lt
  rw [freeFrames, Finset.mem_filter, mem_indices (by omega)]
  constructor
  · exact fun both => both.2
  · intro free
    refine ⟨?_, free⟩
    have managed := free.1
    rw [UInt64.lt_iff_toNat_lt, addr_to_idx, UInt64.toNat_div, toNat_PAGE_SIZE] at managed
    exact managed

theorem freeFrames_of_full (full : ∀ k, ¬ Free s k) : freeFrames s = ∅ := by
  rw [Finset.eq_empty_iff_forall_notMem]
  exact fun i member => full i (mem_freeFrames.mp member)

/-- A frame that is taken is one free frame fewer. -/
theorem card_freeFrames_take (free : Free s k) (taken : ∀ j, Free s' j ↔ Free s j ∧ j ≠ k) :
    (freeFrames s').card + 1 = (freeFrames s).card := by
  have erased : freeFrames s' = (freeFrames s).erase k := by
    ext j
    rw [mem_freeFrames, taken, Finset.mem_erase, mem_freeFrames, and_comm]
  rw [erased, Finset.card_erase_add_one (mem_freeFrames.mpr free)]

theorem card_present_add_missing (paths : Finset (List (Fin 512))) (root : UInt64) (s : State) : (presentTables paths root s).card + (missingTables paths root s).card = paths.card := by
  rw [Nat.add_comm]
  exact Finset.card_filter_add_card_filter_not _

theorem supply_set (paths : Finset (List (Fin 512))) (root : UInt64) (free : Free s k) : supply paths root (bitmap_set s k) + 1 = supply paths root s := by
  have tables : presentTables paths root (bitmap_set s k) = presentTables paths root s := rfl
  have fewer := card_freeFrames_take free (FrameRuns.free_set s k)
  rw [supply, supply, tables]
  omega

theorem supply_recorded (e : Event) : supply paths root (recorded e s) = supply paths root s := rfl

/-- A new table is a free frame fewer and a table more. -/
theorem supply_linked {p : List (Fin 512)} {i : Fin 512} (tree : Tree root s) (reached : table root s p = some t)
    (short : p.length < 3) (unlinked : link (s.frames t i) = none) (free : Free s k) (bound : ∀ q ∈ paths, q.length ≤ 3)
    (wanted : p ++ [i] ∈ paths) : supply paths root (linked t i k s) = supply paths root s := by
  have fewer : (freeFrames (linked t i k s)).card + 1 = (freeFrames s).card := card_freeFrames_take free free_linked
  have absent := table_under_unlinked reached unlinked
  have more : presentTables paths root (linked t i k s) = insert (p ++ [i]) (presentTables paths root s) := by
    ext q
    simp only [presentTables, Finset.mem_filter, Finset.mem_insert]
    by_cases here : q = p ++ [i]
    · subst here
      rw [table_linked tree reached short unlinked free (by simp; omega), if_pos rfl]
      simp [wanted]
    · simp only [here, false_or]
      refine and_congr_right fun member => ?_
      rw [table_linked tree reached short unlinked free (by have := bound q member; omega), if_neg here]
  have new : p ++ [i] ∉ presentTables paths root s := fun member => (Finset.mem_filter.mp member).2 absent
  rw [supply, supply, more, Finset.card_insert_of_notMem new]
  omega

variable {path : List (Fin 512)} (bound : ∀ q ∈ paths, q.length ≤ 3) (wanted : ∀ q, q ≠ [] → q <+: path → q ∈ paths)
include bound wanted

theorem supply_growth (tree : Tree root s) (three : path.length = 3) (grown : Growth root path s s') :
    supply paths root s' = supply paths root s := by
  induction grown with
  | refl => rfl
  | link before along reached unlinked least _ _ ih =>
    rw [supply_linked (tree_growth tree three before) reached (short_of_along along three) unlinked least.free bound
      (wanted _ (by simp) along), ih]

omit wanted in
theorem supply_stored {n : Nat} {w : UInt64} (tree : Tree root s) (reached : table root s (dir n) = some t) :
    supply paths root (stored t (slot n) w s) = supply paths root s := by
  have tables : presentTables paths root (stored t (slot n) w s) = presentTables paths root s := by
    refine Finset.filter_congr fun q member => ?_
    rw [table_stored tree reached (bound q member)]
  have frames : freeFrames (stored t (slot n) w s) = freeFrames s := rfl
  rw [supply, supply, tables, frames]

omit bound in
/-- Where no frame is free and a table is missing, the supply is not all the paths. -/
theorem supply_of_missing (missing : Missing root path s) (full : ∀ k, ¬ Free s k) : supply paths root s < paths.card := by
  obtain ⟨p, i, t, along, reached, unlinked⟩ := missing
  have absent : p ++ [i] ∈ missingTables paths root s :=
    Finset.mem_filter.mpr ⟨wanted _ (by simp) along, table_under_unlinked reached unlinked⟩
  have some := Finset.card_pos.mpr ⟨_, absent⟩
  have split := card_present_add_missing paths root s
  rw [supply, freeFrames_of_full full, Finset.card_empty]
  omega

end

section
variable {s s' : State} {v : UInt64} {paths : Finset (List (Fin 512))} (bound : ∀ q ∈ paths, q.length ≤ 3)
  (wanted : ∀ q, q ≠ [] → q <+: dir (pageOf v) → q ∈ paths)
include bound wanted

/-- A page that gets a frame takes one from the supply. -/
theorem supply_placed (tree : Tree s.kernel_pml4 s) (placed : Placed v s s') :
    supply paths s.kernel_pml4 s' + 1 = supply paths s.kernel_pml4 s := by
  cases placed with
  | @intro k pt mid least grown reached =>
    have treeSet := tree_set tree k
    rw [supply_recorded, supply_stored bound (tree_growth treeSet rfl grown) reached,
      supply_growth bound wanted treeSet rfl grown, supply_set paths _ least.free]

/-- When no frame is left for a page, the supply was at most all the paths. -/
theorem supply_short (tree : Tree s.kernel_pml4 s) (short : Short v s s') : supply paths s.kernel_pml4 s ≤ paths.card := by
  cases short with
  | noFrame full =>
    have split := card_present_add_missing paths s.kernel_pml4 s
    rw [supply, freeFrames_of_full full, Finset.card_empty]
    omega
  | @noTable k _ least grown missing full =>
    have few := supply_of_missing wanted missing full
    rw [supply_growth bound wanted (tree_set tree k) rfl grown] at few
    have fewer := supply_set paths s.kernel_pml4 least.free
    omega

end

end Extron.Supply
