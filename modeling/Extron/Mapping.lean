import Extron.PageTables

/-!
What `map_page`, `unmap_page` and `virt_to_phys` do to a tree of tables. A call of
`map_page` links the tables that are missing on the way to its page, each in the
lowest free frame, and then writes at most the word of that page. It stops only
for want of a free frame or at a frame outside the boot mapping.
-/
namespace Extron.Paging
open Extron.RadixTree Extron.Multiboot Extron.Pmm Extron.Outcomes
set_option linter.unusedSimpArgs false

/-- The window of `phys_to_virt` is mapped at the frame. -/
def Window (s : State) (p : UInt64) : Prop := s.g_hhdm_offset = 0 → p < ONE_GIB

/-- The state with one more event. -/
def recorded (event : Event) (s : State) : State := { s with journal := event :: s.journal }

section
variable {s : State} {t w : UInt64} {i : Fin 512}

theorem deref_near (near : Window s t) : deref t s = .ok () s := by
  have inside : ¬ (s.g_hhdm_offset = 0 ∧ ONE_GIB ≤ t) := fun both => UInt64.not_le.mpr (near both.1) both.2
  rw [deref, if_neg inside]

theorem deref_far (far : ¬ Window s t) : deref t s = .error (.fault t) s := by
  rw [Window, Classical.not_imp, UInt64.not_lt] at far
  rw [deref, if_pos far]

theorem load_near (near : Window s t) : load t i s = .ok (s.frames t i) s := by
  rw [load, bind_ok (deref_near near)]
  rfl

theorem load_far (far : ¬ Window s t) : load t i s = .error (.fault t) s := by
  rw [load, bind_error (deref_far far)]

theorem store_near (near : Window s t) : store t i w s = .ok () (stored t i w s) := by
  rw [store, bind_ok (deref_near near)]
  rfl

theorem clear_table_near (near : Window s t) : clear_table t s = .ok () (cleared t s) := by
  rw [clear_table, bind_ok (deref_near near)]
  rfl

theorem clear_table_far (far : ¬ Window s t) : clear_table t s = .error (.fault t) s := by
  rw [clear_table, bind_error (deref_far far)]

end

/-! ## Reads change nothing -/

theorem quiet_deref (p : UInt64) : Quiet (deref p) := by
  rintro s _ rfl
  rw [deref]
  split
  · exact rfl
  · exact rfl

theorem quiet_load (t : UInt64) (i : Fin 512) : Quiet (load t i) :=
  quiet_bind (quiet_deref t) fun _ => quiet_bind quiet_get fun _ => quiet_pure _

theorem quiet_get_table_if_present (t : UInt64) (i : Fin 512) : Quiet (get_table_if_present t i) :=
  quiet_bind (quiet_load t i) fun _ => quiet_ite (quiet_pure _) (quiet_pure _)

theorem quiet_find_table (pml4 virt : UInt64) : Quiet (find_table pml4 virt) :=
  quiet_bind (quiet_get_table_if_present _ _) fun _ => quiet_ite (quiet_pure _)
    (quiet_bind (quiet_get_table_if_present _ _) fun _ => quiet_ite (quiet_pure _) (quiet_get_table_if_present _ _))

theorem quiet_virt_to_phys (pml4 virt : UInt64) : Quiet (virt_to_phys pml4 virt) :=
  quiet_bind (quiet_find_table _ _) fun _ => quiet_ite (quiet_pure _)
    (quiet_bind (quiet_load _ _) fun _ => quiet_ite (quiet_pure _) (quiet_pure _))

theorem quiet_kvirt_to_phys (virt : UInt64) : Quiet (kvirt_to_phys virt) :=
  quiet_bind quiet_get fun _ => quiet_virt_to_phys _ _

/-! ## Growth -/

/-- Tables were linked along a path, each in the lowest free frame. -/
inductive Growth (root : UInt64) (path : List (Fin 512)) (s : State) : State → Prop
  | refl : Growth root path s s
  | link {mid : State} {p : List (Fin 512)} {i : Fin 512} {t k : UInt64} (before : Growth root path s mid)
      (along : p ++ [i] <+: path) (reached : table root mid p = some t) (unlinked : link (mid.frames t i) = none)
      (least : Least mid k) (near : Window mid t) (frameNear : Window mid (idx_to_addr k)) :
      Growth root path s (linked t i k mid)

/-- A table on a path is not there yet. -/
def Missing (root : UInt64) (path : List (Fin 512)) (s : State) : Prop :=
  ∃ p i t, p ++ [i] <+: path ∧ table root s p = some t ∧ link (s.frames t i) = none

/-- How a walk along a path that links missing tables can stop. -/
inductive Stuck (root : UInt64) (path : List (Fin 512)) (s : State) : Halt → State → Prop
  | outOfMemory {mid : State} (grown : Growth root path s mid) (missing : Missing root path mid)
      (full : ∀ k, ¬ Free mid k) : Stuck root path s (.panic .outOfMemory) mid
  | farTable {mid : State} {p : List (Fin 512)} {t : UInt64} (grown : Growth root path s mid) (along : p <+: path)
      (reached : table root mid p = some t) (far : ¬ Window mid t) : Stuck root path s (.fault t) mid
  | farFrame {mid : State} {k : UInt64} (grown : Growth root path s mid) (missing : Missing root path mid)
      (least : Least mid k) (far : ¬ Window mid (idx_to_addr k)) :
      Stuck root path s (.fault (idx_to_addr k)) (bitmap_set mid k)

section
variable {root : UInt64} {path : List (Fin 512)} {s s' : State}

theorem short_of_along {p : List (Fin 512)} {i : Fin 512} (along : p ++ [i] <+: path) (three : path.length = 3) :
    p.length < 3 := by
  have := length_of_snoc_prefix along
  omega

theorem tree_growth (tree : Tree root s) (three : path.length = 3) (grown : Growth root path s s') : Tree root s' := by
  induction grown with
  | refl => exact tree
  | link _ along reached unlinked least _ _ ih =>
    exact tree_linked ih reached (short_of_along along three) unlinked least.free

theorem leaf_growth (tree : Tree root s) (three : path.length = 3) (grown : Growth root path s s') (n : Nat) :
    leaf root s' n = leaf root s n := by
  induction grown with
  | refl => rfl
  | link before along reached unlinked least _ _ ih =>
    rw [leaf_linked (tree_growth tree three before) reached (short_of_along along three) unlinked least.free, ih]

/-- Tables that were there stay where they were. -/
theorem table_growth (tree : Tree root s) (three : path.length = 3) (grown : Growth root path s s')
    {q : List (Fin 512)} {t : UInt64} (short : q.length ≤ 3) (here : table root s q = some t) :
    table root s' q = some t := by
  induction grown with
  | refl => exact here
  | link before along reached unlinked least _ _ ih =>
    rw [table_linked (tree_growth tree three before) reached (short_of_along along three) unlinked least.free (by omega)]
    split
    · rename_i new
      have missing := table_under_unlinked reached unlinked
      rw [← new, ih] at missing
      cases missing
    · exact ih

theorem table_none_below {p q : List (Fin 512)} (along : p <+: q) (missing : table root s p = none) :
    table root s q = none := by
  obtain ⟨rest, rfl⟩ := along
  rw [table] at missing ⊢
  rw [descend_append, missing]
  rfl

/-- Along a path whose tables are all there, nothing grows. -/
theorem growth_done {t : UInt64} (grown : Growth root path s s') (whole : table root s path = some t) : s' = s := by
  induction grown with
  | refl => rfl
  | link before along reached unlinked least _ _ ih =>
    subst ih
    have missing := table_none_below along (table_under_unlinked reached unlinked)
    rw [whole] at missing
    cases missing

/-- Only the tables of the path are added. -/
theorem table_growth_only (tree : Tree root s) (three : path.length = 3) (grown : Growth root path s s')
    {q : List (Fin 512)} {t : UInt64} (short : q.length ≤ 3) (here : table root s' q = some t) :
    table root s q = some t ∨ q <+: path := by
  induction grown with
  | refl => exact .inl here
  | link before along reached unlinked least _ _ ih =>
    rw [table_linked (tree_growth tree three before) reached (short_of_along along three) unlinked least.free
      (by omega)] at here
    split at here
    · rename_i new
      exact .inr (new ▸ along)
    · exact ih here

/-- Every call of `map_page` since `s₀` returned 0. -/
def NoneFailed (s₀ s : State) : Prop := ∀ pml4 v res, .mapped pml4 v res ∈ s.journal → res = 0 ∨ .mapped pml4 v res ∈ s₀.journal

theorem noneFailed_recorded {s₀ : State} {e : Event} (none : NoneFailed s₀ s)
    (fine : ∀ pml4 v res, e = .mapped pml4 v res → res = 0) : NoneFailed s₀ (recorded e s) := by
  intro pml4 v res member
  rcases List.mem_cons.mp member with same | old
  · exact .inl (fine pml4 v res same.symm)
  · exact none pml4 v res old

theorem noneFailed_stored {s₀ : State} {t w : UInt64} {i : Fin 512} (none : NoneFailed s₀ s) :
    NoneFailed s₀ (stored t i w s) :=
  noneFailed_recorded (e := .store t i w) none (fun _ _ _ impossible => by cases impossible)

theorem noneFailed_cleared {s₀ : State} {t : UInt64} (none : NoneFailed s₀ s) : NoneFailed s₀ (cleared t s) :=
  noneFailed_recorded (e := .zero t) none (fun _ _ _ impossible => by cases impossible)

theorem noneFailed_growth {s₀ : State} (none : NoneFailed s₀ s) (grown : Growth root path s s') : NoneFailed s₀ s' := by
  induction grown with
  | refl => exact none
  | link _ _ _ _ _ _ _ ih => exact noneFailed_stored (noneFailed_cleared (s := bitmap_set _ _) ih)

/-- The lowest free frame is the one that `pmm_alloc_page` takes. -/
theorem pmm_alloc_page_least (s : State) :
    (∃ k, Least s k ∧ pmm_alloc_page s = .ok (idx_to_addr k) (bitmap_set s k)) ∨
      ((∀ k, ¬ Free s k) ∧ pmm_alloc_page s = .error (.panic .outOfMemory) s) := by
  rcases pmm_alloc_page_cases s with ⟨k, free, least, runs⟩ | full
  · exact .inl ⟨k, ⟨free, least⟩, runs⟩
  · exact .inr full

theorem idx_to_addr_ne_zero (tree : Tree root s) {k : UInt64} (free : Free s k) : idx_to_addr k ≠ 0 := by
  intro zero
  have index := (frame_of_free tree.memory free).2.1
  rw [zero] at index
  have first : k = 0 := index.symm
  exact tree.zeroTaken (first ▸ free)

theorem get_next_table_post {s₀ : State} (tree : Tree root s₀) (three : path.length = 3) (grown : Growth root path s₀ s)
    {p : List (Fin 512)} {i : Fin 512} {t : UInt64} (along : p ++ [i] <+: path) (reached : table root s p = some t) :
    Post (fun u s' => u ≠ 0 ∧ Growth root path s₀ s' ∧ table root s' (p ++ [i]) = some u) (Stuck root path s₀)
      (get_next_table t i s) := by
  have here := tree_growth tree three grown
  have short := short_of_along along three
  by_cases near : Window s t
  · rw [get_next_table, bind_ok (load_near near)]
    by_cases present : s.frames t i &&& PAGE_PRESENT ≠ 0
    · rw [if_pos present]
      have next : table root s (p ++ [i]) = some (s.frames t i &&& PAGE_ADDR_MASK) := by
        rw [table] at reached ⊢
        rw [descend_snoc, word, reached]
        exact link_eq_some.mpr ⟨present, rfl⟩
      exact ⟨here.nonzero _ _ (by simp) (by simp; omega) next, grown, next⟩
    · rw [if_neg present]
      have unlinked : link (s.frames t i) = none := link_eq_none.mpr (not_not.mp present)
      rcases pmm_alloc_page_least s with ⟨k, least, runs⟩ | ⟨full, runs⟩
      · rw [bind_ok runs, if_neg (idx_to_addr_ne_zero here least.free)]
        by_cases frameNear : Window s (idx_to_addr k)
        · have nearNow : Window (bitmap_set s k) (idx_to_addr k) := frameNear
          have tableNow : Window (cleared (idx_to_addr k) (bitmap_set s k)) t := near
          rw [bind_ok (clear_table_near nearNow), bind_ok (store_near tableNow)]
          exact ⟨idx_to_addr_ne_zero here least.free, .link grown along reached unlinked least near frameNear, by
            have new := table_linked here reached short unlinked least.free (q := p ++ [i]) (by simp; omega)
            rw [if_pos rfl] at new
            exact new⟩
        · have farNow : ¬ Window (bitmap_set s k) (idx_to_addr k) := frameNear
          rw [bind_error (clear_table_far farNow)]
          exact .farFrame grown ⟨p, i, t, along, reached, unlinked⟩ least frameNear
      · rw [bind_error runs]
        exact .outOfMemory grown ⟨p, i, t, along, reached, unlinked⟩ full
  · rw [get_next_table, bind_error (load_far near)]
    exact .farTable grown ((List.prefix_append p [i]).trans along) reached near

end

/-! ## Calls -/

/-- What a call of `map_page` for page `n` does when it returns: its result, and the
    state before the return is recorded. -/
inductive Mapped (root : UInt64) (n : Nat) (phys flags : UInt64) (s : State) : Int32 → State → Prop
  | same {w : UInt64} (here : leaf root s n = some w) (frame : w &&& PAGE_ADDR_MASK = phys &&& PAGE_ADDR_MASK) :
      Mapped root n phys flags s 0 s
  | other {w : UInt64} (here : leaf root s n = some w) (frame : w &&& PAGE_ADDR_MASK ≠ phys &&& PAGE_ADDR_MASK) :
      Mapped root n phys flags s (-2) s
  | new {mid : State} {pt : UInt64} (grown : Growth root (dir n) s mid) (reached : table root mid (dir n) = some pt)
      (free : leaf root s n = none) :
      Mapped root n phys flags s 0 (stored pt (slot n) ((phys &&& PAGE_ADDR_MASK) ||| flags) mid)

section
variable {root v phys flags : UInt64} {s : State}

theorem map_page_post (tree : Tree root s) :
    Post (fun res s' => ∃ mid, Mapped root (pageOf v) phys flags s res mid ∧ s' = recorded (.mapped root v res) mid)
      (Stuck root (dir (pageOf v)) s) (map_page root v phys flags s) := by
  have three : (dir (pageOf v)).length = 3 := rfl
  have inner : Post (Mapped root (pageOf v) phys flags s) (Stuck root (dir (pageOf v)) s)
      (map_page.go root v phys flags s) := by
    rw [map_page.go, PML4_IDX_eq, PDPT_IDX_eq, PD_IDX_eq, PT_IDX_eq]
    apply post_bind
    refine (get_next_table_post tree three .refl (p := []) ⟨_, rfl⟩ rfl).mono ?_ (fun _ _ stopped => stopped)
    rintro pdpt s1 ⟨nonzero1, grown1, reached1⟩
    rw [if_neg nonzero1]
    apply post_bind
    refine (get_next_table_post tree three grown1 ⟨_, rfl⟩ reached1).mono ?_ (fun _ _ stopped => stopped)
    rintro pd s2 ⟨nonzero2, grown2, reached2⟩
    rw [if_neg nonzero2]
    apply post_bind
    refine (get_next_table_post tree three grown2 ⟨[], rfl⟩ reached2).mono ?_ (fun _ _ stopped => stopped)
    rintro pt mid ⟨nonzero3, grown, reached⟩
    rw [if_neg nonzero3]
    have here : table root mid (dir (pageOf v)) = some pt := reached
    have kept := leaf_growth tree three grown (pageOf v)
    rw [leaf_of_table here] at kept
    by_cases near : Window mid pt
    · rw [bind_ok (load_near near)]
      by_cases present : mid.frames pt (slot (pageOf v)) &&& PAGE_PRESENT ≠ 0
      · rw [if_pos present] at kept ⊢
        have unchanged : mid = s := by
          cases whole : table root s (dir (pageOf v)) with
          | some u => exact growth_done grown whole
          | none =>
            rw [leaf_of_no_table whole] at kept
            cases kept
        subst unchanged
        by_cases frame : mid.frames pt (slot (pageOf v)) &&& PAGE_ADDR_MASK = phys &&& PAGE_ADDR_MASK
        · rw [if_pos frame]
          exact .same kept.symm frame
        · rw [if_neg frame]
          exact .other kept.symm frame
      · rw [if_neg present] at kept ⊢
        rw [bind_ok (store_near near)]
        exact .new grown here kept.symm
    · rw [bind_error (load_far near)]
      exact .farTable grown List.prefix_rfl here near
  rw [map_page]
  apply post_bind
  refine inner.mono ?_ (fun _ _ stopped => stopped)
  intro res mid mapped
  exact ⟨mid, mapped, rfl⟩

/-- How a walk that adds no tables can stop. -/
def Faulted (root : UInt64) (path : List (Fin 512)) (s : State) (e : Halt) (s' : State) : Prop :=
  s' = s ∧ ∃ q t, q <+: path ∧ table root s q = some t ∧ ¬ Window s t ∧ e = .fault t

theorem get_table_if_present_post {d p : List (Fin 512)} {i : Fin 512} {t : UInt64} (along : p ++ [i] <+: d)
    (reached : table root s p = some t) :
    Post (fun u s' => s' = s ∧ (table root s (p ++ [i]) = some u ∨ table root s (p ++ [i]) = none ∧ u = 0))
      (Faulted root d s) (get_table_if_present t i s) := by
  have next : table root s (p ++ [i]) = link (s.frames t i) := by
    rw [table] at reached ⊢
    rw [descend_snoc, word, reached]
    rfl
  by_cases near : Window s t
  · rw [get_table_if_present, bind_ok (load_near near), next]
    by_cases present : s.frames t i &&& PAGE_PRESENT ≠ 0
    · rw [if_pos present, link, if_pos present]
      exact ⟨rfl, .inl rfl⟩
    · rw [if_neg present, link, if_neg present]
      exact ⟨rfl, .inr ⟨rfl, rfl⟩⟩
  · rw [get_table_if_present, bind_error (load_far near)]
    exact ⟨rfl, p, t, (List.prefix_append p [i]).trans along, reached, near, rfl⟩

theorem find_table_post (tree : Tree root s) :
    Post (fun u s' => s' = s ∧ (table root s (dir (pageOf v)) = some u ∧ u ≠ 0 ∨
        table root s (dir (pageOf v)) = none ∧ u = 0)) (Faulted root (dir (pageOf v)) s) (find_table root v s) := by
  rw [find_table, PML4_IDX_eq, PDPT_IDX_eq, PD_IDX_eq]
  apply post_bind
  refine (get_table_if_present_post (p := []) (d := dir (pageOf v)) ⟨_, rfl⟩ rfl).mono ?_ (fun _ _ stopped => stopped)
  rintro pdpt _ ⟨rfl, reached1 | ⟨missing, rfl⟩⟩
  · rw [if_neg (tree.nonzero _ _ (by simp) (by simp) reached1)]
    apply post_bind
    refine (get_table_if_present_post (d := dir (pageOf v)) ⟨_, rfl⟩ reached1).mono ?_ (fun _ _ stopped => stopped)
    rintro pd _ ⟨rfl, reached2 | ⟨missing, rfl⟩⟩
    · rw [if_neg (tree.nonzero _ _ (by simp) (by simp) reached2)]
      refine (get_table_if_present_post (d := dir (pageOf v)) ⟨[], rfl⟩ reached2).mono ?_ (fun _ _ stopped => stopped)
      rintro pt _ ⟨rfl, reached | missing⟩
      · exact ⟨rfl, .inl ⟨reached, tree.nonzero _ _ (by simp) (by simp) reached⟩⟩
      · exact ⟨rfl, .inr missing⟩
    · rw [if_pos rfl]
      exact ⟨rfl, .inr ⟨table_none_below ⟨_, rfl⟩ missing, rfl⟩⟩
  · rw [if_pos rfl]
    exact ⟨rfl, .inr ⟨table_none_below ⟨_, rfl⟩ missing, rfl⟩⟩

theorem virt_to_phys_post (tree : Tree root s) :
    Post (fun a s' => s' = s ∧ a = (frameOf root s (pageOf v)).getD 0) (Faulted root (dir (pageOf v)) s)
      (virt_to_phys root v s) := by
  rw [virt_to_phys, PT_IDX_eq]
  apply post_bind
  refine (find_table_post tree).mono ?_ (fun _ _ stopped => stopped)
  rintro pt s ⟨rfl, ⟨reached, nonzero⟩ | ⟨missing, rfl⟩⟩
  · rw [if_neg nonzero, frameOf, leaf_of_table reached]
    by_cases near : Window s pt
    · rw [bind_ok (load_near near)]
      by_cases absent : s.frames pt (slot (pageOf v)) &&& PAGE_PRESENT = 0
      · rw [if_pos absent, if_neg (not_not.mpr absent)]
        exact ⟨rfl, rfl⟩
      · rw [if_neg absent, if_pos absent]
        exact ⟨rfl, rfl⟩
    · rw [bind_error (load_far near)]
      exact ⟨rfl, _, pt, List.prefix_rfl, reached, near, rfl⟩
  · rw [if_pos rfl, frameOf, leaf_of_no_table missing]
    exact ⟨rfl, rfl⟩

/-- What a call of `unmap_page` for page `n` does when it returns. -/
inductive Unmapped (root v : UInt64) (s : State) : Int32 → State → Prop
  | absent (free : leaf root s (pageOf v) = none) : Unmapped root v s (-1) s
  | present {w pt : UInt64} (here : leaf root s (pageOf v) = some w) (reached : table root s (dir (pageOf v)) = some pt) :
      Unmapped root v s 0 (recorded (.invlpg v) (stored pt (slot (pageOf v)) 0 s))

theorem unmap_page_post (tree : Tree root s) :
    Post (fun res s' => ∃ mid, Unmapped root v s res mid ∧ s' = recorded (.unmapped root v res) mid)
      (Faulted root (dir (pageOf v)) s) (unmap_page root v s) := by
  have inner : Post (Unmapped root v s) (Faulted root (dir (pageOf v)) s) (unmap_page.go root v s) := by
    rw [unmap_page.go, PT_IDX_eq]
    apply post_bind
    refine (find_table_post tree).mono ?_ (fun _ _ stopped => stopped)
    rintro pt s ⟨rfl, ⟨reached, nonzero⟩ | ⟨missing, rfl⟩⟩
    · have here := leaf_of_table reached
      rw [if_neg nonzero]
      by_cases near : Window s pt
      · rw [bind_ok (load_near near)]
        by_cases absent : s.frames pt (slot (pageOf v)) &&& PAGE_PRESENT = 0
        · rw [if_neg (not_not.mpr absent)] at here
          rw [if_pos absent]
          exact .absent here
        · rw [if_pos absent] at here
          rw [if_neg absent, bind_ok (store_near near)]
          exact .present here reached
      · rw [bind_error (load_far near)]
        exact ⟨rfl, _, pt, List.prefix_rfl, reached, near, rfl⟩
    · rw [if_pos rfl]
      exact .absent (leaf_of_no_table missing)
  rw [unmap_page]
  apply post_bind
  refine inner.mono ?_ (fun _ _ stopped => stopped)
  intro res mid unmapped
  exact ⟨mid, unmapped, rfl⟩

end

end Extron.Paging
