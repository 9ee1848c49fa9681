import Extron.Regions

/-!
Pages with frames of their own: how the kernel takes a frame for a page, and how it
gives the frame back. Once the direct map is in use every table is within reach, so
that a page that is not mapped yet is mapped unless frames run out, and a page that
is mapped is always unmapped and its frame freed.
-/
namespace Extron.OwnPages
open Extron.RadixTree Extron.Multiboot Extron.Pmm Extron.Paging Extron.AddressSpace Extron.Accounting Extron.BootJobs
open Extron.KernelMap Extron.Regions Extron.Vmm Extron.Outcomes
set_option linter.unusedSimpArgs false

/-! ## Within reach -/

section
variable {root : UInt64} {path : List (Fin 512)} {s s' : State} {e : Halt}

theorem window_reached (reach : s.g_hhdm_offset ≠ 0) (p : UInt64) : Window s p := fun zero => absurd zero reach

theorem stuck_reached (reach : s.g_hhdm_offset ≠ 0) (stuck : Stuck root path s e s') :
    e = .panic .outOfMemory ∧ Growth root path s s' ∧ Missing root path s' ∧ ∀ k, ¬ Free s' k := by
  have open_after : ∀ {mid}, Growth root path s mid → ∀ p, Window mid p := fun grown p =>
    window_reached (by rw [offset_growth grown]; exact reach) p
  cases stuck with
  | outOfMemory grown missing full => exact ⟨rfl, grown, missing, full⟩
  | farTable grown _ _ far => exact absurd (open_after grown _) far
  | farFrame grown _ _ far => exact absurd (open_after grown _) far

theorem faulted_reached (reach : s.g_hhdm_offset ≠ 0) : ¬ Faulted root path s e s' := by
  rintro ⟨_, _, t, _, _, far, _⟩
  exact far (window_reached reach t)

end

/-! ## Taking a frame for a page -/

/-- The flags of every page that gets a frame of its own. -/
def ownFlags : UInt64 := PAGE_PRESENT ||| PAGE_WRITE

theorem present_ownFlags : ownFlags &&& PAGE_PRESENT ≠ 0 := by decide

/-- Mapping an unmapped page to a frame in hand passes the frame to the page. -/
theorem ledger_fill {s₀ s mid : State} {root k pt : UInt64} {own : Set Nat} {held : Set UInt64} {n : Nat}
    (ledger : Ledger s₀ root own held s) (inHand : k ∈ held) (mine : n ∈ own) (unmapped : leaf root s n = none)
    (grown : Growth root (dir n) s mid) (reached : table root mid (dir n) = some pt) :
    Ledger s₀ root own (held \ {k}) (stored pt (slot n) ((idx_to_addr k &&& PAGE_ADDR_MASK) ||| ownFlags) mid) := by
  have memory : s₀.total_mem.toNat ≤ 2 ^ 52 := ledger.total ▸ ledger.tree.memory
  have free : Free s₀ k := ledger.accounts.usable (h := .hand k) ⟨inHand, rfl⟩
  have points : link ((idx_to_addr k &&& PAGE_ADDR_MASK) ||| ownFlags) = some (idx_to_addr k) := by
    rw [link_or present_ownFlags (by decide), (frame_of_free memory free).1]
  have still : frameOf root mid n = none := by
    rw [frameOf_eq_none, leaf_growth ledger.tree rfl grown]
    exact unmapped
  exact ledger_place (ledger_growth ledger rfl grown) reached (ledger.bounded n mine) mine still inHand points

/-- How `fill_page` ends when it returns. -/
inductive Filled (v : UInt64) (notMapped : Option Panic) (s : State) : State → Prop
  | intro {k : UInt64} {res : Int32} {mid : State} (least : Least s k)
      (mapped : Mapped s.kernel_pml4 (pageOf v) (idx_to_addr k) ownFlags (bitmap_set s k) res mid)
      (fine : res ≠ 0 → notMapped = none) : Filled v notMapped s (recorded (.mapped s.kernel_pml4 v res) mid)

/-- How `fill_page` can stop. -/
inductive Unfilled (v : UInt64) (notMapped : Option Panic) (s : State) : Halt → State → Prop
  | noFrame (full : ∀ k, ¬ Free s k) : Unfilled v notMapped s (.panic .outOfMemory) s
  | noTable {k : UInt64} {e : Halt} {s' : State} (least : Least s k)
      (stuck : Stuck s.kernel_pml4 (dir (pageOf v)) (bitmap_set s k) e s') : Unfilled v notMapped s e s'
  | notMapped {k : UInt64} {res : Int32} {mid : State} {call : Panic} (least : Least s k)
      (mapped : Mapped s.kernel_pml4 (pageOf v) (idx_to_addr k) ownFlags (bitmap_set s k) res mid) (failed : res ≠ 0)
      (checked : notMapped = some call) :
      Unfilled v notMapped s (.panic call) (recorded (.mapped s.kernel_pml4 v res) mid)

theorem fill_page_post {s : State} {v : UInt64} {noFrame : Panic} {notMapped : Option Panic} (tree : Tree s.kernel_pml4 s) :
    Post (fun _ => Filled v notMapped s) (Unfilled v notMapped s) (fill_page v noFrame notMapped s) := by
  rcases pmm_alloc_page_least s with ⟨k, least, runs⟩ | ⟨full, runs⟩
  · rw [fill_page, bind_ok runs, if_neg (idx_to_addr_ne_zero tree least.free)]
    apply post_bind
    refine (map_page_post (v := v) (tree_set tree k)).mono ?_ ?_
    · rintro res _ ⟨mid, mapped, rfl⟩
      cases notMapped with
      | none => exact .intro least mapped (fun _ => rfl)
      | some call =>
        by_cases failed : res ≠ 0
        · simp only [if_pos failed]
          exact .notMapped least mapped failed rfl
        · simp only [if_neg failed]
          exact .intro least mapped (fun bad => absurd bad failed)
    · intro e s' stuck
      exact .noTable least stuck
  · rw [fill_page, bind_error runs]
    exact .noFrame full

theorem keeps_fill_page (v : UInt64) (noFrame : Panic) (notMapped : Option Panic) : Keeps (fill_page v noFrame notMapped) := by
  have stops : ∀ call : Panic, Keeps (panic call : Kernel Unit) := fun _ s => Kept.refl s
  refine keeps_bind keeps_pmm_alloc_page fun p => keeps_ite (stops _) ?_
  refine keeps_bind (fun s => keeps_map_page s.kernel_pml4 v p _ s) fun res => ?_
  cases notMapped with
  | none => exact keeps_pure _
  | some call => exact keeps_ite (stops _) (keeps_pure _)

/-- The page of `v` got the lowest free frame, and the tables on the way to it. -/
inductive Placed (v : UInt64) (s : State) : State → Prop
  | intro {k pt : UInt64} {mid : State} (least : Least s k) (grown : Growth s.kernel_pml4 (dir (pageOf v)) (bitmap_set s k) mid)
      (reached : table s.kernel_pml4 mid (dir (pageOf v)) = some pt) :
      Placed v s (recorded (.mapped s.kernel_pml4 v 0) (stored pt (slot (pageOf v))
        ((idx_to_addr k &&& PAGE_ADDR_MASK) ||| ownFlags) mid))

/-- No frame is free, for the page of `v` or for a table on the way to it. -/
inductive Short (v : UInt64) (s : State) : State → Prop
  | noFrame (full : ∀ k, ¬ Free s k) : Short v s s
  | noTable {k : UInt64} {mid : State} (least : Least s k)
      (grown : Growth s.kernel_pml4 (dir (pageOf v)) (bitmap_set s k) mid)
      (missing : Missing s.kernel_pml4 (dir (pageOf v)) mid) (full : ∀ k, ¬ Free mid k) : Short v s mid

theorem Short.full {v : UInt64} {s s' : State} (short : Short v s s') : ∀ k, ¬ Free s' k := by
  cases short with
  | noFrame full => exact full
  | noTable _ _ _ full => exact full

/-- Within reach, an unmapped page gets a frame unless none is left. -/
theorem fill_unmapped {s : State} {v : UInt64} {noFrame : Panic} {notMapped : Option Panic} (tree : Tree s.kernel_pml4 s)
    (reach : s.g_hhdm_offset ≠ 0) (unmapped : leaf s.kernel_pml4 s (pageOf v) = none) :
    Post (fun _ s' => Placed v s s' ∧ Kept s s') (fun e s' => e = .panic .outOfMemory ∧ Short v s s')
      (fill_page v noFrame notMapped s) := by
  have unmapped_set : ∀ k, leaf s.kernel_pml4 (Pmm.bitmap_set s k) (pageOf v) = none := fun _ => unmapped
  refine ((fill_page_post tree).and (keeps_fill_page v noFrame notMapped s)).mono ?_ ?_
  · rintro _ _ ⟨@⟨k, res, mid, least, mapped, _⟩, kept⟩
    cases mapped with
    | same here => rw [unmapped_set k] at here; cases here
    | other here => rw [unmapped_set k] at here; cases here
    | new grown reached => exact ⟨.intro least grown reached, kept⟩
  · rintro e s' ⟨stopped, _⟩
    cases stopped with
    | noFrame full => exact ⟨rfl, .noFrame full⟩
    | @noTable k _ _ least stuck =>
      obtain ⟨rfl, grown, missing, full⟩ := stuck_reached (s := Pmm.bitmap_set s k) reach stuck
      exact ⟨rfl, .noTable least grown missing full⟩
    | @notMapped k _ _ _ least mapped failed =>
      cases mapped with
      | same here => rw [unmapped_set k] at here; cases here
      | other here => rw [unmapped_set k] at here; cases here
      | new => exact absurd rfl failed

/-! ## Giving a frame back -/

/-- The state once page `v`, whose word lies in table `pt`, is unmapped and its frame `f` freed. -/
def freed (root v pt f : UInt64) (s : State) : State :=
  Pmm.bitmap_clear (recorded (.freeing f) (recorded (.unmapped root v 0)
    (recorded (.invlpg v) (stored pt (slot (pageOf v)) 0 s)))) (addr_to_idx f)

section
variable {s₀ s : State} {own : Set Nat} {held : Set UInt64} {v : UInt64}

/-- `free_frame` frees the frame of a page that is mapped and panics at one that is not. -/
theorem free_frame_cases (ledger : Ledger s₀ s.kernel_pml4 own held s) (reach : s.g_hhdm_offset ≠ 0)
    (mine : pageOf v ∈ own) :
    (∃ w pt, leaf s.kernel_pml4 s (pageOf v) = some w ∧ table s.kernel_pml4 s (dir (pageOf v)) = some pt ∧
      vmm_free_pages.free_frame v s = .ok () (freed s.kernel_pml4 v pt (w &&& PAGE_ADDR_MASK) s)) ∨
    (leaf s.kernel_pml4 s (pageOf v) = none ∧
      vmm_free_pages.free_frame v s = .error (.panic (.neverMapped v)) s) := by
  have tree := ledger.tree
  obtain ⟨a, s', reads, same, value⟩ := ((virt_to_phys_post (v := v) tree).mono (fun _ _ here => here)
    (fun _ _ faulted => faulted_reached reach faulted)).returns
  rw [same, value] at reads
  have start : kvirt_to_phys v s = .ok ((frameOf s.kernel_pml4 s (pageOf v)).getD 0) s := reads
  cases here : leaf s.kernel_pml4 s (pageOf v) with
  | none =>
    rw [frameOf, here] at start
    refine .inr ⟨rfl, ?_⟩
    rw [vmm_free_pages.free_frame, bind_ok start]
    rfl
  | some w =>
    have frame : frameOf s.kernel_pml4 s (pageOf v) = some (w &&& PAGE_ADDR_MASK) := frameOf_of_leaf here
    have nonzero := ledger.page_nonzero mine frame
    rw [frame] at start
    obtain ⟨res, _, unmaps, mid, unmapped, rfl⟩ := ((unmap_page_post (v := v) tree).mono (fun _ _ here => here)
      (fun _ _ faulted => faulted_reached reach faulted)).returns
    cases unmapped with
    | absent free =>
      rw [here] at free
      cases free
    | @present _ pt _ reached =>
      refine .inl ⟨w, pt, rfl, reached, ?_⟩
      have clears : kunmap v s = .ok 0 _ := unmaps
      rw [vmm_free_pages.free_frame, bind_ok start, Option.getD_some, if_pos nonzero, bind_ok clears]
      rcases pmm_free_page_cases (recorded (.freeing (w &&& PAGE_ADDR_MASK)) (recorded (.unmapped s.kernel_pml4 v 0)
        (recorded (.invlpg v) (stored pt (slot (pageOf v)) 0 s)))) (w &&& PAGE_ADDR_MASK) with
        ⟨_, _, frees⟩ | ⟨unaligned, _⟩ | ⟨_, clear, _⟩
      · exact frees
      · refine absurd ?_ unaligned
        apply UInt64.toNat_inj.mp
        rw [UInt64.toNat_mod, toNat_and_mask, toNat_PAGE_SIZE]
        exact Nat.mul_mod_left _ _
      · exact absurd (ledger.page_marked mine frame) clear

/-- Freeing a page's frame leaves the accounts of the other holders as they were. -/
theorem ledger_freed {root w pt : UInt64} (ledger : Ledger s₀ root own held s) (mine : pageOf v ∈ own)
    (here : leaf root s (pageOf v) = some w) (reached : table root s (dir (pageOf v)) = some pt) :
    Ledger s₀ root own held (freed root v pt (w &&& PAGE_ADDR_MASK) s) := by
  have frame : frameOf root s (pageOf v) = some (w &&& PAGE_ADDR_MASK) := frameOf_of_leaf here
  have unheld : addr_to_idx (w &&& PAGE_ADDR_MASK) ∉ held := by
    intro inHand
    cases ledger.accounts.single (h := .page (pageOf v)) (o := .hand (addr_to_idx (w &&& PAGE_ADDR_MASK)))
      ⟨mine, _, frame, rfl⟩ ⟨inHand, rfl⟩
  have unmapped := ledger_recorded (e := .freeing (w &&& PAGE_ADDR_MASK))
    (ledger_recorded (e := .unmapped root v 0) (ledger_recorded (e := .invlpg v)
      (ledger_unmap ledger reached (pageOf_lt v) mine frame)))
  have released := ledger_release unmapped (Set.mem_insert _ _)
  rw [Set.insert_sdiff_self_of_notMem unheld] at released
  exact released

end

/-! ## What stays the same -/

/-- The tables of `s` are still there in `s'`, those that are new lead to `pages`, and
    every other page has the word that it had. -/
structure Within (pages : Set Nat) (s s' : State) : Prop where
  root : s'.kernel_pml4 = s.kernel_pml4
  tables : ∀ q t, q.length ≤ 3 → table s.kernel_pml4 s q = some t → table s.kernel_pml4 s' q = some t
  only : ∀ q t, q.length ≤ 3 → table s.kernel_pml4 s' q = some t →
    table s.kernel_pml4 s q = some t ∨ ∃ n ∈ pages, q <+: dir n
  leaves : ∀ n < 2 ^ 36, n ∉ pages → leaf s.kernel_pml4 s' n = leaf s.kernel_pml4 s n

section
variable {pages more : Set Nat} {s s' t : State}

theorem Within.refl (s : State) : Within pages s s :=
  ⟨rfl, fun _ _ _ here => here, fun _ _ _ here => .inl here, fun _ _ _ => rfl⟩

theorem Within.trans (first : Within pages s s') (second : Within pages s' t) : Within pages s t := by
  obtain ⟨root, tables, only, leaves⟩ := second
  rw [first.root] at root tables only leaves
  refine ⟨root, fun q u short here => tables q u short (first.tables q u short here), ?_, ?_⟩
  · intro q u short here
    rcases only q u short here with old | new
    · exact first.only q u short old
    · exact .inr new
  · intro n hn outside
    rw [leaves n hn outside, first.leaves n hn outside]

theorem Within.mono (within : Within pages s s') (sub : pages ⊆ more) : Within more s s' := by
  refine ⟨within.root, within.tables, ?_, fun n hn outside => within.leaves n hn (fun inside => outside (sub inside))⟩
  intro q u short here
  rcases within.only q u short here with old | ⟨n, inside, along⟩
  · exact .inl old
  · exact .inr ⟨n, sub inside, along⟩

/-- Only bytes, bits and the journal differ. -/
theorem Within.of_frames (root : s'.kernel_pml4 = s.kernel_pml4) (frames : s'.frames = s.frames) : Within pages s s' := by
  refine ⟨root, ?_, ?_, ?_⟩
  · intro q t _ here
    rw [table, frames]
    exact here
  · intro q t _ here
    rw [table, frames] at here
    exact .inl here
  · intro n _ _
    rw [leaf, leaf, frames]

theorem within_stored {root pt w : UInt64} {n : Nat} {mid : State} (tree : Tree root s) (same : s.kernel_pml4 = root)
    (hn : n < 2 ^ 36) (kept : mid.kernel_pml4 = root) (grown : Growth root (dir n) s mid)
    (reached : table root mid (dir n) = some pt) : Within {n} s (stored pt (slot n) w mid) := by
  subst same
  have treeMid := tree_growth tree rfl grown
  refine ⟨kept, ?_, ?_, ?_⟩
  · intro q u short here
    rw [table_stored treeMid reached short]
    exact table_growth tree rfl grown short here
  · intro q u short here
    rw [table_stored treeMid reached short] at here
    rcases table_growth_only tree rfl grown short here with old | along
    · exact .inl old
    · exact .inr ⟨n, rfl, along⟩
  · intro m hm other
    have different : m ≠ n := other
    rw [leaf_stored treeMid reached hn hm, if_neg different, leaf_growth tree rfl grown]

end

/-! ## The state of the regions -/

/-- The memory manager between two steps: the pages of `filled` have frames of their own,
    and the other pages are those of `init_paging`. -/
structure Core (s₀ : State) (sections : List Elf64Shdr) (filled : Set Nat) (s : State) : Prop where
  ledger : Ledger s₀ s.kernel_pml4 ownPages ∅ s
  offset : s.g_hhdm_offset = NEW_HDDM
  fixed : ∀ n < 2 ^ 36, n ∉ ownPages → frameOf s.kernel_pml4 s n = bootPage sections s₀.total_mem n
  filled : ∀ n ∈ ownPages, (leaf s.kernel_pml4 s n).isSome ↔ n ∈ filled
  none : NoneFailed s₀ s

/-- The kernel stops because no frame is free. -/
def Starved (s₀ : State) (e : Halt) (s : State) : Prop :=
  e = .panic .outOfMemory ∧ (∀ k, ¬ Free s k) ∧ NoneFailed s₀ s

section
variable {s₀ s s' : State} {sections : List Elf64Shdr} {filled filled' : Set Nat} {v : UInt64}

theorem Core.reach (core : Core s₀ sections filled s) : s.g_hhdm_offset ≠ 0 := by
  rw [core.offset]
  decide

theorem Core.congr (core : Core s₀ sections filled s) (same : ∀ n ∈ ownPages, n ∈ filled' ↔ n ∈ filled) :
    Core s₀ sections filled' s :=
  ⟨core.ledger, core.offset, core.fixed, fun n own => (core.filled n own).trans (same n own).symm, core.none⟩

theorem within_placed (tree : Tree s.kernel_pml4 s) (kept : Kept s s') (placed : Placed v s s') :
    Within {pageOf v} s s' := by
  cases placed with
  | @intro k pt mid least grown reached =>
    have root : mid.kernel_pml4 = s.kernel_pml4 := by
      have same : (recorded (.mapped s.kernel_pml4 v 0) (stored pt (slot (pageOf v))
        ((idx_to_addr k &&& PAGE_ADDR_MASK) ||| ownFlags) mid)).kernel_pml4 = mid.kernel_pml4 := rfl
      rw [← same, kept.rest]
    have start : Within {pageOf v} s (Pmm.bitmap_set s k) := .of_frames rfl rfl
    have stop := within_stored (w := (idx_to_addr k &&& PAGE_ADDR_MASK) ||| ownFlags) (tree_set tree k) rfl (pageOf_lt v)
      root grown reached
    exact (start.trans stop).trans (.of_frames rfl rfl)

theorem leaf_placed (tree : Tree s.kernel_pml4 s) (placed : Placed v s s') :
    ∃ w, leaf s.kernel_pml4 s' (pageOf v) = some w := by
  cases placed with
  | @intro k pt mid least grown reached =>
    have written := leaf_stored (w := (idx_to_addr k &&& PAGE_ADDR_MASK) ||| ownFlags)
      (tree_growth (tree_set tree k) rfl grown) reached (pageOf_lt v) (pageOf_lt v)
    rw [if_pos rfl, if_pos (present_or _ _ present_ownFlags)] at written
    exact ⟨_, written⟩

theorem Core.unmapped {n : Nat} (core : Core s₀ sections filled s) (own : n ∈ ownPages) (fresh : n ∉ filled) :
    leaf s.kernel_pml4 s n = Option.none := by
  have empty : ¬ (leaf s.kernel_pml4 s n).isSome := fun some => fresh ((core.filled n own).mp some)
  simpa using empty

/-- Taking a frame for a page that has none fails only when no frame is left. -/
theorem core_fill {noFrame : Panic} {notMapped : Option Panic} (core : Core s₀ sections filled s)
    (own : pageOf v ∈ ownPages) (fresh : pageOf v ∉ filled) :
    Post (fun _ s' => Core s₀ sections (insert (pageOf v) filled) s' ∧ Within {pageOf v} s s' ∧ Kept s s') (Starved s₀)
      (fill_page v noFrame notMapped s) := by
  have tree := core.ledger.tree
  have unmapped := core.unmapped own fresh
  refine (fill_unmapped tree core.reach unmapped).mono ?_ ?_
  · rintro _ s' ⟨placed, kept⟩
    have within := within_placed tree kept placed
    obtain ⟨w, here⟩ := leaf_placed tree placed
    refine ⟨⟨?_, ?_, ?_, ?_, ?_⟩, within, kept⟩
    · rw [within.root]
      cases placed with
      | @intro k pt mid least grown reached =>
        have final := ledger_fill (ledger_take core.ledger least.free) (Set.mem_insert k ∅) own unmapped grown reached
        have emptied : (insert k ∅ : Set UInt64) \ {k} = ∅ := by simp
        rw [emptied] at final
        exact ledger_recorded final
    · rw [kept.rest]
      exact core.offset
    · intro n hn outside
      have other : n ∉ ({pageOf v} : Set Nat) := fun same => outside (same ▸ own)
      rw [within.root, frameOf, within.leaves n hn other]
      exact core.fixed n hn outside
    · intro n mine
      rw [within.root]
      by_cases same : n = pageOf v
      · subst same
        rw [here]
        simp
      · rw [within.leaves n (core.ledger.bounded n mine) same, core.filled n mine, Set.mem_insert_iff]
        simp [same]
    · cases placed with
      | @intro k _ _ least grown =>
        exact noneFailed_recorded (noneFailed_stored (noneFailed_growth (s := Pmm.bitmap_set s k) core.none grown))
          BootMap.returns_zero
  · rintro e s' ⟨rfl, short⟩
    refine ⟨rfl, short.full, ?_⟩
    cases short with
    | noFrame => exact core.none
    | @noTable k _ least grown => exact noneFailed_growth (s := Pmm.bitmap_set s k) core.none grown

theorem kept_freed (root v pt f : UInt64) (s : State) : Kept s (freed root v pt f s) := by
  have unmapped : Kept s (recorded (.freeing f) (recorded (.unmapped root v 0)
    (recorded (.invlpg v) (stored pt (slot (pageOf v)) 0 s)))) := ⟨rfl, fun _ _ => rfl⟩
  exact unmapped.trans (kept_of_bitmapOnly (bitmapOnly_clear _ _))

theorem noneFailed_freed {root pt f : UInt64} (none : NoneFailed s₀ s) : NoneFailed s₀ (freed root v pt f s) := by
  intro pml4 u res member
  exact none pml4 u res (by simpa [freed, Pmm.bitmap_clear, State.setByte, recorded, stored] using member)

theorem leaf_freed {root pt f : UInt64} (tree : Tree root s) (reached : table root s (dir (pageOf v)) = some pt) {n : Nat}
    (hn : n < 2 ^ 36) : leaf root (freed root v pt f s) n = if n = pageOf v then none else leaf root s n := by
  have written : leaf root (freed root v pt f s) n = leaf root (stored pt (slot (pageOf v)) 0 s) n := rfl
  have absent : ¬ (0 : UInt64) &&& PAGE_PRESENT ≠ 0 := by decide
  rw [written, leaf_stored tree reached (pageOf_lt v) hn, if_neg absent]

theorem table_freed {root pt f : UInt64} (tree : Tree root s) (reached : table root s (dir (pageOf v)) = some pt)
    {q : List (Fin 512)} (short : q.length ≤ 3) : table root (freed root v pt f s) q = table root s q :=
  table_stored tree reached short

theorem within_freed {pt f : UInt64} (tree : Tree s.kernel_pml4 s)
    (reached : table s.kernel_pml4 s (dir (pageOf v)) = some pt) : Within {pageOf v} s (freed s.kernel_pml4 v pt f s) :=
  (within_stored (w := 0) tree rfl (pageOf_lt v) rfl .refl reached).trans (Within.of_frames rfl rfl)

/-- Freeing the frame of a page fails only when the page has none. -/
theorem core_free (core : Core s₀ sections filled s) (own : pageOf v ∈ ownPages) :
    Post (fun _ s' => pageOf v ∈ filled ∧ Core s₀ sections (filled \ {pageOf v}) s' ∧ Within {pageOf v} s s' ∧ Kept s s' ∧
        ∀ q, q.length ≤ 3 → table s.kernel_pml4 s' q = table s.kernel_pml4 s q)
      (fun e s' => e = .panic (.neverMapped v) ∧ s' = s ∧ pageOf v ∉ filled) (vmm_free_pages.free_frame v s) := by
  rcases free_frame_cases core.ledger core.reach own with ⟨w, pt, here, reached, runs⟩ | ⟨absent, runs⟩
  · rw [runs]
    have within := within_freed (f := w &&& PAGE_ADDR_MASK) core.ledger.tree reached
    refine ⟨(core.filled _ own).mp (by rw [here]; rfl), ⟨?_, core.offset, ?_, ?_, noneFailed_freed core.none⟩, within,
      kept_freed _ _ _ _ _, fun q short => table_freed core.ledger.tree reached short⟩
    · exact ledger_freed core.ledger own here reached
    · intro n hn outside
      have other : n ∉ ({pageOf v} : Set Nat) := fun same => outside (same ▸ own)
      rw [within.root, frameOf, within.leaves n hn other]
      exact core.fixed n hn outside
    · intro n mine
      rw [within.root, leaf_freed core.ledger.tree reached (core.ledger.bounded n mine)]
      by_cases same : n = pageOf v
      · simp [same]
      · rw [if_neg same, core.filled n mine]
        simp [same]
  · rw [runs]
    exact ⟨rfl, rfl, fun mapped => by have some := (core.filled _ own).mpr mapped; rw [absent] at some; cases some⟩

end

end Extron.OwnPages
