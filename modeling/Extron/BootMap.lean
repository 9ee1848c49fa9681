import Extron.BootJobs

/-!
What serving the jobs of `init_paging` leaves behind. Jobs are served up to the
first that asks for a page mapped to another frame; until then each page has the
word of the first job for it, and the tables are exactly those on the way to the
pages served, in the lowest frames that were free.
-/
namespace Extron.BootMap
open Extron.RadixTree Extron.Multiboot Extron.Pmm Extron.Paging Extron.AddressSpace Extron.Accounting Extron.BootJobs
open Extron.Outcomes Extron.Ownership
set_option linter.unusedSimpArgs false

/-- The arguments of a call of `map_page`. -/
structure Request where
  virt : UInt64
  phys : UInt64
  flags : UInt64
deriving DecidableEq

def Request.page (r : Request) : Nat := pageOf r.virt
def Request.word (r : Request) : UInt64 := (r.phys &&& PAGE_ADDR_MASK) ||| r.flags

/-- Flags of a present leaf outside the address mask. -/
def Request.Proper (r : Request) : Prop := r.flags &&& PAGE_PRESENT ≠ 0 ∧ r.flags &&& PAGE_ADDR_MASK = 0

/-- The word that the first request for a page writes. -/
def wordAt (rs : List Request) (n : Nat) : Option UInt64 := (rs.find? fun r => r.page = n).map Request.word

/-- The request asks for a page that was given another frame. -/
def Conflicts (rs : List Request) (r : Request) : Prop :=
  ∃ w ∈ wordAt rs r.page, w &&& PAGE_ADDR_MASK ≠ r.phys &&& PAGE_ADDR_MASK

instance (rs : List Request) (r : Request) : Decidable (Conflicts rs r) :=
  inferInstanceAs (Decidable (∃ w ∈ wordAt rs r.page, _))

/-- The requests that are served, up to the first that conflicts. -/
def settled (rs : List Request) : List Job → List Request
  | [] => rs
  | .spin :: _ => rs
  | .map virt phys flags _ :: rest =>
    if Conflicts rs ⟨virt, phys, flags⟩ then rs else settled (rs ++ [⟨virt, phys, flags⟩]) rest

/-- The paths of the tables that the requests need: the root and the three tables on
    the way to each page. -/
def pathsOf (rs : List Request) : Finset (List (Fin 512)) :=
  insert [] (rs.flatMap fun r => [(dir r.page).take 1, (dir r.page).take 2, dir r.page]).toFinset

theorem prefix_dir_iff {q : List (Fin 512)} {n : Nat} :
    q <+: dir n ↔ q = [] ∨ q = (dir n).take 1 ∨ q = (dir n).take 2 ∨ q = dir n := by
  constructor
  · intro sub
    obtain ⟨k, rfl⟩ : ∃ k, q = (dir n).take k := ⟨q.length, List.prefix_iff_eq_take.mp sub⟩
    match k with
    | 0 => exact .inl rfl
    | 1 => exact .inr (.inl rfl)
    | 2 => exact .inr (.inr (.inl rfl))
    | k + 3 => exact .inr (.inr (.inr (List.take_of_length_le (by simp))))
  · rintro (rfl | rfl | rfl | rfl)
    · exact List.nil_prefix
    · exact List.take_prefix _ _
    · exact List.take_prefix _ _
    · exact List.prefix_rfl

theorem mem_pathsOf {rs : List Request} {q : List (Fin 512)} :
    q ∈ pathsOf rs ↔ q = [] ∨ ∃ r ∈ rs, q <+: dir r.page := by
  simp only [pathsOf, Finset.mem_insert, List.mem_toFinset, List.mem_flatMap, List.mem_cons, List.not_mem_nil, or_false,
    prefix_dir_iff]
  constructor
  · rintro (root | ⟨r, member, path⟩)
    · exact .inl root
    · exact .inr ⟨r, member, .inr path⟩
  · rintro (root | ⟨r, member, root | path⟩)
    · exact .inl root
    · exact .inl root
    · exact .inr ⟨r, member, path⟩

theorem wordAt_snoc (rs : List Request) (r : Request) (n : Nat) :
    wordAt (rs ++ [r]) n = (wordAt rs n).or (if r.page = n then some r.word else none) := by
  rw [wordAt, wordAt, List.find?_append]
  cases rs.find? fun r => r.page = n with
  | some first => rfl
  | none =>
    by_cases here : r.page = n
    · simp [here]
    · simp [here]

/-! ## Growth of the boot tables -/

section
variable {s₀ s s' : State} {root : UInt64} {path : List (Fin 512)}

/-- All tables are in the window. -/
def Near (root : UInt64) (s : State) : Prop := ∀ q t, q.length ≤ 3 → table root s q = some t → Window s t

/-- The frames taken since `s₀` are the lowest that were free. -/
def LowestFirst (s₀ s : State) : Prop := ∀ i j, Marked s i → ¬ Marked s₀ i → Free s₀ j → j ≤ i → Marked s j

theorem near_growth (tree : Tree root s) (three : path.length = 3) (near : Near root s) (grown : Growth root path s s') :
    Near root s' := by
  induction grown with
  | refl => exact near
  | @link mid p i t k before along reached unlinked least _ frameNear ih =>
    intro q u short here
    rw [table_linked (tree_growth tree three before) reached (short_of_along along three) unlinked least.free
      (by omega)] at here
    split at here
    · cases here
      exact frameNear
    · exact ih q u short here

theorem lowestFirst_take {k : UInt64} (total : s.total_mem = s₀.total_mem) (lowest : LowestFirst s₀ s) (least : Least s k)
    (marked : ∀ i, Marked s' i ↔ i = k ∨ Marked s i) : LowestFirst s₀ s' := by
  intro i j now before free below
  rw [marked] at now ⊢
  by_cases already : Marked s j
  · exact .inr already
  · rcases now with rfl | old
    · have freeNow : Free s j := by
        refine ⟨?_, already⟩
        rw [total]
        exact free.1
      exact .inl (UInt64.le_antisymm below (least.least j freeNow))
    · exact .inr (lowest i j old before free below)

theorem offset_total_growth (grown : Growth root path s s') :
    s'.g_hhdm_offset = s.g_hhdm_offset ∧ s'.total_mem = s.total_mem := by
  induction grown with
  | refl => exact ⟨rfl, rfl⟩
  | link _ _ _ _ _ _ _ ih => exact ih

theorem lowestFirst_growth (total : s.total_mem = s₀.total_mem) (lowest : LowestFirst s₀ s)
    (grown : Growth root path s s') : LowestFirst s₀ s' := by
  induction grown with
  | refl => exact lowest
  | link before _ _ _ least _ _ ih =>
    exact lowestFirst_take ((offset_total_growth before).2.trans total) ih least marked_linked

end

/-! ## Serving -/

/-- What holds when the requests `rs` have been served. -/
structure Serving (s₀ : State) (root : UInt64) (own : Set Nat) (rs : List Request) (s : State) : Prop where
  ledger : Ledger s₀ root own ∅ s
  offset : s.g_hhdm_offset = s₀.g_hhdm_offset
  near : Near root s
  lowest : LowestFirst s₀ s
  none : NoneFailed s₀ s
  paths : ∀ q, q.length ≤ 3 → ((table root s q).isSome ↔ q ∈ pathsOf rs)
  leaves : ∀ n < 2 ^ 36, leaf root s n = wordAt rs n

/-- How serving `jobs` can stop, where `goal` lists the requests that are served before
    the first conflict: at that conflict or a loop that does not end, or earlier, on
    the way to a request, for want of a frame within reach. -/
inductive Ended (s₀ : State) (root : UInt64) (own : Set Nat) (jobs : List Job) (goal : List Request) :
    Halt → State → Prop
  | conflict {s : State} {res : Int32} {call : Int32 → Panic} {r : Request} (serving : Serving s₀ root own goal s)
      (clash : Conflicts goal r) (asked : .map r.virt r.phys r.flags call ∈ jobs) :
      Ended s₀ root own jobs goal (.panic (call res)) (recorded (.mapped root r.virt res) s)
  | spin {s : State} (serving : Serving s₀ root own goal s) (endless : .spin ∈ jobs) : Ended s₀ root own jobs goal .spin s
  | stuck {rs : List Request} {r : Request} {s s' : State} {e : Halt} (next : rs ++ [r] <+: goal)
      (serving : Serving s₀ root own rs s) (stuck : Stuck root (dir r.page) s e s') : Ended s₀ root own jobs goal e s'

theorem Ended.cons {s₀ s : State} {root : UInt64} {own : Set Nat} {jobs : List Job} {goal : List Request} {e : Halt}
    (job : Job) (ended : Ended s₀ root own jobs goal e s) : Ended s₀ root own (job :: jobs) goal e s := by
  cases ended with
  | conflict serving clash asked => exact .conflict serving clash (List.mem_cons_of_mem job asked)
  | spin serving endless => exact .spin serving (List.mem_cons_of_mem job endless)
  | stuck next serving stuck => exact .stuck next serving stuck

theorem settled_extends (jobs : List Job) (rs : List Request) : rs <+: settled rs jobs := by
  induction jobs generalizing rs with
  | nil => exact List.prefix_rfl
  | cons job rest ih =>
    cases job with
    | spin => exact List.prefix_rfl
    | map virt phys flags call =>
      rw [settled]
      split
      · exact List.prefix_rfl
      · exact (List.prefix_append rs _).trans (ih _)

section
variable {s₀ s : State} {root : UInt64} {own : Set Nat} {rs : List Request} {r : Request}

theorem serving_recorded {e : Event} (serving : Serving s₀ root own rs s)
    (fine : ∀ pml4 v res, e = .mapped pml4 v res → res = 0) : Serving s₀ root own rs (recorded e s) :=
  ⟨ledger_recorded serving.ledger, serving.offset, serving.near, serving.lowest, noneFailed_recorded serving.none fine,
    serving.paths, serving.leaves⟩

theorem returns_zero {pml4 v : UInt64} : ∀ pml4' v' res, Event.mapped pml4 v 0 = .mapped pml4' v' res → res = 0 := by
  rintro _ _ _ same
  cases same
  rfl

theorem table_of_leaf {n : Nat} {w : UInt64} (here : leaf root s n = some w) : ∃ t, table root s (dir n) = some t := by
  cases whole : table root s (dir n) with
  | some t => exact ⟨t, rfl⟩
  | none =>
    rw [leaf_of_no_table whole] at here
    cases here

/-- A request for a page that already has its frame changes nothing. -/
theorem serving_same (serving : Serving s₀ root own rs s) {w : UInt64} (here : leaf root s r.page = some w) :
    Serving s₀ root own (rs ++ [r]) s := by
  have served : wordAt rs r.page = some w := by rw [← serving.leaves r.page (pageOf_lt _), here]
  obtain ⟨t, reached⟩ := table_of_leaf here
  refine ⟨serving.ledger, serving.offset, serving.near, serving.lowest, serving.none, ?_, ?_⟩
  · intro q short
    rw [serving.paths q short, mem_pathsOf, mem_pathsOf]
    constructor
    · rintro (top | ⟨r', member, along⟩)
      · exact .inl top
      · exact .inr ⟨r', by simp [member], along⟩
    · rintro (top | ⟨r', member, along⟩)
      · exact .inl top
      · rcases List.mem_append.mp member with old | new
        · exact .inr ⟨r', old, along⟩
        · rw [List.mem_singleton.mp new] at along
          obtain ⟨more, split⟩ := along
          have present : (table root s q).isSome := descend_prefix (r := more) (by rw [split]; exact Option.isSome_iff_exists.mpr ⟨t, reached⟩)
          exact mem_pathsOf.mp ((serving.paths q short).mp present)
  · intro n hn
    rw [serving.leaves n hn, wordAt_snoc]
    by_cases here : r.page = n
    · subst here
      rw [served]
      rfl
    · rw [if_neg here, Option.or_none]

/-- A request for an unmapped page adds its tables and its word. -/
theorem serving_new (serving : Serving s₀ root own rs s) (proper : r.Proper) (foreign : r.page ∉ own) {mid : State}
    {pt : UInt64} (grown : Growth root (dir r.page) s mid) (reached : table root mid (dir r.page) = some pt)
    (free : leaf root s r.page = none) : Serving s₀ root own (rs ++ [r]) (stored pt (slot r.page) r.word mid) := by
  have tree := serving.ledger.tree
  have ledger := ledger_growth serving.ledger rfl grown
  have hn : r.page < 2 ^ 36 := pageOf_lt _
  have present : r.word &&& PAGE_PRESENT ≠ 0 := present_or _ _ proper.1
  refine ⟨ledger_store_other ledger reached hn foreign, (offset_total_growth grown).1.trans serving.offset, ?_, ?_,
    noneFailed_stored (noneFailed_growth serving.none grown), ?_, ?_⟩
  · intro q t short here
    rw [table_stored ledger.tree reached short] at here
    exact near_growth tree rfl serving.near grown q t short here
  · have lowest := lowestFirst_growth serving.ledger.total serving.lowest grown
    exact lowest
  · intro q short
    rw [table_stored ledger.tree reached short, mem_pathsOf]
    constructor
    · intro some
      obtain ⟨t, here⟩ := Option.isSome_iff_exists.mp some
      rcases table_growth_only tree rfl grown short here with old | along
      · rcases mem_pathsOf.mp ((serving.paths q short).mp (by rw [old]; rfl)) with top | ⟨r', member, along⟩
        · exact .inl top
        · exact .inr ⟨r', by simp [member], along⟩
      · exact .inr ⟨r, by simp, along⟩
    · rintro (rfl | ⟨r', member, along⟩)
      · rfl
      · rcases List.mem_append.mp member with old | new
        · have some := (serving.paths q short).mpr (mem_pathsOf.mpr (.inr ⟨r', old, along⟩))
          obtain ⟨t, here⟩ := Option.isSome_iff_exists.mp some
          rw [table_growth tree rfl grown short here]
          rfl
        · rw [List.mem_singleton.mp new] at along
          obtain ⟨more, split⟩ := along
          exact descend_prefix (r := more) (by rw [split]; exact Option.isSome_iff_exists.mpr ⟨pt, reached⟩)
  · intro n bound
    rw [leaf_stored ledger.tree reached hn bound, if_pos present, leaf_growth tree rfl grown, serving.leaves n bound,
      wordAt_snoc]
    by_cases here : r.page = n
    · subst here
      rw [serving.leaves r.page hn] at free
      rw [free, if_pos rfl]
      simp
    · rw [if_neg here, if_neg (Ne.symm here), Option.or_none]

/-- Where all tables are there and near, a walk does not stop. -/
theorem not_stuck {path : List (Fin 512)} {t : UInt64} {e : Halt} {s' : State} (three : path.length = 3)
    (near : Near root s) (whole : table root s path = some t) : ¬ Stuck root path s e s' := by
  have complete : ¬ Missing root path s := by
    rintro ⟨p, i, u, along, reached, unlinked⟩
    rw [table_none_below along (table_under_unlinked reached unlinked)] at whole
    cases whole
  intro stuck
  cases stuck with
  | outOfMemory grown missing => exact complete (growth_done grown whole ▸ missing)
  | @farTable _ p u grown along reached far =>
    have here := growth_done grown whole
    subst here
    have short := along.length_le
    exact far (near p u (by omega) reached)
  | farFrame grown missing => exact complete (growth_done grown whole ▸ missing)

/-- Serving jobs: all of them are served up to the first conflict, and an early stop has
    its reason on the way to a request. -/
theorem serve_post (jobs : List Job)
    (fine : ∀ virt phys flags call, Job.map virt phys flags call ∈ jobs →
      Request.Proper ⟨virt, phys, flags⟩ ∧ pageOf virt ∉ own)
    (serving : Serving s₀ root own rs s) :
    Post (fun _ => Serving s₀ root own (settled rs jobs)) (Ended s₀ root own jobs (settled rs jobs)) (serve root jobs s) := by
  induction jobs generalizing rs s with
  | nil => exact serving
  | cons job rest ih =>
    cases job with
    | spin => exact .spin serving (by simp)
    | map virt phys flags call =>
      obtain ⟨proper, foreign⟩ := fine virt phys flags call (by simp)
      have onward : ∀ {rs' s'}, Serving s₀ root own rs' s' → _ := fun {rs' s'} served =>
        (ih (fun v p f c member => fine v p f c (List.mem_cons_of_mem _ member)) served).mono
          (fun _ _ here => here) (fun _ _ ended => ended.cons (.map virt phys flags call))
      have hn : pageOf virt < 2 ^ 36 := pageOf_lt _
      apply post_bind
      apply post_bind
      by_cases clash : Conflicts rs ⟨virt, phys, flags⟩
      · have goal : settled rs (.map virt phys flags call :: rest) = rs := by rw [settled, if_pos clash]
        rw [goal]
        obtain ⟨w, served, different⟩ := id clash
        have leafNow : leaf root s (pageOf virt) = some w := by rw [serving.leaves _ hn]; exact served
        obtain ⟨t, whole⟩ := table_of_leaf leafNow
        refine (map_page_post serving.ledger.tree).mono ?_ ?_
        · rintro res _ ⟨mid, mapped, rfl⟩
          cases mapped with
          | same here frame =>
            rw [leafNow] at here
            cases here
            exact absurd frame different
          | other => exact .conflict (r := ⟨virt, phys, flags⟩) serving clash (by simp)
          | new _ _ free =>
            rw [leafNow] at free
            cases free
        · intro e s' stuck
          exact absurd stuck (not_stuck rfl serving.near whole)
      · have goal : settled rs (.map virt phys flags call :: rest) = settled (rs ++ [⟨virt, phys, flags⟩]) rest := by
          rw [settled, if_neg clash]
        rw [goal]
        refine (map_page_post serving.ledger.tree).mono ?_ ?_
        · rintro res _ ⟨mid, mapped, rfl⟩
          cases mapped with
          | same here _ => exact onward (serving_recorded (serving_same serving here) returns_zero)
          | other here frame =>
            rw [serving.leaves _ hn] at here
            exact absurd ⟨_, here, frame⟩ clash
          | new grown reached free =>
            exact onward (serving_recorded (serving_new (r := ⟨virt, phys, flags⟩) serving proper foreign grown reached free)
              returns_zero)
        · intro e s' stuck
          exact .stuck (settled_extends rest _) serving stuck

end

/-! ## The jobs of a boot -/

theorem mem_pageJobs {job : UInt64 → Job} {stop : UInt64} {rounds : Nat} {v : UInt64} {j : Job}
    (member : j ∈ pageJobs job stop rounds v) : j = .spin ∨ ∃ u, j = job u := by
  induction rounds generalizing v with
  | zero => exact .inl (by simpa [pageJobs] using member)
  | succ rounds ih =>
    rw [pageJobs] at member
    split at member
    · rcases List.mem_cons.mp member with rfl | later
      · exact .inr ⟨v, rfl⟩
      · exact ih later
    · cases member

theorem proper_section (sh : Elf64Shdr) (virt phys : UInt64) : Request.Proper ⟨virt, phys, section_flags sh⟩ := by
  show section_flags sh &&& PAGE_PRESENT ≠ 0 ∧ section_flags sh &&& PAGE_ADDR_MASK = 0
  simp only [section_flags]
  split
  · split
    · decide
    · decide
  · split
    · decide
    · decide

theorem proper_bootJobs {sections : List Elf64Shdr} {total_mem virt phys flags : UInt64} {call : Int32 → Panic}
    (member : Job.map virt phys flags call ∈ bootJobs sections total_mem) : Request.Proper ⟨virt, phys, flags⟩ := by
  rcases List.mem_append.mp member with elf | direct
  · obtain ⟨sh, _, inSection⟩ := List.mem_flatMap.mp elf
    rw [sectionJobs] at inSection
    split at inSection
    · rcases mem_pageJobs inSection with impossible | ⟨u, same⟩
      · cases impossible
      · cases same
        exact proper_section sh _ _
    · cases inSection
  · rcases mem_pageJobs direct with impossible | ⟨u, same⟩
    · cases impossible
    · cases same
      have flags : (PAGE_PRESENT ||| PAGE_WRITE ||| PAGE_NX) &&& PAGE_PRESENT ≠ 0 ∧
          (PAGE_PRESENT ||| PAGE_WRITE ||| PAGE_NX) &&& PAGE_ADDR_MASK = 0 := by decide
      exact flags

/-! ## The start -/

section
variable {s₀ : State} {k : UInt64} {own : Set Nat}

theorem table_rooted {q : List (Fin 512)} :
    table (idx_to_addr k) (rooted k s₀) q = if q = [] then some (idx_to_addr k) else none := by
  cases q with
  | nil => rfl
  | cons i rest =>
    have empty : (rooted k s₀).frames (idx_to_addr k) i = 0 := by simp [rooted, cleared, blank]
    simp [table, descend, empty, link_zero]

theorem leaf_rooted (n : Nat) : leaf (idx_to_addr k) (rooted k s₀) n = none := by
  apply leaf_of_no_table
  rw [table_rooted, if_neg (by simp [dir])]

theorem tree_rooted (memory : s₀.total_mem.toNat ≤ 2 ^ 52) (zero : ¬ Free s₀ 0) (free : Free s₀ k) :
    Tree (idx_to_addr k) (rooted k s₀) := by
  obtain ⟨_, index, address, _⟩ := frame_of_free memory free
  refine tree_of_blank (by omega) memory (fun i => by simp [rooted, cleared, blank]) ?_ ?_
  · rw [index]
    exact (marked_set s₀ k k).mpr (.inl rfl)
  · rintro ⟨inside, clear⟩
    exact zero ⟨inside, fun marked => clear ((marked_set s₀ k 0).mpr (.inr marked))⟩

theorem serving_rooted (own : Set Nat) (memory : s₀.total_mem.toNat ≤ 2 ^ 52) (zero : ¬ Free s₀ 0) (bounded : ∀ n ∈ own, n < 2 ^ 36)
    (least : Least s₀ k) (near : Window s₀ (idx_to_addr k)) : Serving s₀ (idx_to_addr k) own [] (rooted k s₀) := by
  have index := (frame_of_free memory least.free).2.1
  refine ⟨⟨tree_rooted memory zero least.free, rfl, zero, bounded, ?_⟩, rfl, ?_, ?_,
    noneFailed_cleared (s := bitmap_set s₀ k) (fun _ _ _ old => .inr old), ?_, ?_⟩
  · have nobody : Balanced (Free s₀) (Marked s₀) (Marked s₀) (fun (_ : Holder) _ => False) :=
      ⟨fun held => held.elim, fun held => held.elim, fun i => by simp⟩
    refine nobody.take least.free.2 least.free (marked_set s₀ k) (g := .table []) ?_
    intro h i
    cases h with
    | table q =>
      simp only [Holds, table_rooted, false_or, Holder.table.injEq]
      constructor
      · rintro ⟨_, t, here, rfl⟩
        split at here
        · rename_i top
          cases here
          exact ⟨top, index⟩
        · cases here
      · rintro ⟨rfl, rfl⟩
        exact ⟨by simp, _, rfl, index⟩
    | page n => simp [Holds, frameOf, leaf_rooted]
    | hand j => simp [Holds]
  · intro q t _ reached
    rw [table_rooted] at reached
    split at reached
    · cases reached
      exact near
    · cases reached
  · exact lowestFirst_take rfl (fun i j marked before => absurd marked before) least (marked_set s₀ k)
  · intro q _
    rw [table_rooted, mem_pathsOf]
    split
    · rename_i top
      simp [top]
    · rename_i below
      simp [below]
  · intro n _
    rw [leaf_rooted]
    rfl

end

end Extron.BootMap
