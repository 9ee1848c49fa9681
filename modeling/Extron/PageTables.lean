import Extron.Paging

/-!
Page tables as a radix tree of frames. A page is a number below 2^36, reached by
the three indices of its directory and its slot in the last table. `leaf` is the
present word of a page. As long as the tables form a tree whose frames are marked
as used, adding one table changes no leaf.
-/
namespace Extron.Paging
open Extron.RadixTree Extron.Multiboot Extron.Pmm Extron.Outcomes
set_option linter.unusedSimpArgs false

/-- The number of the page of an address: bits 12 to 47. -/
def pageOf (v : UInt64) : Nat := v.toNat / 4096 % 2 ^ 36

/-- The index that a page has `k` levels above the last table. -/
def index (k n : Nat) : Fin 512 := Fin.ofNat 512 (n / 512 ^ k)

/-- The indices that lead to the last table of a page. -/
def dir (n : Nat) : List (Fin 512) := [index 3 n, index 2 n, index 1 n]

/-- The index of a page in its last table. -/
def slot (n : Nat) : Fin 512 := index 0 n

/-- The table or frame that a word points to. -/
def link (w : UInt64) : Option UInt64 := if w &&& PAGE_PRESENT ≠ 0 then some (w &&& PAGE_ADDR_MASK) else none

/-- The present word of a page. -/
def leaf (root : UInt64) (s : State) (n : Nat) : Option UInt64 :=
  (word link s.frames root (dir n) (slot n)).filter fun w => w &&& PAGE_PRESENT ≠ 0

/-- The frame that a page maps to. -/
def frameOf (root : UInt64) (s : State) (n : Nat) : Option UInt64 := (leaf root s n).map (· &&& PAGE_ADDR_MASK)

/-- The table that a path reaches. -/
abbrev table (root : UInt64) (s : State) (q : List (Fin 512)) : Option UInt64 := descend link s.frames root q

/-! ## Indices and words -/

theorem pageOf_lt (v : UInt64) : pageOf v < 2 ^ 36 := Nat.mod_lt _ (by decide)

theorem index_eq {v s : UInt64} {k d : Nat} (shift : s.toNat % 64 = d) (level : 2 ^ d = 4096 * 512 ^ k) (low : k ≤ 3) :
    Fin.ofNat 512 ((v >>> s) &&& 0x1FF).toNat = index k (pageOf v) := by
  have field := Words.shift_mask v s 0x1FF (w := 9) shift (by decide)
  apply Fin.ext
  simp only [index, pageOf, Fin.val_ofNat, field, level]
  interval_cases k <;> omega

theorem PML4_IDX_eq (v : UInt64) : PML4_IDX v = index 3 (pageOf v) := index_eq (by decide) (d := 39) (by norm_num) (by decide)
theorem PDPT_IDX_eq (v : UInt64) : PDPT_IDX v = index 2 (pageOf v) := index_eq (by decide) (d := 30) (by norm_num) (by decide)
theorem PD_IDX_eq (v : UInt64) : PD_IDX v = index 1 (pageOf v) := index_eq (by decide) (d := 21) (by norm_num) (by decide)
theorem PT_IDX_eq (v : UInt64) : PT_IDX v = slot (pageOf v) := index_eq (by decide) (d := 12) (by norm_num) (by decide)

theorem val_index (k n : Nat) : (index k n).val = n / 512 ^ k % 512 := rfl

/-- Two pages with the same directory and slot are the same page. -/
theorem page_ext {n m : Nat} (hn : n < 2 ^ 36) (hm : m < 2 ^ 36) (sameDir : dir n = dir m) (sameSlot : slot n = slot m) :
    n = m := by
  simp only [dir, List.cons.injEq, and_true] at sameDir
  obtain ⟨third, second, first⟩ := sameDir
  have values := fun k (same : index k n = index k m) => congrArg Fin.val same
  have v3 := values 3 third
  have v2 := values 2 second
  have v1 := values 1 first
  have v0 := values 0 sameSlot
  simp only [val_index] at v3 v2 v1 v0
  norm_num at v3 v2 v1 v0
  omega

@[simp] theorem length_dir (n : Nat) : (dir n).length = 3 := rfl

theorem link_zero : link 0 = none := by decide

theorem link_eq_some {w t : UInt64} : link w = some t ↔ w &&& PAGE_PRESENT ≠ 0 ∧ w &&& PAGE_ADDR_MASK = t := by
  rw [link]
  split
  · rename_i present
    simp [present]
  · rename_i absent
    simp [absent]

theorem link_eq_none {w : UInt64} : link w = none ↔ w &&& PAGE_PRESENT = 0 := by
  rw [link]
  split
  · rename_i present
    simp [present]
  · rename_i absent
    simpa using absent

/-- Frames are what the address mask keeps. -/
theorem toNat_and_mask (w : UInt64) : (w &&& PAGE_ADDR_MASK).toNat = w.toNat % 2 ^ 52 / 4096 * 4096 :=
  Words.and_field w PAGE_ADDR_MASK (l := 12) (h := 52) (by decide) (by decide)

theorem mask_of_frame {a : UInt64} (aligned : a.toNat % 4096 = 0) (small : a.toNat < 2 ^ 52) : a &&& PAGE_ADDR_MASK = a := by
  apply UInt64.toNat_inj.mp
  rw [toNat_and_mask]
  omega

theorem mask_idem (w : UInt64) : w &&& PAGE_ADDR_MASK &&& PAGE_ADDR_MASK = w &&& PAGE_ADDR_MASK := by
  rw [UInt64.and_assoc, UInt64.and_self]

theorem present_or (a b : UInt64) (present : b &&& PAGE_PRESENT ≠ 0) : (a ||| b) &&& PAGE_PRESENT ≠ 0 := by
  rw [Words.or_and]
  exact Words.or_ne_zero_right _ present

/-- A word made of a frame and flags outside the mask points to the frame. -/
theorem link_or {a flags : UInt64} (present : flags &&& PAGE_PRESENT ≠ 0) (outside : flags &&& PAGE_ADDR_MASK = 0) :
    link ((a &&& PAGE_ADDR_MASK) ||| flags) = some (a &&& PAGE_ADDR_MASK) := by
  rw [link_eq_some]
  refine ⟨present_or _ _ present, ?_⟩
  rw [Words.or_and, mask_idem, outside, UInt64.or_zero]

/-- The word that `get_next_table` writes. -/
def tableWord (a : UInt64) : UInt64 := a ||| PAGE_PRESENT ||| PAGE_WRITE ||| PAGE_USER

/-- The word of a table is not a huge entry. -/
theorem flat_tableWord {a : UInt64} (aligned : a.toNat % 4096 = 0) : tableWord a &&& PAGE_HUGE = 0 := by
  have clear : a &&& PAGE_HUGE = 0 := by
    by_contra set
    rw [← ne_eq, Words.and_flag a PAGE_HUGE (k := 7) (by decide), Nat.testBit_eq_decide_div_mod_eq] at set
    simp at set
    omega
  rw [tableWord, Words.or_and, Words.or_and, Words.or_and, clear]
  decide

theorem link_tableWord {a : UInt64} (frame : a &&& PAGE_ADDR_MASK = a) : link (tableWord a) = some a := by
  have grouped : tableWord a = (a &&& PAGE_ADDR_MASK) ||| (PAGE_PRESENT ||| PAGE_WRITE ||| PAGE_USER) := by
    rw [frame, tableWord, UInt64.or_assoc, UInt64.or_assoc, UInt64.or_assoc]
  rw [grouped, link_or (by decide) (by decide), frame]

/-! ## Leaves -/

theorem leaf_of_table {root t : UInt64} {s : State} {n : Nat} (here : table root s (dir n) = some t) :
    leaf root s n = if s.frames t (slot n) &&& PAGE_PRESENT ≠ 0 then some (s.frames t (slot n)) else none := by
  rw [table] at here
  rw [leaf, word, here]
  simp [Option.filter]

theorem leaf_of_no_table {root : UInt64} {s : State} {n : Nat} (missing : table root s (dir n) = none) :
    leaf root s n = none := by
  rw [table] at missing
  rw [leaf, word, missing]
  rfl

theorem frameOf_eq_some {root : UInt64} {s : State} {n : Nat} {f : UInt64} :
    frameOf root s n = some f ↔ ∃ w, leaf root s n = some w ∧ w &&& PAGE_ADDR_MASK = f := by
  rw [frameOf, Option.map_eq_some_iff]

theorem frameOf_eq_none {root : UInt64} {s : State} {n : Nat} : frameOf root s n = none ↔ leaf root s n = none := by
  rw [frameOf, Option.map_eq_none_iff]

/-! ## Trees of tables -/

/-- The tables under a root form a tree of used frames without huge entries, and free
    frames are frames of physical memory other than frame 0. -/
structure Shape (root : UInt64) (s : State) : Prop where
  aligned : root.toNat % 4096 = 0
  memory : s.total_mem.toNat ≤ 2 ^ 52
  unshared : Unshared link s.frames root 3
  used : ∀ q t, q.length ≤ 3 → table root s q = some t → Marked s (addr_to_idx t)
  flat : ∀ q j w, q.length < 3 → word link s.frames root q j = some w → w &&& PAGE_PRESENT ≠ 0 → w &&& PAGE_HUGE = 0
  zeroTaken : ¬ Free s 0

/-- Moreover no table below the root lies at address 0, which the source takes for a
    missing table. -/
structure Tree (root : UInt64) (s : State) : Prop extends Shape root s where
  nonzero : ∀ q t, q ≠ [] → q.length ≤ 3 → table root s q = some t → t ≠ 0

/-- A blank root is a tree by itself. -/
theorem tree_of_blank {root : UInt64} {s : State} (aligned : root.toNat % 4096 = 0) (memory : s.total_mem.toNat ≤ 2 ^ 52)
    (blank : ∀ i, s.frames root i = 0) (used : Marked s (addr_to_idx root)) (zeroTaken : ¬ Free s 0) : Tree root s := by
  have only : ∀ q t, table root s q = some t → q = [] ∧ t = root := by
    intro q t reached
    cases q with
    | nil =>
      cases reached
      exact ⟨rfl, rfl⟩
    | cons i rest => simp [table, descend, blank i, link_zero] at reached
  refine ⟨⟨aligned, memory, ?_, ?_, ?_, zeroTaken⟩, ?_⟩
  · intro p q t _ _ reachedP reachedQ
    rw [(only p t reachedP).1, (only q t reachedQ).1]
  · intro q t _ reached
    rw [(only q t reached).2]
    exact used
  · intro q j w _ here present
    obtain ⟨t, reached, rfl⟩ := Option.map_eq_some_iff.mp here
    rw [(only q t reached).2, blank j] at present
    exact absurd (by decide : (0 : UInt64) &&& PAGE_PRESENT = 0) present
  · intro q t nonempty _ reached
    exact absurd (only q t reached).1 nonempty

/-- The frame that the next allocation takes. -/
structure Least (s : State) (k : UInt64) : Prop where
  free : Free s k
  least : ∀ j, Free s j → k ≤ j

/-- The state once a word is written. -/
def stored (t : UInt64) (i : Fin 512) (w : UInt64) (s : State) : State :=
  { s with frames := write s.frames t i w, journal := .store t i w :: s.journal }

/-- The state once a table is cleared. -/
def cleared (t : UInt64) (s : State) : State := { s with frames := blank s.frames t 0, journal := .zero t :: s.journal }

/-- The state once frame `k` is taken, cleared, and linked under a word. -/
def linked (t : UInt64) (i : Fin 512) (k : UInt64) (s : State) : State :=
  stored t i (tableWord (idx_to_addr k)) (cleared (idx_to_addr k) (bitmap_set s k))

section
variable {root t k : UInt64} {s : State} {p : List (Fin 512)} {i : Fin 512}

theorem frame_of_free (memory : s.total_mem.toNat ≤ 2 ^ 52) (free : Free s k) :
    idx_to_addr k &&& PAGE_ADDR_MASK = idx_to_addr k ∧ addr_to_idx (idx_to_addr k) = k ∧
      (idx_to_addr k).toNat = 4096 * k.toNat ∧ 4096 * k.toNat + 4096 ≤ s.total_mem.toNat := by
  have managed := free.1
  rw [UInt64.lt_iff_toNat_lt, addr_to_idx, UInt64.toNat_div, toNat_PAGE_SIZE] at managed
  have address : (idx_to_addr k).toNat = 4096 * k.toNat := by
    rw [idx_to_addr, UInt64.toNat_mul, toNat_PAGE_SIZE]
    omega
  refine ⟨mask_of_frame (by omega) (by omega), ?_, address, by omega⟩
  apply UInt64.toNat_inj.mp
  rw [addr_to_idx, UInt64.toNat_div, address, toNat_PAGE_SIZE]
  omega

/-- A free frame is not in the tree. -/
theorem Tree.fresh (tree : Tree root s) (free : Free s k) : Fresh link s.frames root 3 (idx_to_addr k) := by
  intro q short reached
  have used := tree.used q _ short reached
  rw [(frame_of_free tree.memory free).2.1] at used
  exact free.2 used

theorem leaf_cleared (tree : Tree root s) (free : Free s k) (n : Nat) :
    leaf root (cleared (idx_to_addr k) s) n = leaf root s n := by
  have same : word link (cleared (idx_to_addr k) s).frames root (dir n) (slot n) = word link s.frames root (dir n) (slot n) :=
    word_blank (tree.fresh free) (by simp)
  rw [leaf, leaf, same]

theorem marked_linked (j : UInt64) : Marked (linked t i k s) j ↔ j = k ∨ Marked s j := marked_set s k j

theorem free_linked (j : UInt64) : Free (linked t i k s) j ↔ Free s j ∧ j ≠ k := by
  have total : (linked t i k s).total_mem = s.total_mem := rfl
  rw [Free, Free, total, marked_linked, not_or]
  tauto

theorem table_under_unlinked (reached : table root s p = some t) (unlinked : link (s.frames t i) = none) :
    table root s (p ++ [i]) = none := by
  rw [table] at reached ⊢
  rw [descend_snoc, word, reached]
  exact unlinked

section
variable (tree : Tree root s) (reached : table root s p = some t) (short : p.length < 3)
  (unlinked : link (s.frames t i) = none) (free : Free s k)
include tree reached short unlinked free

theorem table_linked {q : List (Fin 512)} (bound : q.length ≤ 4) :
    table root (linked t i k s) q = if q = p ++ [i] then some (idx_to_addr k) else table root s q :=
  descend_grow tree.unshared reached short unlinked (tree.fresh free) link_zero
    (link_tableWord (frame_of_free tree.memory free).1) bound

theorem word_linked {q : List (Fin 512)} {j : Fin 512} (bound : q.length ≤ 3) :
    word link (linked t i k s).frames root q j = if q = p ++ [i] then some 0 else
      if q = p ∧ j = i then some (tableWord (idx_to_addr k)) else word link s.frames root q j :=
  word_grow tree.unshared reached short unlinked (tree.fresh free) link_zero
    (link_tableWord (frame_of_free tree.memory free).1) bound

theorem leaf_linked (n : Nat) : leaf root (linked t i k s) n = leaf root s n := by
  have grown := word_linked tree reached short unlinked free (q := dir n) (j := slot n) (by simp)
  have higher : ¬ (dir n = p ∧ slot n = i) := by
    rintro ⟨rfl, _⟩
    simp at short
  by_cases new : dir n = p ++ [i]
  · have missing : table root s (dir n) = none := by
      rw [new]
      exact table_under_unlinked reached unlinked
    rw [leaf_of_no_table missing, leaf, grown, if_pos new]
    decide
  · rw [leaf, leaf, grown, if_neg new, if_neg higher]

theorem tree_linked : Tree root (linked t i k s) := by
  obtain ⟨_, index, address, inside⟩ := frame_of_free tree.memory free
  have positive : k ≠ 0 := fun zero => tree.zeroTaken (zero ▸ free)
  refine ⟨⟨tree.aligned, tree.memory, ?_, ?_, ?_, ?_⟩, ?_⟩
  · exact unshared_grow tree.unshared reached short unlinked (tree.fresh free) link_zero
      (link_tableWord (frame_of_free tree.memory free).1)
  · intro q u bound here
    rw [table_linked tree reached short unlinked free (by omega)] at here
    rw [marked_linked]
    split at here
    · cases here
      exact .inl index
    · exact .inr (tree.used q u bound here)
  · intro q j w bound here present
    rw [word_linked tree reached short unlinked free (by omega)] at here
    split at here
    · cases here
      decide
    · split at here
      · cases here
        exact flat_tableWord (by omega)
      · exact tree.flat q j w bound here present
  · rw [free_linked]
    exact fun both => tree.zeroTaken both.1
  · intro q u nonempty bound here
    rw [table_linked tree reached short unlinked free (by omega)] at here
    split at here
    · cases here
      intro zero
      rw [zero] at index
      exact positive index.symm
    · exact tree.nonzero q u nonempty bound here

end
end

/-! ## Writes of leaves -/

section
variable {root t w : UInt64} {s : State} {n m : Nat} (tree : Tree root s) (reached : table root s (dir n) = some t)
include tree reached

theorem table_stored {q : List (Fin 512)} (bound : q.length ≤ 3) :
    table root (stored t (slot n) w s) q = table root s q :=
  descend_write_last tree.unshared reached rfl bound

theorem tree_stored : Tree root (stored t (slot n) w s) := by
  refine ⟨⟨tree.aligned, tree.memory, unshared_write_last tree.unshared reached rfl, ?_, ?_, tree.zeroTaken⟩, ?_⟩
  · intro q u bound here
    rw [table_stored tree reached bound] at here
    exact tree.used q u bound here
  · intro q j u bound here present
    have off : ¬ dir n ++ [slot n] <+: q ++ [j] := fun sub => by
      have := sub.length_le
      simp at this
      omega
    have kept : word link (stored t (slot n) w s).frames root q j = word link s.frames root q j :=
      word_write tree.unshared reached (by simp) (by omega) off
    rw [kept] at here
    exact tree.flat q j u bound here present
  · intro q u nonempty bound here
    rw [table_stored tree reached bound] at here
    exact tree.nonzero q u nonempty bound here

theorem leaf_stored (hn : n < 2 ^ 36) (hm : m < 2 ^ 36) :
    leaf root (stored t (slot n) w s) m =
      if m = n then (if w &&& PAGE_PRESENT ≠ 0 then some w else none) else leaf root s m := by
  by_cases same : m = n
  · subst same
    have here : table root (stored t (slot m) w s) (dir m) = some t := by rw [table_stored tree reached (by simp), reached]
    have word : (stored t (slot m) w s).frames t (slot m) = w := by simp [stored, write]
    rw [leaf_of_table here, word, if_pos rfl]
  · have off : ¬ dir n ++ [slot n] <+: dir m ++ [slot m] := by
      intro sub
      have whole : dir n ++ [slot n] = dir m ++ [slot m] := sub.eq_of_length (by simp)
      obtain ⟨sameDir, sameSlot⟩ := List.append_inj whole (by simp)
      exact same (page_ext hn hm sameDir (by simpa using sameSlot)).symm
    rw [if_neg same, leaf, leaf]
    have kept : word link (stored t (slot n) w s).frames root (dir m) (slot m) = word link s.frames root (dir m) (slot m) :=
      word_write tree.unshared reached (by simp) (by simp) off
    rw [kept]

end

end Extron.Paging
