import Extron.AddressSpace
import Extron.Library.Ownership

/-!
Who holds which frame. From the state that `init_pmm` leaves, every frame that is
taken is held by one holder: a page table of the tree, a page of the regions that
the kernel fills with frames of its own, or the function that is just passing it
on. Each step of the memory manager takes a frame, passes one on or gives one back.
-/
namespace Extron.Accounting
open Extron.RadixTree Extron.Pmm Extron.Paging Extron.AddressSpace Extron.Ownership Extron.Outcomes
set_option linter.unusedSimpArgs false

inductive Holder
  /-- The page table that a path reaches. -/
  | table (q : List (Fin 512))
  /-- A page that is mapped to its own frame. -/
  | page (n : Nat)
  /-- The function that took the frame and has not passed it on. -/
  | hand (k : UInt64)
deriving DecidableEq

/-- A holder has the frame with index `i`. -/
def Holds (root : UInt64) (own : Set Nat) (held : Set UInt64) (s : State) : Holder → UInt64 → Prop
  | .table q, i => q.length ≤ 3 ∧ ∃ t, table root s q = some t ∧ addr_to_idx t = i
  | .page n, i => n ∈ own ∧ ∃ f, frameOf root s n = some f ∧ addr_to_idx f = i
  | .hand k, i => k ∈ held ∧ i = k

/-- The tables are a tree, and each frame taken since `s₀` has one holder: a table, a
    page of `own`, or a hand. -/
structure Ledger (s₀ : State) (root : UInt64) (own : Set Nat) (held : Set UInt64) (s : State) : Prop where
  tree : Tree root s
  total : s.total_mem = s₀.total_mem
  zero : ¬ Free s₀ 0
  bounded : ∀ n ∈ own, n < 2 ^ 36
  accounts : Balanced (Free s₀) (Marked s₀) (Marked s) (Holds root own held s)

section
variable {s₀ s : State} {root t k w : UInt64} {own : Set Nat} {held : Set UInt64} {n : Nat}

theorem holds_only {h : Holder} {i j : UInt64} (first : Holds root own held s h i) (second : Holds root own held s h j) :
    i = j := by
  cases h with
  | table q =>
    obtain ⟨_, t, here, rfl⟩ := first
    obtain ⟨_, u, there, rfl⟩ := second
    rw [here] at there
    cases there
    rfl
  | page n =>
    obtain ⟨_, f, here, rfl⟩ := first
    obtain ⟨_, g, there, rfl⟩ := second
    rw [here] at there
    cases there
    rfl
  | hand k =>
    obtain ⟨_, rfl⟩ := first
    obtain ⟨_, rfl⟩ := second
    rfl

theorem fresh_of_free {i : UInt64} (free : Free s₀ i) : ¬ Marked s₀ i := free.2

/-- A frame that is free now was free at the start. -/
theorem Ledger.free_start (ledger : Ledger s₀ root own held s) (free : Free s k) : Free s₀ k := by
  refine ⟨?_, fun marked => free.2 ((ledger.accounts.used k).mpr (.inl marked))⟩
  rw [← ledger.total]
  exact free.1

theorem Ledger.holder_marked (ledger : Ledger s₀ root own held s) {h : Holder} (holds : Holds root own held s h k) :
    Marked s k :=
  (ledger.accounts.used k).mpr (.inr ⟨h, holds⟩)

/-! ## Taking a frame -/

theorem tree_set (tree : Tree root s) (k : UInt64) : Tree root (bitmap_set s k) := by
  refine ⟨⟨tree.aligned, tree.memory, tree.unshared, ?_, tree.flat, ?_⟩, tree.nonzero⟩
  · intro q t short reached
    exact (marked_set s k _).mpr (.inr (tree.used q t short reached))
  · intro free
    exact tree.zeroTaken ⟨free.1, fun marked => free.2 ((marked_set s k 0).mpr (.inr marked))⟩

theorem ledger_take (ledger : Ledger s₀ root own held s) (free : Free s k) :
    Ledger s₀ root own (insert k held) (bitmap_set s k) := by
  refine ⟨tree_set ledger.tree k, ledger.total, ledger.zero, ledger.bounded, ?_⟩
  refine ledger.accounts.take free.2 (ledger.free_start free) (marked_set s k) (g := .hand k) ?_
  intro h i
  cases h with
  | table q => simp only [Holds, reduceCtorEq, false_and, or_false]; rfl
  | page n => simp only [Holds, reduceCtorEq, false_and, or_false]; rfl
  | hand j =>
    simp only [Holds, Set.mem_insert_iff, Holder.hand.injEq]
    constructor
    · rintro ⟨rfl | member, rfl⟩
      · exact .inr ⟨rfl, rfl⟩
      · exact .inl ⟨member, rfl⟩
    · rintro (⟨member, rfl⟩ | ⟨rfl, rfl⟩)
      · exact ⟨.inr member, rfl⟩
      · exact ⟨.inl rfl, rfl⟩

theorem frameOf_linked {p : List (Fin 512)} {i : Fin 512} (tree : Tree root s) (reached : table root s p = some t)
    (short : p.length < 3) (unlinked : link (s.frames t i) = none) (free : Free s k) (n : Nat) :
    frameOf root (linked t i k s) n = frameOf root s n := by
  rw [frameOf, frameOf, leaf_linked tree reached short unlinked free]

theorem ledger_linked {p : List (Fin 512)} {i : Fin 512} (ledger : Ledger s₀ root own held s)
    (reached : table root s p = some t) (short : p.length < 3) (unlinked : link (s.frames t i) = none)
    (free : Free s k) : Ledger s₀ root own held (linked t i k s) := by
  have tree := ledger.tree
  refine ⟨tree_linked tree reached short unlinked free, ledger.total, ledger.zero, ledger.bounded, ?_⟩
  refine ledger.accounts.take free.2 (ledger.free_start free) marked_linked (g := .table (p ++ [i])) ?_
  intro h j
  cases h with
  | table q =>
    simp only [Holds, Holder.table.injEq]
    constructor
    · rintro ⟨bound, u, here, rfl⟩
      rw [table_linked tree reached short unlinked free (by omega)] at here
      split at here
      · rename_i new
        cases here
        exact .inr ⟨new, (frame_of_free tree.memory free).2.1⟩
      · exact .inl ⟨bound, u, here, rfl⟩
    · rintro (⟨bound, u, here, rfl⟩ | ⟨rfl, rfl⟩)
      · refine ⟨bound, u, ?_, rfl⟩
        rw [table_linked tree reached short unlinked free (by omega)]
        split
        · rename_i new
          have missing := table_under_unlinked reached unlinked
          rw [← new, here] at missing
          cases missing
        · exact here
      · refine ⟨by simp; omega, _, ?_, (frame_of_free tree.memory free).2.1⟩
        rw [table_linked tree reached short unlinked free (by simp; omega), if_pos rfl]
  | page n => simp only [Holds, frameOf_linked tree reached short unlinked free, reduceCtorEq, false_and, or_false]
  | hand j => simp only [Holds, reduceCtorEq, false_and, or_false]

theorem ledger_growth {path : List (Fin 512)} {s' : State} (ledger : Ledger s₀ root own held s) (three : path.length = 3)
    (grown : Growth root path s s') : Ledger s₀ root own held s' := by
  induction grown with
  | refl => exact ledger
  | link _ along reached unlinked least _ _ ih =>
    exact ledger_linked ih reached (short_of_along along three) unlinked least.free

theorem ledger_recorded {e : Event} (ledger : Ledger s₀ root own held s) : Ledger s₀ root own held (recorded e s) :=
  ⟨tree_recorded ledger.tree, ledger.total, ledger.zero, ledger.bounded, ledger.accounts⟩

/-! ## Passing a frame on -/

section
variable (ledger : Ledger s₀ root own held s) (reached : table root s (dir n) = some t) (hn : n < 2 ^ 36)
include ledger reached hn

omit hn in
theorem holds_table_stored {q : List (Fin 512)} {i : UInt64} {held' : Set UInt64} :
    Holds root own held' (stored t (slot n) w s) (.table q) i ↔ Holds root own held s (.table q) i := by
  simp only [Holds]
  refine and_congr_right fun bound => ?_
  rw [table_stored ledger.tree reached bound]

theorem frameOf_stored {m : Nat} (hm : m < 2 ^ 36) :
    frameOf root (stored t (slot n) w s) m = if m = n then link w else frameOf root s m := by
  rw [frameOf, leaf_stored ledger.tree reached hn hm]
  split
  · rw [link]
    split
    · rfl
    · rfl
  · rfl

/-- Writing the leaf of a page that is not accounted for changes no holder. -/
theorem ledger_store_other (other : n ∉ own) : Ledger s₀ root own held (stored t (slot n) w s) := by
  refine ⟨tree_stored ledger.tree reached, ledger.total, ledger.zero, ledger.bounded, ?_⟩
  refine ledger.accounts.congr (fun _ => Iff.rfl) ?_
  intro h i
  cases h with
  | table q => exact holds_table_stored ledger reached
  | page m =>
    simp only [Holds]
    refine and_congr_right fun member => ?_
    have different : m ≠ n := fun same => other (same ▸ member)
    rw [frameOf_stored ledger reached hn (ledger.bounded m member), if_neg different]
  | hand j => rfl

/-- Mapping an unmapped page to a frame in hand passes the frame to the page. -/
theorem ledger_place (mine : n ∈ own) (unmapped : frameOf root s n = none) (inHand : k ∈ held)
    (points : link w = some (idx_to_addr k)) : Ledger s₀ root own (held \ {k}) (stored t (slot n) w s) := by
  have memory : s₀.total_mem.toNat ≤ 2 ^ 52 := ledger.total ▸ ledger.tree.memory
  have free : Free s₀ k := ledger.accounts.usable (h := .hand k) ⟨inHand, rfl⟩
  have index := (frame_of_free memory free).2.1
  refine ⟨tree_stored ledger.tree reached, ledger.total, ledger.zero, ledger.bounded, ?_⟩
  refine ledger.accounts.pass (g := .hand k) (r := .page n) ⟨inHand, rfl⟩ (fun held => held.2) (fun _ => Iff.rfl) ?_
  intro h i
  cases h with
  | table q =>
    rw [holds_table_stored ledger reached]
    simp
  | page m =>
    simp only [Holds, ne_eq, reduceCtorEq, not_false_eq_true, and_true, Holder.page.injEq]
    constructor
    · rintro ⟨member, f, here, rfl⟩
      rw [frameOf_stored ledger reached hn (ledger.bounded m member)] at here
      split at here
      · rename_i same
        rw [points] at here
        cases here
        exact .inr ⟨same, index⟩
      · exact .inl ⟨member, f, here, rfl⟩
    · rintro (⟨member, f, here, rfl⟩ | ⟨rfl, rfl⟩)
      · refine ⟨member, f, ?_, rfl⟩
        have different : m ≠ n := by
          rintro rfl
          rw [unmapped] at here
          cases here
        rw [frameOf_stored ledger reached hn (ledger.bounded m member), if_neg different, here]
      · refine ⟨mine, _, ?_, index⟩
        rw [frameOf_stored ledger reached hn hn, if_pos rfl, points]
  | hand j =>
    simp only [Holds, Set.mem_sdiff, Set.mem_singleton_iff, ne_eq, Holder.hand.injEq, reduceCtorEq, false_and, or_false]
    tauto

/-- Unmapping a page takes its frame into hand. -/
theorem ledger_unmap {f : UInt64} (mine : n ∈ own) (here : frameOf root s n = some f) :
    Ledger s₀ root own (insert (addr_to_idx f) held) (stored t (slot n) 0 s) := by
  refine ⟨tree_stored ledger.tree reached, ledger.total, ledger.zero, ledger.bounded, ?_⟩
  have holds : Holds root own held s (.page n) (addr_to_idx f) := ⟨mine, f, here, rfl⟩
  refine ledger.accounts.pass (g := .page n) (r := .hand (addr_to_idx f)) holds (fun held => holds_only held holds)
    (fun _ => Iff.rfl) ?_
  intro h i
  cases h with
  | table q =>
    rw [holds_table_stored ledger reached]
    simp
  | page m =>
    simp only [Holds, ne_eq, Holder.page.injEq, reduceCtorEq, false_and, or_false]
    constructor
    · rintro ⟨member, g, there, rfl⟩
      rw [frameOf_stored ledger reached hn (ledger.bounded m member), link_zero] at there
      split at there
      · cases there
      · rename_i different
        exact ⟨⟨member, g, there, rfl⟩, different⟩
    · rintro ⟨⟨member, g, there, rfl⟩, different⟩
      refine ⟨member, g, ?_, rfl⟩
      rw [frameOf_stored ledger reached hn (ledger.bounded m member), if_neg different, there]
  | hand j =>
    simp only [Holds, Set.mem_insert_iff, ne_eq, reduceCtorEq, not_false_eq_true, and_true, Holder.hand.injEq]
    constructor
    · rintro ⟨rfl | member, rfl⟩
      · exact .inr ⟨rfl, rfl⟩
      · exact .inl ⟨member, rfl⟩
    · rintro (⟨member, rfl⟩ | ⟨rfl, rfl⟩)
      · exact ⟨.inr member, rfl⟩
      · exact ⟨.inl rfl, rfl⟩

end

/-! ## Giving a frame back -/

theorem ledger_release (ledger : Ledger s₀ root own held s) (inHand : k ∈ held) :
    Ledger s₀ root own (held \ {k}) (bitmap_clear s k) := by
  have mine : Holds root own held s (.hand k) k := ⟨inHand, rfl⟩
  have free : Free s₀ k := ledger.accounts.usable mine
  have tree := ledger.tree
  refine ⟨⟨⟨tree.aligned, tree.memory, tree.unshared, ?_, tree.flat, ?_⟩, tree.nonzero⟩, ledger.total, ledger.zero,
    ledger.bounded, ?_⟩
  · intro q t short reached
    rw [marked_clear]
    refine ⟨?_, tree.used q t short reached⟩
    intro same
    have holder : Holds root own held s (.table q) k := ⟨short, t, reached, same⟩
    cases ledger.accounts.single holder mine
  · rintro ⟨inside, clear⟩
    rw [marked_clear, not_and] at clear
    by_cases first : 0 = k
    · exact ledger.zero (first ▸ free)
    · exact tree.zeroTaken ⟨inside, clear first⟩
  · refine ledger.accounts.give fresh_of_free mine (fun held => held.2) (marked_clear s k) ?_
    intro h i
    cases h with
    | table q => simp only [Holds, ne_eq, reduceCtorEq, not_false_eq_true, and_true]; rfl
    | page n => simp only [Holds, ne_eq, reduceCtorEq, not_false_eq_true, and_true]; rfl
    | hand j =>
      simp only [Holds, Set.mem_sdiff, Set.mem_singleton_iff, ne_eq, Holder.hand.injEq]
      tauto

/-! ## What the ledger says of a page's frame -/

theorem Ledger.page_distinct (ledger : Ledger s₀ root own held s) {m : Nat} {f : UInt64} (hn : n ∈ own) (hm : m ∈ own)
    (here : frameOf root s n = some f) (there : frameOf root s m = some f) : n = m := by
  have same := ledger.accounts.single (h := .page n) (o := .page m) (i := addr_to_idx f) ⟨hn, f, here, rfl⟩
    ⟨hm, f, there, rfl⟩
  exact Holder.page.inj same

theorem Ledger.page_not_table (ledger : Ledger s₀ root own held s) {f : UInt64} {q : List (Fin 512)} (mine : n ∈ own)
    (here : frameOf root s n = some f) (short : q.length ≤ 3) : table root s q ≠ some f := by
  intro reached
  cases ledger.accounts.single (h := .page n) (o := .table q) (i := addr_to_idx f) ⟨mine, f, here, rfl⟩
    ⟨short, f, reached, rfl⟩

theorem Ledger.page_free_start (ledger : Ledger s₀ root own held s) {f : UInt64} (mine : n ∈ own)
    (here : frameOf root s n = some f) : Free s₀ (addr_to_idx f) :=
  ledger.accounts.usable (h := .page n) ⟨mine, f, here, rfl⟩

theorem Ledger.page_marked (ledger : Ledger s₀ root own held s) {f : UInt64} (mine : n ∈ own)
    (here : frameOf root s n = some f) : Marked s (addr_to_idx f) :=
  ledger.holder_marked (h := .page n) ⟨mine, f, here, rfl⟩

theorem Ledger.page_nonzero (ledger : Ledger s₀ root own held s) {f : UInt64} (mine : n ∈ own)
    (here : frameOf root s n = some f) : f ≠ 0 := by
  rintro rfl
  exact ledger.zero (ledger.page_free_start mine here)

end

end Extron.Accounting
