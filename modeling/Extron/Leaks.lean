import Extron.Heap

/-!
No frame leaks. Since the boot the frames taken are those of the heap pages whose bit
is set and those of the page tables of the heap, of which there are at most as many
as the heap has room for. An allocation that is freed again leaves nothing behind
but page tables.
-/
namespace Extron.Leaks
open Extron.Multiboot Extron.Format Extron.Pmm Extron.InitPmm Extron.FreeSet Extron.Paging Extron.AddressSpace
open Extron.Ownership Extron.Accounting Extron.BootJobs Extron.KernelMap Extron.Regions Extron.Vmm Extron.OwnPages
open Extron.Startup Extron.Heap Extron.Outcomes
set_option linter.unusedSimpArgs false

/-! ## What is counted -/

/-- The numbers below `m`. -/
def below (m : UInt64) : Finset UInt64 := (Finset.range m.toNat).image UInt64.ofNat

/-- The managed frames whose bit is set. -/
def usedFrames (s : State) : Finset UInt64 := (below (addr_to_idx s.total_mem)).filter (Marked s)

/-- The bits of the heap bitmap that are set. -/
def takenBits (s : State) : Finset UInt64 := (below (KERNEL_HEAP_SIZE / PAGE_SIZE)).filter (Taken s)

/-- The paths below the root that lead to heap pages. -/
def heapPaths : Finset (List (Fin 512)) :=
  {[384]} ∪ (Finset.range 128).image (fun a => [384, Fin.ofNat 512 a]) ∪
    (Finset.range 128 ×ˢ Finset.univ).image fun (a, b) => [384, Fin.ofNat 512 a, b]

/-- The frames of the page tables of the heap. -/
def heapTables (s : State) : Finset UInt64 :=
  (heapPaths.filter fun q => (table s.kernel_pml4 s q).isSome).image fun q => (table s.kernel_pml4 s q).getD 0

theorem mem_below {m i : UInt64} : i ∈ below m ↔ i < m := by
  rw [below, Finset.mem_image, UInt64.lt_iff_toNat_lt]
  constructor
  · rintro ⟨k, inside, rfl⟩
    rw [Finset.mem_range] at inside
    rw [UInt64.toNat_ofNat']
    exact lt_of_le_of_lt (Nat.mod_le _ _) inside
  · intro inside
    exact ⟨i.toNat, Finset.mem_range.mpr inside, UInt64.ofNat_toNat⟩

theorem mem_takenBits {s : State} {i : UInt64} : i ∈ takenBits s ↔ i.toNat < 2 ^ 25 ∧ Taken s i := by
  have total : (KERNEL_HEAP_SIZE / PAGE_SIZE).toNat = 2 ^ 25 := by decide
  rw [takenBits, Finset.mem_filter, mem_below, UInt64.lt_iff_toNat_lt, total]

/-- The directory of a page in the first quarter of a slot of the root. -/
theorem dir_slot {c i : Nat} (inside : i < 2 ^ 25) :
    dir (c * 2 ^ 27 + i) = [Fin.ofNat 512 c, Fin.ofNat 512 (i / 2 ^ 18), Fin.ofNat 512 (i / 512)] := by
  simp only [dir, List.cons.injEq, and_true]
  refine ⟨?_, ?_, ?_⟩
  · apply Fin.ext
    rw [val_index, Fin.val_ofNat]
    norm_num
    omega
  · apply Fin.ext
    rw [val_index, Fin.val_ofNat]
    norm_num
    omega
  · apply Fin.ext
    rw [val_index, Fin.val_ofNat]
    norm_num
    omega

/-- The paths below the root that lead to the first quarter of a slot. -/
def slotPaths (c : Fin 512) : Finset (List (Fin 512)) :=
  {[c]} ∪ (Finset.range 128).image (fun a => [c, Fin.ofNat 512 a]) ∪
    (Finset.range 128 ×ˢ Finset.univ).image fun (a, b) => [c, Fin.ofNat 512 a, b]

theorem heapPaths_eq : heapPaths = slotPaths 384 := rfl

theorem mem_slotPaths {c : Nat} {q : List (Fin 512)} :
    q ∈ slotPaths (Fin.ofNat 512 c) ↔ q ≠ [] ∧ q.length ≤ 3 ∧ ∃ i < 2 ^ 25, q <+: dir (c * 2 ^ 27 + i) := by
  simp only [slotPaths, Finset.mem_union, Finset.mem_singleton, Finset.mem_image, Finset.mem_range, Finset.mem_product,
    Finset.mem_univ, and_true, Prod.exists]
  constructor
  · rintro ((rfl | ⟨a, small, rfl⟩) | ⟨a, b, small, rfl⟩)
    · refine ⟨by simp, by simp, 0, by decide, ?_⟩
      rw [dir_slot (by decide)]
      exact ⟨_, rfl⟩
    · refine ⟨by simp, by simp, a * 2 ^ 18, by omega, ?_⟩
      rw [dir_slot (by omega), Nat.mul_div_cancel _ (by decide)]
      exact ⟨_, rfl⟩
    · refine ⟨by simp, by simp, a * 2 ^ 18 + b.val * 512, by omega, ?_⟩
      have upper : (a * 2 ^ 18 + b.val * 512) / 2 ^ 18 = a := by omega
      have lower : (Fin.ofNat 512 ((a * 2 ^ 18 + b.val * 512) / 512) : Fin 512) = b := by
        apply Fin.ext
        rw [Fin.val_ofNat]
        omega
      rw [dir_slot (by omega), upper, lower]
  · rintro ⟨nonempty, short, i, small, along⟩
    rw [dir_slot small] at along
    rcases q with _ | ⟨x, _ | ⟨y, _ | ⟨z, rest⟩⟩⟩
    · exact absurd rfl nonempty
    · obtain ⟨rfl, _⟩ := List.cons_prefix_cons.mp along
      exact .inl (.inl rfl)
    · obtain ⟨rfl, second⟩ := List.cons_prefix_cons.mp along
      obtain ⟨rfl, _⟩ := List.cons_prefix_cons.mp second
      exact .inl (.inr ⟨i / 2 ^ 18, by omega, rfl⟩)
    · obtain ⟨rfl, second⟩ := List.cons_prefix_cons.mp along
      obtain ⟨rfl, third⟩ := List.cons_prefix_cons.mp second
      obtain ⟨rfl, _⟩ := List.cons_prefix_cons.mp third
      have done : rest = [] := by
        apply List.length_eq_zero_iff.mp
        simp at short
        omega
      rw [done]
      exact .inr ⟨i / 2 ^ 18, _, by omega, rfl⟩

theorem mem_heapPaths {q : List (Fin 512)} :
    q ∈ heapPaths ↔ q ≠ [] ∧ q.length ≤ 3 ∧ ∃ n ∈ heapPages, q <+: dir n := by
  rw [heapPaths_eq]
  refine (mem_slotPaths (c := 384)).trans (and_congr_right fun _ => and_congr_right fun _ => ?_)
  constructor
  · rintro ⟨i, small, along⟩
    exact ⟨heapPage i, heapPage_mem small, along⟩
  · rintro ⟨n, heap, along⟩
    obtain ⟨i, small, rfl⟩ := mem_heapPages_iff.mp heap
    exact ⟨i.toNat, small, along⟩

/-- The first quarter of a slot has room for one table of the second level, 128 of the
    third and 65536 of the last. -/
theorem card_slotPaths (c : Fin 512) : (slotPaths c).card ≤ 1 + 128 + 65536 := by
  refine (Finset.card_union_le _ _).trans (Nat.add_le_add ((Finset.card_union_le _ _).trans (Nat.add_le_add ?_ ?_)) ?_)
  · rw [Finset.card_singleton]
  · exact Finset.card_image_le.trans (by rw [Finset.card_range])
  · exact Finset.card_image_le.trans (by rw [Finset.card_product, Finset.card_range, Finset.card_univ, Fintype.card_fin])

theorem card_heapPaths : heapPaths.card ≤ 1 + 128 + 65536 := card_slotPaths 384

-- membership in the paths is not to be evaluated
attribute [local irreducible] heapPaths slotPaths

theorem card_heapTables (s : State) : (heapTables s).card ≤ 1 + 128 + 65536 :=
  Finset.card_image_le.trans ((Finset.card_filter_le _ _).trans card_heapPaths)

theorem mem_heapTables {s : State} {t : UInt64} :
    t ∈ heapTables s ↔ ∃ q ∈ heapPaths, table s.kernel_pml4 s q = some t := by
  simp only [heapTables, Finset.mem_image, Finset.mem_filter]
  constructor
  · rintro ⟨q, ⟨member, here⟩, rfl⟩
    obtain ⟨t, reached⟩ := Option.isSome_iff_exists.mp here
    exact ⟨q, member, by rw [reached]; rfl⟩
  · rintro ⟨q, member, reached⟩
    exact ⟨q, ⟨member, by rw [reached]; rfl⟩, by rw [reached]; rfl⟩

/-! ## New holders -/

/-- The frame that a holder has, by index. -/
def item (s : State) : Holder → UInt64
  | .table q => addr_to_idx ((table s.kernel_pml4 s q).getD 0)
  | .page n => addr_to_idx ((frameOf s.kernel_pml4 s n).getD 0)
  | .hand k => k

section
variable {s₀ start s : State} {sections : List Elf64Shdr}

/-- When nothing was given up, the frames that are new in use are those of new holders. -/
theorem balanced_since (before : AtRest s₀ sections start) (after : AtRest s₀ sections s)
    (root : s.kernel_pml4 = start.kernel_pml4)
    (tables : ∀ q t, q.length ≤ 3 → table start.kernel_pml4 start q = some t → table start.kernel_pml4 s q = some t)
    (pages : ∀ n ∈ ownPages, ∀ f, frameOf start.kernel_pml4 start n = some f → frameOf start.kernel_pml4 s n = some f) :
    Balanced (fun i => Free s₀ i ∧ ¬ Marked start i) (Marked start) (Marked s) fun h i =>
      Holds start.kernel_pml4 ownPages ∅ s h i ∧ ¬ Holds start.kernel_pml4 ownPages ∅ start h i := by
  have ledger := after.core.ledger
  rw [root] at ledger
  refine before.core.ledger.accounts.since ledger.accounts fresh_of_free ?_
  intro h i held
  cases h with
  | table q =>
    obtain ⟨short, t, here, rfl⟩ := held
    exact ⟨short, t, tables q t short here, rfl⟩
  | page n =>
    obtain ⟨own, f, here, rfl⟩ := held
    exact ⟨own, f, pages n own f here, rfl⟩
  | hand k => exact held

/-- The tables of the heap and the heap pages whose bit is set. -/
def heapHolders (s : State) : Finset Holder :=
  (heapPaths.filter fun q => (table s.kernel_pml4 s q).isSome).image Holder.table ∪
    (takenBits s).image fun i => Holder.page (heapPage i.toNat)

theorem card_heapHolders (tree : Tree s.kernel_pml4 s) :
    (heapHolders s).card = (takenBits s).card + (heapTables s).card := by
  have apart : Disjoint ((heapPaths.filter fun q => (table s.kernel_pml4 s q).isSome).image Holder.table)
      ((takenBits s).image fun i => Holder.page (heapPage i.toNat)) := by
    rw [Finset.disjoint_left]
    intro h first second
    obtain ⟨q, _, rfl⟩ := Finset.mem_image.mp first
    obtain ⟨i, _, impossible⟩ := Finset.mem_image.mp second
    cases impossible
  have pages : Set.InjOn (fun i : UInt64 => Holder.page (heapPage i.toNat)) (takenBits s) := by
    intro i _ j _ same
    have values := Holder.page.inj same
    rw [heapPage, heapPage] at values
    exact UInt64.toNat_inj.mp (by omega)
  have frames : Set.InjOn (fun q => (table s.kernel_pml4 s q).getD 0)
      (heapPaths.filter fun q => (table s.kernel_pml4 s q).isSome) := by
    intro p memberP q memberQ same
    obtain ⟨pathP, someP⟩ := Finset.mem_filter.mp memberP
    obtain ⟨pathQ, someQ⟩ := Finset.mem_filter.mp memberQ
    obtain ⟨t, reachedP⟩ := Option.isSome_iff_exists.mp someP
    obtain ⟨u, reachedQ⟩ := Option.isSome_iff_exists.mp someQ
    simp only [reachedP, reachedQ, Option.getD_some] at same
    exact tree.unshared p q t (mem_heapPaths.mp pathP).2.1 (mem_heapPaths.mp pathQ).2.1 reachedP (same ▸ reachedQ)
  rw [heapHolders, Finset.card_union_of_disjoint apart, Finset.card_image_of_injective _ (fun _ _ => Holder.table.inj),
    Finset.card_image_of_injOn pages, heapTables, Finset.card_image_of_injOn frames, Nat.add_comm]

/-- Since the boot the tables of the heap and its mapped pages are the new holders. -/
theorem new_holders (booted : Booted s₀ sections start) (rest : AtRest s₀ sections s) (within : Within heapPages start s)
    {h : Holder} {i : UInt64} :
    (Holds start.kernel_pml4 ownPages ∅ s h i ∧ ¬ Holds start.kernel_pml4 ownPages ∅ start h i) ↔
      h ∈ heapHolders s ∧ i = item s h := by
  have root := within.root
  cases h with
  | table q =>
    simp only [heapHolders, Finset.mem_union, Finset.mem_image, Finset.mem_filter, Holder.table.injEq, reduceCtorEq,
      and_false, exists_false, or_false, exists_eq_right, item, root]
    constructor
    · rintro ⟨⟨short, t, here, rfl⟩, new⟩
      rcases within.only q t short here with old | ⟨n, heap, along⟩
      · exact absurd ⟨short, t, old, rfl⟩ new
      · have nonempty : q ≠ [] := by
          rintro rfl
          exact new ⟨short, t, here, rfl⟩
        rw [here]
        exact ⟨⟨mem_heapPaths.mpr ⟨nonempty, short, n, heap, along⟩, rfl⟩, rfl⟩
    · rintro ⟨⟨path, here⟩, rfl⟩
      obtain ⟨nonempty, short, n, heap, along⟩ := mem_heapPaths.mp path
      obtain ⟨t, reached⟩ := Option.isSome_iff_exists.mp here
      rw [reached]
      refine ⟨⟨short, t, reached, rfl⟩, ?_⟩
      rintro ⟨_, u, old, _⟩
      exact booted.heapless q u nonempty short old n heap along
  | page n =>
    simp only [heapHolders, Finset.mem_union, Finset.mem_image, Finset.mem_filter, Holder.page.injEq, reduceCtorEq,
      and_false, exists_false, false_or, item, root, mem_takenBits]
    constructor
    · rintro ⟨⟨own, f, here, rfl⟩, new⟩
      have heap : n ∈ heapPages := by
        by_contra other
        refine new ⟨own, f, ?_, rfl⟩
        rw [frameOf, ← within.leaves n (rest.core.ledger.bounded n own) other]
        exact here
      obtain ⟨j, small, rfl⟩ := mem_heapPages_iff.mp heap
      obtain ⟨w, leaf, _⟩ := frameOf_eq_some.mp here
      have taken := (mapped_iff_taken rest.core small).mp (by rw [root, leaf]; rfl)
      exact ⟨⟨j, ⟨small, taken⟩, rfl⟩, by rw [here]; rfl⟩
    · rintro ⟨⟨j, ⟨small, set⟩, rfl⟩, rfl⟩
      have own := heapPage_own small
      have mapped := (mapped_iff_taken rest.core small).mpr set
      rw [root] at mapped
      obtain ⟨w, leaf⟩ := Option.isSome_iff_exists.mp mapped
      have frame := frameOf_of_leaf leaf
      refine ⟨⟨own, _, frame, by rw [frame]; rfl⟩, ?_⟩
      rintro ⟨_, f, old, _⟩
      obtain ⟨w, leaf, _⟩ := frameOf_eq_some.mp old
      exact booted.unused j small ((mapped_iff_taken booted.rest.core small).mp (by rw [leaf]; rfl))
  | hand k => simp [heapHolders, Holds]

/-- The frames used since the boot are those of the heap's pages and tables. -/
theorem card_usedFrames (booted : Booted s₀ sections start) (rest : AtRest s₀ sections s)
    (within : Within heapPages start s) :
    (usedFrames s).card = (usedFrames start).card + (takenBits s).card + (heapTables s).card := by
  have old : ∀ n ∈ ownPages, ∀ f, frameOf start.kernel_pml4 start n = some f →
      frameOf start.kernel_pml4 s n = some f := by
    intro n own f here
    have outside : n ∉ heapPages := by
      intro heap
      obtain ⟨j, small, rfl⟩ := mem_heapPages_iff.mp heap
      obtain ⟨w, leaf, _⟩ := frameOf_eq_some.mp here
      exact booted.unused j small ((mapped_iff_taken booted.rest.core small).mp (by rw [leaf]; rfl))
    rw [frameOf, within.leaves n (rest.core.ledger.bounded n own) outside]
    exact here
  have total : s.total_mem = start.total_mem := rest.core.ledger.total.trans booted.rest.core.ledger.total.symm
  have accounts := balanced_since booted.rest rest within.root within.tables old
  have managed : ∀ {h}, h ∈ heapHolders s → item s h ∈ below (addr_to_idx s.total_mem) := by
    intro h member
    have usable := accounts.usable ((new_holders booted rest within).mpr ⟨member, rfl⟩)
    rw [mem_below, rest.core.ledger.total]
    exact usable.1.1
  have counted := accounts.card (fun usable => usable.2) (below (addr_to_idx s.total_mem)) (heapHolders s) (item s)
    (new_holders booted rest within) managed
  rw [card_heapHolders rest.core.ledger.tree] at counted
  rw [usedFrames, counted, usedFrames, total, Nat.add_assoc]

end

/-! ## An allocation that is freed -/

theorem bitmap_ext {s s' : State} (same : ∀ i, Taken s' i ↔ Taken s i) {k : UInt64} (small : k.toNat < 2 ^ 61) :
    s'.vmm_bitmap k = s.vmm_bitmap k := by
  apply ByteBitmap.byte_ext
  intro j inside
  have index : (UInt64.ofNat (8 * k.toNat + j)).toNat = 8 * k.toNat + j := by
    rw [UInt64.toNat_ofNat']
    omega
  have byte : (8 * k.toNat + j) / 8 = k.toNat := by omega
  have position : (8 * k.toNat + j) % 8 = j := by omega
  have bit := same (UInt64.ofNat (8 * k.toNat + j))
  rw [taken_iff_bit, taken_iff_bit, ByteBitmap.Bit, ByteBitmap.Bit, index, byte, position, UInt64.ofNat_toNat] at bit
  exact Bool.eq_iff_iff.mpr bit

/-- An allocation from `s` to `s₁` is undone in `s₂`, but for the page tables it added. -/
structure Undone (s s₁ s₂ : State) : Prop where
  bitmap : ∀ k : UInt64, k < KERNEL_HEAP_BITMAP_SIZE → s₂.vmm_bitmap k = s.vmm_bitmap k
  pages : ∀ v, leaf s₂.kernel_pml4 s₂ (pageOf v) = leaf s.kernel_pml4 s (pageOf v)
  used : ∀ i, Marked s₂ i ↔ Marked s i ∨ ∃ t ∈ heapTables s₁ \ heapTables s, i = addr_to_idx t

section
variable {s₀ s s₁ : State} {sections : List Elf64Shdr} {n v a : UInt64}

theorem bits_undone {s₂ : State} (allocated : Allocated s₀ sections n a s s₁) (freeing : Freeing s₀ sections a s₁ n.toNat s₂)
    (j : UInt64) : Taken s₂ j ↔ Taken s j := by
  rw [freeing.bits, allocated.bits]
  constructor
  · rintro ⟨old | range, outside⟩
    · exact old
    · exact absurd range outside
  · intro old
    exact ⟨.inl old, fun range => allocated.gap.clear j range.1 range.2 old⟩

theorem pages_undone {s₂ : State} (rest : AtRest s₀ sections s) (allocated : Allocated s₀ sections n a s s₁)
    (freeing : Freeing s₀ sections a s₁ n.toNat s₂) {m : Nat} (hm : m < 2 ^ 36) :
    leaf s.kernel_pml4 s₂ m = leaf s.kernel_pml4 s m := by
  have high := allocated.gap.high
  have root₁ := allocated.within.root
  have root₂ : s₂.kernel_pml4 = s.kernel_pml4 := freeing.within.root.trans root₁
  by_cases inside : m ∈ pagesFrom a.toNat n.toNat
  · obtain ⟨j, small, rfl⟩ := mem_heapPages_iff.mp (pagesFrom_heap high inside)
    rw [pagesFrom, Set.mem_Ico, heapPage, heapPage, heapPage] at inside
    have unset := allocated.gap.clear j (by omega) (by omega)
    have before := unmapped_of_clear rest.core small unset
    have after := unmapped_of_clear (freeing.rest allocated.rest).core small
      (fun set => unset ((bits_undone allocated freeing j).mp set))
    rw [root₂] at after
    rw [before, after]
  · have second := freeing.within.leaves m hm inside
    rw [root₁] at second
    rw [second, allocated.within.leaves m hm inside]

theorem tables_undone {s₂ : State} (allocated : Allocated s₀ sections n a s s₁) (freeing : Freeing s₀ sections a s₁ n.toNat s₂)
    {q : List (Fin 512)} (short : q.length ≤ 3) : table s.kernel_pml4 s₂ q = table s.kernel_pml4 s₁ q := by
  have same := freeing.tables q short
  rw [allocated.within.root] at same
  exact same

/-- The frames that stay used are those of the tables that the allocation added. -/
theorem used_undone {s₂ : State} (rest : AtRest s₀ sections s) (allocated : Allocated s₀ sections n a s s₁)
    (freeing : Freeing s₀ sections a s₁ n.toNat s₂) (i : UInt64) :
    Marked s₂ i ↔ Marked s i ∨ ∃ t ∈ heapTables s₁ \ heapTables s, i = addr_to_idx t := by
  have high := allocated.gap.high
  have root₁ := allocated.within.root
  have pages := fun {m} => pages_undone (m := m) rest allocated freeing
  have tables := fun {q} => tables_undone (q := q) allocated freeing
  have accounts := balanced_since rest (freeing.rest allocated.rest) (freeing.within.root.trans root₁)
    (fun q t short here => by rw [tables short]; exact allocated.within.tables q t short here)
    (fun m own f here => by rw [frameOf, pages (rest.core.ledger.bounded m own)]; exact here)
  rw [accounts.used]
  apply or_congr_right
  simp only [Finset.mem_sdiff, mem_heapTables, root₁]
  constructor
  · rintro ⟨h, now, new⟩
    cases h with
    | table q =>
      obtain ⟨short, t, here, rfl⟩ := now
      rw [tables short] at here
      refine ⟨t, ⟨⟨q, ?_, here⟩, ?_⟩, rfl⟩
      · rcases allocated.within.only q t short here with old | ⟨m, inside, along⟩
        · exact absurd ⟨short, t, old, rfl⟩ new
        · refine mem_heapPaths.mpr ⟨?_, short, m, pagesFrom_heap high inside, along⟩
          rintro rfl
          exact new ⟨short, t, here, rfl⟩
      · rintro ⟨p, path, old⟩
        have shortP := (mem_heapPaths.mp path).2.1
        have treeMid := allocated.rest.core.ledger.tree
        rw [root₁] at treeMid
        have same := treeMid.unshared p q t shortP short (allocated.within.tables p t shortP old) here
        exact new ⟨short, t, same ▸ old, rfl⟩
    | page m =>
      obtain ⟨own, f, here, rfl⟩ := now
      rw [frameOf, pages (rest.core.ledger.bounded m own)] at here
      exact absurd ⟨own, f, here, rfl⟩ new
    | hand k => exact absurd now new
  · rintro ⟨t, ⟨⟨q, path, here⟩, new⟩, rfl⟩
    have short := (mem_heapPaths.mp path).2.1
    refine ⟨.table q, ⟨short, t, by rw [tables short]; exact here, rfl⟩, ?_⟩
    rintro ⟨_, u, old, _⟩
    have still := allocated.within.tables q u short old
    rw [here] at still
    cases still
    exact new ⟨q, path, old⟩

theorem undone_of_freeing (rest : AtRest s₀ sections s) (allocated : Allocated s₀ sections n a s s₁) {s₂ : State}
    (freeing : Freeing s₀ sections a s₁ n.toNat s₂) : Undone s s₁ s₂ := by
  refine ⟨?_, ?_, used_undone rest allocated freeing⟩
  · intro k inside
    rw [UInt64.lt_iff_toNat_lt, toNat_KERNEL_HEAP_BITMAP_SIZE] at inside
    exact bitmap_ext (bits_undone allocated freeing) (by omega)
  · intro v
    rw [freeing.within.root.trans allocated.within.root, pages_undone rest allocated freeing (pageOf_lt v)]

/-- The pages of an allocation can be freed. -/
theorem free_allocated (allocated : Allocated s₀ sections n a s s₁) :
    ∃ s₂, vmm_free_pages (KERNEL_HEAP_START + a * PAGE_SIZE) n s₁ = .ok 0 s₂ ∧ Freeing s₀ sections a s₁ n.toNat s₂ := by
  have high := allocated.gap.high
  obtain ⟨r, s₂, runs, rfl, freeing⟩ := ((vmm_free_pages_post allocated.rest high).mono (fun _ _ here => here) (by
    rintro e s₂ ⟨k, inside, unmet⟩
    have index := toNat_offset (a := a) (k := k) (by omega)
    exact unmet.clear ((allocated.bits _).mpr (.inr (by omega))))).returns
  exact ⟨s₂, runs, freeing⟩

/-- What an allocation took, its release gives back. -/
theorem alloc_undone (rest : AtRest s₀ sections s) (ran : vmm_alloc_pages n s = .ok v s₁) :
    ∃ s₂, vmm_free_pages v n s₁ = .ok 0 s₂ ∧ Undone s s₁ s₂ := by
  have some : n ≠ 0 := by
    rintro rfl
    rw [vmm_alloc_pages_zero rest] at ran
    cases ran
  obtain ⟨a, rfl, _, allocated⟩ := (vmm_alloc_pages_post rest some).of_ok ran
  obtain ⟨s₂, runs, freeing⟩ := free_allocated allocated
  exact ⟨s₂, runs, undone_of_freeing rest allocated freeing⟩

end

end Extron.Leaks
