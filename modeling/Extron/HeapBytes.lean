import Extron.Heap
import Extron.Kheap
import Extron.Library.Fields

/-!
The heap as a memory of bytes. While the memory manager is at rest no two heap pages
share a frame, so what `kheap.c` reads and writes through the page tables is a flat
memory: a store changes the bytes of its field and no others, an allocation of pages
adds bytes, and a release takes bytes away.
-/
namespace Extron.HeapBytes
open Extron.Multiboot Extron.Pmm Extron.Accounting Extron.Regions Extron.Vmm Extron.OwnPages Extron.Startup
open Extron.Paging hiding load store
open Extron.Heap Extron.Fields Extron.Kheap Extron.Outcomes
set_option linter.unusedSimpArgs false

/-- The addresses of the heap. -/
def InHeap (a : Nat) : Prop := KERNEL_HEAP_START.toNat ≤ a ∧ a < KERNEL_HEAP_START.toNat + KERNEL_HEAP_SIZE.toNat

instance (a : Nat) : Decidable (InHeap a) := inferInstanceAs (Decidable (_ ∧ _))

/-- The bytes of the heap pages that are mapped. -/
def bytes (m : Machine) : Memory := fun a =>
  if InHeap a then (physical m.kernel (UInt64.ofNat a)).map m.ram else none

/-- The heap page that an address lies in, counted from the start of the heap. -/
def bitOf (a : Nat) : UInt64 := UInt64.ofNat ((a - KERNEL_HEAP_START.toNat) / 4096)

section
variable {s₀ : State} {sections : List Elf64Shdr} {m : Machine} {a b : Nat} {p : UInt64}

theorem InHeap.toNat (inside : InHeap a) : (UInt64.ofNat a).toNat = a := by
  rw [InHeap, toNat_KERNEL_HEAP_START, toNat_KERNEL_HEAP_SIZE] at inside
  rw [UInt64.toNat_ofNat']
  omega

theorem InHeap.bit (inside : InHeap a) : (bitOf a).toNat = (a - KERNEL_HEAP_START.toNat) / 4096 ∧ (bitOf a).toNat < 2 ^ 25 := by
  rw [InHeap, toNat_KERNEL_HEAP_SIZE] at inside
  have value : (bitOf a).toNat = (a - KERNEL_HEAP_START.toNat) / 4096 := by
    rw [bitOf, UInt64.toNat_ofNat']
    omega
  exact ⟨value, by omega⟩

theorem InHeap.page (inside : InHeap a) : pageOf (UInt64.ofNat a) = heapPage (bitOf a).toNat := by
  have bit := inside.bit.1
  have value := inside.toNat
  rw [InHeap, toNat_KERNEL_HEAP_START, toNat_KERNEL_HEAP_SIZE] at inside
  rw [toNat_KERNEL_HEAP_START] at bit
  rw [pageOf, value, heapPage, bit]
  omega

theorem InHeap.own (inside : InHeap a) : pageOf (UInt64.ofNat a) ∈ ownPages := by
  rw [inside.page]
  exact heapPage_own inside.bit.2

/-! ## Translation -/

theorem physical_eq_some :
    physical m.kernel (UInt64.ofNat a) = some p ↔
      ∃ f, frameOf m.kernel.kernel_pml4 m.kernel (pageOf (UInt64.ofNat a)) = some f ∧ f + (UInt64.ofNat a &&& 0xFFF) = p := by
  rw [physical, Option.map_eq_some_iff]

theorem toNat_physical {f : UInt64} (inside : InHeap a)
    (frame : frameOf m.kernel.kernel_pml4 m.kernel (pageOf (UInt64.ofNat a)) = some f) :
    f.toNat % 4096 = 0 ∧ (f + (UInt64.ofNat a &&& 0xFFF)).toNat = f.toNat + a % 4096 := by
  obtain ⟨w, _, rfl⟩ := frameOf_eq_some.mp frame
  have value := toNat_and_mask w
  have offset : (UInt64.ofNat a &&& 0xFFF).toNat = a % 4096 := by
    rw [Words.and_low _ 0xFFF (k := 12) (by decide), inside.toNat]
    norm_num
  rw [UInt64.toNat_add, offset]
  omega

/-- Two heap addresses have different bytes of physical memory. -/
theorem physical_injective (rest : AtRest s₀ sections m.kernel) (first : InHeap a) (second : InHeap b)
    (here : physical m.kernel (UInt64.ofNat a) = some p) (there : physical m.kernel (UInt64.ofNat b) = some p) : a = b := by
  obtain ⟨f, frame, rfl⟩ := physical_eq_some.mp here
  obtain ⟨g, frame', same⟩ := physical_eq_some.mp there
  obtain ⟨aligned, value⟩ := toNat_physical first frame
  obtain ⟨aligned', value'⟩ := toNat_physical second frame'
  have total := congrArg UInt64.toNat same
  rw [value, value'] at total
  have frames : f = g := UInt64.toNat_inj.mp (by omega)
  subst frames
  have page := rest.core.ledger.page_distinct first.own second.own frame frame'
  have same : (bitOf a).toNat = (bitOf b).toNat := by
    rw [first.page, second.page, heapPage, heapPage] at page
    omega
  have bit := first.bit.1
  have bit' := second.bit.1
  rw [InHeap, toNat_KERNEL_HEAP_START] at first second
  rw [toNat_KERNEL_HEAP_START] at bit bit'
  omega

theorem bytes_eq_some {v : UInt8} :
    bytes m a = some v ↔ InHeap a ∧ ∃ p, physical m.kernel (UInt64.ofNat a) = some p ∧ m.ram p = v := by
  rw [bytes]
  by_cases inside : InHeap a
  · rw [if_pos inside, Option.map_eq_some_iff, and_iff_right inside]
  · rw [if_neg inside]
    simp [inside]

theorem isSome_bytes : (bytes m a).isSome ↔ InHeap a ∧ (physical m.kernel (UInt64.ofNat a)).isSome := by
  rw [bytes]
  by_cases inside : InHeap a
  · rw [if_pos inside, Option.isSome_map, and_iff_right inside]
  · rw [if_neg inside]
    simp [inside]

/-- A byte of the heap can be accessed when the bit of its page is set. -/
theorem isSome_bytes_iff (rest : AtRest s₀ sections m.kernel) :
    (bytes m a).isSome ↔ InHeap a ∧ Taken m.kernel (bitOf a) := by
  rw [isSome_bytes]
  refine and_congr_right fun inside => ?_
  rw [physical, Option.isSome_map, frameOf, Option.isSome_map, inside.page]
  exact mapped_iff_taken rest.core inside.bit.2

/-! ## Loads -/

theorem load8_ok {v : UInt8} (here : bytes m a = some v) : load8 (UInt64.ofNat a) m = .ok v m := by
  obtain ⟨_, p, mapped, rfl⟩ := bytes_eq_some.mp here
  rw [load8, mapped]

theorem ofNat_succ (a : Nat) : UInt64.ofNat a + 1 = UInt64.ofNat (a + 1) := (UInt64.ofNat_add a 1).symm

theorem load_ok {n w : Nat} (here : fetch (bytes m) n a = some w) : load n (UInt64.ofNat a) m = .ok w m := by
  induction n generalizing a w with
  | zero =>
    cases here
    rfl
  | succ n ih =>
    rw [fetch] at here
    obtain ⟨low, first, others⟩ := Option.bind_eq_some_iff.mp here
    obtain ⟨high, rest, total⟩ := Option.bind_eq_some_iff.mp others
    cases total
    rw [load, bind_ok (load8_ok first), ofNat_succ, bind_ok (ih rest)]
    rfl

theorem load32_ok {w : Nat} (here : Field.In ⟨a, 4, w⟩ (bytes m)) :
    load32 (UInt64.ofNat a) m = .ok (UInt32.ofNat w) m := by
  rw [load32, bind_ok (load_ok here)]
  rfl

theorem load64_ok {w : Nat} (here : Field.In ⟨a, 8, w⟩ (bytes m)) :
    load64 (UInt64.ofNat a) m = .ok (UInt64.ofNat w) m := by
  rw [load64, bind_ok (load_ok here)]
  rfl

/-! ## Stores -/

/-- The machine with the number `w` in the `n` bytes from `a` on. -/
def poke : Nat → Nat → Nat → Machine → Machine
  | 0, _, _, m => m
  | n + 1, a, w, m =>
    poke n (a + 1) (w / 256)
      { m with ram := Function.update m.ram ((physical m.kernel (UInt64.ofNat a)).getD 0) (UInt8.ofNat w) }

theorem bytes_ram {v : UInt8} (rest : AtRest s₀ sections m.kernel) (here : (bytes m a).isSome) :
    bytes { m with ram := Function.update m.ram ((physical m.kernel (UInt64.ofNat a)).getD 0) v } =
      Function.update (bytes m) a (some v) := by
  obtain ⟨inside, some⟩ := isSome_bytes.mp here
  obtain ⟨p, mapped⟩ := Option.isSome_iff_exists.mp some
  funext x
  by_cases same : x = a
  · subst same
    rw [Function.update_self]
    exact bytes_eq_some.mpr ⟨inside, p, mapped, by rw [mapped]; exact Function.update_self ..⟩
  · rw [Function.update_of_ne same, bytes, bytes]
    by_cases other : InHeap x
    · rw [if_pos other, if_pos other, mapped, Option.getD_some]
      cases there : physical m.kernel (UInt64.ofNat x) with
      | none => rfl
      | some q =>
        have apart : q ≠ p := by
          rintro rfl
          exact same (physical_injective rest other inside there mapped)
        simp [Function.update_of_ne apart]
    · rw [if_neg other, if_neg other]

theorem store8_ok {v : UInt8} (here : (bytes m a).isSome) :
    store8 (UInt64.ofNat a) v m =
      .ok () { m with ram := Function.update m.ram ((physical m.kernel (UInt64.ofNat a)).getD 0) v } := by
  obtain ⟨_, some⟩ := isSome_bytes.mp here
  obtain ⟨p, mapped⟩ := Option.isSome_iff_exists.mp some
  rw [store8, mapped]
  rfl

@[simp] theorem kernel_poke (n a w : Nat) (m : Machine) : (poke n a w m).kernel = m.kernel := by
  induction n generalizing a w m with
  | zero => rfl
  | succ n ih => exact ih _ _ _

theorem store_ok {n w : Nat} (rest : AtRest s₀ sections m.kernel) (spans : Spans (bytes m) a (a + n)) :
    store n (UInt64.ofNat a) w m = .ok () (poke n a w m) ∧ bytes (poke n a w m) = deposit n a w (bytes m) := by
  induction n generalizing a w m with
  | zero => exact ⟨rfl, rfl⟩
  | succ n ih =>
    have first := spans a le_rfl (by omega)
    have changed := bytes_ram (v := UInt8.ofNat w) rest first
    rw [store, bind_ok (store8_ok first), ofNat_succ, poke, deposit, ← changed]
    refine ih rest fun x low high => ?_
    rw [changed, Function.update_of_ne (by omega)]
    exact spans x (by omega) (by omega)

theorem poke_eq (n a w : Nat) (m : Machine) : poke n a w m = { m with ram := (poke n a w m).ram } := by
  induction n generalizing a w m with
  | zero => rfl
  | succ n ih => exact ih _ _ _

/-! ## Sequences of stores -/

/-- From `m` to `m'` the fields were stored one after the other, and nothing else
    happened. -/
structure Wrote (ws : List Field) (m m' : Machine) : Prop where
  same : m' = { m with ram := m'.ram }
  reach : Reach ws (bytes m)
  bytes : bytes m' = stores ws (bytes m)

variable {m' : Machine} {ws : List Field} {n w : Nat}

theorem Wrote.refl (m : Machine) : Wrote [] m m := ⟨rfl, fun _ none => absurd none List.not_mem_nil, rfl⟩

theorem Wrote.kernel (wrote : Wrote ws m m') : m'.kernel = m.kernel := by
  rw [wrote.same]

theorem Wrote.store (wrote : Wrote ws m m') (rest : AtRest s₀ sections m.kernel) (spans : Spans (HeapBytes.bytes m) a (a + n)) :
    ∃ m'', store n (UInt64.ofNat a) w m' = .ok () m'' ∧ Wrote (ws ++ [⟨a, n, w⟩]) m m'' := by
  have rest' : AtRest s₀ sections m'.kernel := by
    rw [wrote.kernel]
    exact rest
  have spans' : Spans (HeapBytes.bytes m') a (a + n) := by
    rw [wrote.bytes]
    exact spans_stores wrote.reach spans
  obtain ⟨run, stored⟩ := store_ok (w := w) rest' spans'
  refine ⟨_, run, ?_, ?_, ?_⟩
  · rw [poke_eq, wrote.same]
  · intro f member
    rcases List.mem_append.mp member with earlier | here
    · exact wrote.reach f earlier
    · rw [List.mem_singleton.mp here]
      exact spans
  · rw [stored, wrote.bytes, stores_append]
    rfl

theorem Wrote.store64 {v : UInt64} {k : Nat} (wrote : Wrote ws m m') (rest : AtRest s₀ sections m.kernel)
    (spans : Spans (HeapBytes.bytes m) a (a + 8)) (value : v.toNat = k) :
    ∃ m'', store64 (UInt64.ofNat a) v m' = .ok () m'' ∧ Wrote (ws ++ [⟨a, 8, k⟩]) m m'' := by
  subst value
  exact wrote.store rest spans

theorem Wrote.store32 {v : UInt32} {k : Nat} (wrote : Wrote ws m m') (rest : AtRest s₀ sections m.kernel)
    (spans : Spans (HeapBytes.bytes m) a (a + 4)) (value : v.toNat = k) :
    ∃ m'', store32 (UInt64.ofNat a) v m' = .ok () m'' ∧ Wrote (ws ++ [⟨a, 4, k⟩]) m m'' := by
  subst value
  exact wrote.store rest spans

theorem Wrote.store8 {v : UInt8} {k : Nat} (wrote : Wrote ws m m') (rest : AtRest s₀ sections m.kernel)
    (spans : Spans (HeapBytes.bytes m) a (a + 1)) (value : v.toNat = k) :
    ∃ m'', store8 (UInt64.ofNat a) v m' = .ok () m'' ∧ Wrote (ws ++ [⟨a, 1, k⟩]) m m'' := by
  subst value
  obtain ⟨m'', run, after⟩ := wrote.store (n := 1) (w := v.toNat) rest spans
  refine ⟨m'', ?_, after⟩
  rw [Kheap.store, UInt8.ofNat_toNat] at run
  cases ran : Kheap.store8 (UInt64.ofNat a) v m' with
  | ok _ _ =>
    rw [bind_ok ran] at run
    exact run
  | error _ _ =>
    rw [bind_error ran] at run
    cases run

theorem Wrote.load64 (wrote : Wrote ws m m') (here : Field.In ⟨a, 8, w⟩ (stores ws (HeapBytes.bytes m))) :
    load64 (UInt64.ofNat a) m' = .ok (UInt64.ofNat w) m' := by
  apply load64_ok
  rw [wrote.bytes]
  exact here

theorem Wrote.load32 (wrote : Wrote ws m m') (here : Field.In ⟨a, 4, w⟩ (stores ws (HeapBytes.bytes m))) :
    load32 (UInt64.ofNat a) m' = .ok (UInt32.ofNat w) m' := by
  apply load32_ok
  rw [wrote.bytes]
  exact here

end

end Extron.HeapBytes
