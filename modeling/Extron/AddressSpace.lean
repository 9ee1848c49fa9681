import Extron.Mapping

/-!
The page tables as a partial map from pages to frames. Any sequence of calls of
`map_page`, `unmap_page` and `virt_to_phys` on a tree of tables gives the replies
that the partial map gives and leaves the partial map that it leaves. The address 0
stands for a missing table in the source, so no table may lie in frame 0.
-/
namespace Extron.AddressSpace
open Extron.RadixTree Extron.Pmm Extron.Paging Extron.Outcomes
set_option linter.unusedSimpArgs false

abbrev Page := Fin (2 ^ 36)

def page (v : UInt64) : Page := ⟨pageOf v, pageOf_lt v⟩

/-- A partial map from pages to frames. -/
abbrev Space := Page → Option UInt64

/-- The partial map that the tables under a root hold. -/
def view (root : UInt64) (s : State) : Space := fun n => frameOf root s n

/-- Flags of a present leaf, none of them inside the address mask. -/
def Flags := { flags : UInt64 // flags &&& PAGE_PRESENT ≠ 0 ∧ flags &&& PAGE_ADDR_MASK = 0 }

inductive Call
  | map_page (virt phys : UInt64) (flags : Flags)
  | unmap_page (virt : UInt64)
  | virt_to_phys (virt : UInt64)

inductive Reply
  | code (res : Int32)
  | address (phys : UInt64)
deriving DecidableEq, Repr

/-- A call on the tables. -/
def Call.run (root : UInt64) : Call → Kernel Reply
  | .map_page virt phys flags => do return .code (← Paging.map_page root virt phys flags.val)
  | .unmap_page virt => do return .code (← Paging.unmap_page root virt)
  | .virt_to_phys virt => do return .address (← Paging.virt_to_phys root virt)

/-- The same call on a partial map. -/
def Call.apply (m : Space) : Call → Reply × Space
  | .map_page virt phys _ =>
    match m (page virt) with
    | none => (.code 0, Function.update m (page virt) (some (phys &&& PAGE_ADDR_MASK)))
    | some frame => (.code (if frame = phys &&& PAGE_ADDR_MASK then 0 else -2), m)
  | .unmap_page virt =>
    match m (page virt) with
    | none => (.code (-1), m)
    | some _ => (.code 0, Function.update m (page virt) none)
  | .virt_to_phys virt => (.address ((m (page virt)).getD 0), m)

/-- Calls one after the other, with their replies. -/
def runs (root : UInt64) : List Call → Kernel (List Reply)
  | [] => return []
  | call :: rest => do
    let reply ← call.run root
    let replies ← runs root rest
    return reply :: replies

def applies (m : Space) : List Call → List Reply × Space
  | [] => ([], m)
  | call :: rest => ((call.apply m).1 :: (applies (call.apply m).2 rest).1, (applies (call.apply m).2 rest).2)

/-- A run stops only when no frame is left, or at a frame that the boot mapping does
    not reach. -/
def Stops (e : Halt) (s : State) : Prop :=
  e = .panic .outOfMemory ∧ (∀ k, ¬ Free s k) ∨ ∃ a, e = .fault a ∧ s.g_hhdm_offset = 0 ∧ ONE_GIB ≤ a

section
variable {root : UInt64} {s : State}

theorem offset_growth {path : List (Fin 512)} {s' : State} (grown : Growth root path s s') :
    s'.g_hhdm_offset = s.g_hhdm_offset := by
  induction grown with
  | refl => rfl
  | link _ _ _ _ _ _ _ ih => exact ih

theorem stops_of_far {t : UInt64} (far : ¬ Window s t) : Stops (.fault t) s := by
  rw [Window, Classical.not_imp, UInt64.not_lt] at far
  exact .inr ⟨t, rfl, far⟩

theorem stops_of_stuck {path : List (Fin 512)} {e : Halt} {s' : State} (stuck : Stuck root path s e s') : Stops e s' := by
  cases stuck with
  | outOfMemory _ _ full => exact .inl ⟨rfl, full⟩
  | farTable _ _ _ far => exact stops_of_far far
  | farFrame _ _ _ far => exact stops_of_far far

theorem stops_of_faulted {path : List (Fin 512)} {e : Halt} {s' : State} (faulted : Faulted root path s e s') :
    Stops e s' := by
  obtain ⟨rfl, _, t, _, _, far, rfl⟩ := faulted
  exact stops_of_far far

theorem view_of_leaves {s' : State} (same : ∀ n, leaf root s' n = leaf root s n) : view root s' = view root s := by
  funext n
  rw [view, view, frameOf, frameOf, same]

theorem frameOf_of_leaf {n : Nat} {w : UInt64} (here : leaf root s n = some w) :
    frameOf root s n = some (w &&& PAGE_ADDR_MASK) := by
  rw [frameOf, here]
  rfl

/-- Writing the word of a page updates the partial map at that page. -/
theorem view_stored (tree : Tree root s) {v t w : UInt64} (reached : table root s (dir (pageOf v)) = some t) :
    view root (stored t (slot (pageOf v)) w s) = Function.update (view root s) (page v) (link w) := by
  funext n
  rw [view, frameOf, leaf_stored tree reached (pageOf_lt v) n.isLt]
  by_cases same : n = page v
  · subst same
    rw [Function.update_self, if_pos (show (page v).val = pageOf v from rfl), link]
    split
    · rfl
    · rfl
  · have different : n.val ≠ pageOf v := fun equal => same (Fin.ext equal)
    rw [Function.update_of_ne same, if_neg different, view, frameOf]

theorem tree_recorded {e : Event} (tree : Tree root s) : Tree root (recorded e s) :=
  ⟨⟨tree.aligned, tree.memory, tree.unshared, tree.used, tree.flat, tree.zeroTaken⟩, tree.nonzero⟩

theorem tree_mapped {n : Nat} {phys flags : UInt64} {res : Int32} {s' : State} (tree : Tree root s)
    (mapped : Mapped root n phys flags s res s') : Tree root s' := by
  cases mapped with
  | same => exact tree
  | other => exact tree
  | new grown reached => exact tree_stored (tree_growth tree rfl grown) reached

theorem tree_unmapped {v : UInt64} {res : Int32} {s' : State} (tree : Tree root s)
    (unmapped : Unmapped root v s res s') : Tree root s' := by
  cases unmapped with
  | absent => exact tree
  | present _ reached => exact tree_recorded (tree_stored tree reached)

/-- `map_page` acts on the partial map as the specification says. -/
theorem apply_mapped {v phys : UInt64} {flags : Flags} {res : Int32} {s' : State} (tree : Tree root s)
    (mapped : Mapped root (pageOf v) phys flags.val s res s') :
    (.code res, view root s') = (Call.map_page v phys flags).apply (view root s) := by
  have three : (dir (pageOf v)).length = 3 := rfl
  cases mapped with
  | same here frame =>
    have old : view root s (page v) = some _ := frameOf_of_leaf here
    simp only [Call.apply, old, frame, if_true]
  | other here frame =>
    have old : view root s (page v) = some _ := frameOf_of_leaf here
    simp only [Call.apply, old, if_neg frame]
  | new grown reached free =>
    have old : view root s (page v) = none := frameOf_eq_none.mpr free
    rw [view_stored (tree_growth tree three grown) reached, view_of_leaves (leaf_growth tree three grown),
      link_or flags.property.1 flags.property.2]
    simp only [Call.apply, old]

theorem apply_unmapped {v : UInt64} {res : Int32} {s' : State} (tree : Tree root s)
    (unmapped : Unmapped root v s res s') : (.code res, view root s') = (Call.unmap_page v).apply (view root s) := by
  cases unmapped with
  | absent free =>
    have old : view root s (page v) = none := frameOf_eq_none.mpr free
    simp only [Call.apply, old]
  | @present w pt here reached =>
    have old : view root s (page v) = some _ := frameOf_of_leaf here
    have written : view root (recorded (.invlpg v) (stored pt (slot (pageOf v)) 0 s)) =
        view root (stored pt (slot (pageOf v)) 0 s) := rfl
    rw [written, view_stored tree reached, link_zero]
    simp only [Call.apply, old]

theorem call_refines (tree : Tree root s) (call : Call) :
    Post (fun reply s' => Tree root s' ∧ (reply, view root s') = call.apply (view root s)) Stops (call.run root s) := by
  cases call with
  | map_page v phys flags =>
    apply post_bind
    refine (map_page_post tree).mono ?_ (fun _ _ stuck => stops_of_stuck stuck)
    rintro res _ ⟨mid, mapped, rfl⟩
    have acts := apply_mapped tree mapped
    exact ⟨tree_recorded (tree_mapped tree mapped), acts⟩
  | unmap_page v =>
    apply post_bind
    refine (unmap_page_post tree).mono ?_ (fun _ _ faulted => stops_of_faulted faulted)
    rintro res _ ⟨mid, unmapped, rfl⟩
    have acts := apply_unmapped tree unmapped
    exact ⟨tree_recorded (tree_unmapped tree unmapped), acts⟩
  | virt_to_phys v =>
    apply post_bind
    refine (virt_to_phys_post tree).mono ?_ (fun _ _ faulted => stops_of_faulted faulted)
    rintro a s ⟨rfl, rfl⟩
    exact ⟨tree, rfl⟩

end

/-! ## A table in frame 0 -/

/-- A machine with 1 MiB of memory, the bitmap at address 0 and the given table words. -/
def machine (bitmap : UInt64 → UInt8) (frames : UInt64 → Fin 512 → UInt64) : State where
  mem := bitmap
  frames := frames
  bmp_phys := NEW_HDDM
  total_mem := 0x100000
  g_hhdm_offset := NEW_HDDM
  kernel_pml4 := 0x1000
  vmm_bitmap _ := 0
  last_allocated_index := 0
  journal := []

/-- Every frame is used, and the first word of the root points to a table in frame 0. -/
def lowTable : State := machine (fun _ => 0xFF) fun t i => if t = 0x1000 ∧ i = 0 then PAGE_PRESENT else 0

theorem marked_lowTable (i : UInt64) : Marked lowTable i := by
  have ones : ∀ j < 8, (0xFF : UInt8).toNat.testBit j = true := by decide
  rw [marked_iff_bit]
  exact ones _ (Nat.mod_lt _ (by decide))

theorem table_lowTable {q : List (Fin 512)} {t : UInt64} (reached : table 0x1000 lowTable q = some t) :
    q = [] ∧ t = 0x1000 ∨ q = [0] ∧ t = 0 := by
  have low : ∀ j, lowTable.frames 0 j = 0 := fun j => by simp [lowTable, machine]
  rcases q with _ | ⟨i, _ | ⟨j, rest⟩⟩
  · cases reached
    exact .inl ⟨rfl, rfl⟩
  · by_cases first : i = 0
    · subst first
      cases reached
      exact .inr ⟨rfl, rfl⟩
    · have absent : lowTable.frames 0x1000 i = 0 := by simp [lowTable, machine, first]
      simp [table, descend, absent, link_zero] at reached
  · by_cases first : i = 0
    · subst first
      have present : link (lowTable.frames 0x1000 0) = some 0 := by decide
      simp [table, descend, present, low, link_zero] at reached
    · have absent : lowTable.frames 0x1000 i = 0 := by simp [lowTable, machine, first]
      simp [table, descend, absent, link_zero] at reached

theorem shape_lowTable : Shape 0x1000 lowTable := by
  refine ⟨by decide, by decide, ?_, fun _ _ _ _ => marked_lowTable _, ?_, fun free => free.2 (marked_lowTable 0)⟩
  · intro p q t _ _ reachedP reachedQ
    rcases table_lowTable reachedP with ⟨rfl, rfl⟩ | ⟨rfl, rfl⟩
    · rcases table_lowTable reachedQ with ⟨rfl, _⟩ | ⟨_, impossible⟩
      · rfl
      · cases impossible
    · rcases table_lowTable reachedQ with ⟨_, impossible⟩ | ⟨rfl, _⟩
      · cases impossible
      · rfl
  · intro q j w _ here _
    obtain ⟨t, _, rfl⟩ := Option.map_eq_some_iff.mp here
    simp only [lowTable, machine]
    split
    · decide
    · decide

/-- Frames 0 and 1 are used, and the root in frame 1 is blank. -/
def blankRoot : State := machine (fun a => if a = 0 then 3 else 0) fun _ _ => 0

theorem tree_blankRoot : Tree 0x1000 blankRoot :=
  tree_of_blank (by decide) (by decide) (fun _ => rfl) (by decide +kernel) (fun free => free.2 (by decide +kernel))

/-- Three calls for one page. -/
def threeCalls : List Call :=
  [.map_page 0xFFFFC00000000000 0x5000 ⟨PAGE_PRESENT ||| PAGE_WRITE, by decide, by decide⟩,
    .virt_to_phys 0xFFFFC00000000000, .unmap_page 0xFFFFC00000000000]

end Extron.AddressSpace
