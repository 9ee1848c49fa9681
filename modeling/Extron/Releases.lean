import Extron.FrameRuns

/-!
Runs in which callers free any address. One bit stands for a page that is reserved, a
page that is handed out and a page that does not exist, and `pmm_free_page` accepts all
three. So it frees only frames that are held exactly in the runs that pass it no
address whose bit `init_pmm` left set.
-/
namespace Extron.Releases
open Extron.Multiboot Extron.Pmm Extron.Format Extron.InitPmm Extron.FreeSet Extron.FrameRuns
set_option linter.unusedSimpArgs false

/-- A call on the frame allocator that returned. -/
inductive FrameEvent
  | alloc (a : UInt64)
  | free (a : UInt64)
deriving DecidableEq, Repr

/-- The runs from `s₀`, with the calls that returned, the latest first. A call that panics
    ends the run. -/
inductive Trace (s₀ : State) : List FrameEvent → State → Prop
  | start : Trace s₀ [] s₀
  | alloc {events : List FrameEvent} {s s' : State} {a : UInt64} (before : Trace s₀ events s)
      (call : pmm_alloc_page s = .ok a s') : Trace s₀ (.alloc a :: events) s'
  | free {events : List FrameEvent} {s s' : State} {a : UInt64} (before : Trace s₀ events s)
      (call : pmm_free_page a s = .ok () s') : Trace s₀ (.free a :: events) s'

/-- The frames returned and not freed since. -/
def held : List FrameEvent → List UInt64
  | [] => []
  | .alloc a :: before => a :: held before
  | .free a :: before => (held before).erase a

/-- Every release was of a frame held at the time. -/
def LiveOnly : List FrameEvent → Prop
  | [] => True
  | .alloc _ :: before => LiveOnly before
  | .free a :: before => a ∈ held before ∧ LiveOnly before

/-- The bit of a managed page lies in this byte. -/
def Managed (s₀ : State) (addr : UInt64) : Prop := ∃ i < addr_to_idx s₀.total_mem, addr = place s₀ (i.toNat / 8)

/-- What holds while only held frames are freed. -/
structure Sound (s₀ : State) (events : List FrameEvent) (s : State) : Prop where
  conserves : Conserves s₀ (held events) s
  beyond : ∀ i, ¬ i < addr_to_idx s₀.total_mem → (Marked s i ↔ Marked s₀ i)
  rest : s = { s₀ with mem := s.mem }
  outside : ∀ addr, ¬ Managed s₀ addr → s.mem addr = s₀.mem addr

section
variable {s₀ s s' : State} {events : List FrameEvent} {a : UInt64}

/-- A write to the byte of a managed bit. -/
theorem sound_setByte {i : UInt64} {b : UInt8} (rest : s = { s₀ with mem := s.mem })
    (outside : ∀ addr, ¬ Managed s₀ addr → s.mem addr = s₀.mem addr) (managed : i < addr_to_idx s₀.total_mem) (addr : UInt64)
    (other : ¬ Managed s₀ addr) : (s.setByte (s.bmp_phys + i / 8) b).mem addr = s₀.mem addr := by
  have samePlace : place s₀ (i.toNat / 8) = s.bmp_phys + i / 8 - s.g_hhdm_offset := by
    rw [place_byte, rest]
  have different : addr ≠ s.bmp_phys + i / 8 - s.g_hhdm_offset := by
    rw [← samePlace]
    rintro rfl
    exact other ⟨i, managed, rfl⟩
  rw [← outside addr other]
  exact Function.update_of_ne different _ _

theorem sound_alloc (low : ∀ j : UInt64, j.toNat < 256 → Marked s₀ j) (here : Sound s₀ events s)
    (call : pmm_alloc_page s = .ok a s') : Sound s₀ (.alloc a :: events) s' := by
  obtain ⟨conserves, beyond, rest, outside⟩ := here
  have next := conserves_alloc low conserves call
  rcases pmm_alloc_page_cases s with ⟨i, free, _, runs⟩ | ⟨_, runs⟩
  · rw [runs] at call
    cases call
    have managed : i < addr_to_idx s₀.total_mem := by
      rw [← conserves.total]
      exact free.1
    refine ⟨next, ?_, ?_, fun addr other => sound_setByte rest outside managed addr other⟩
    · intro j unmanaged
      have different : j ≠ i := fun same => unmanaged (same ▸ managed)
      rw [marked_set, beyond j unmanaged]
      simp [different]
    · have written : Pmm.bitmap_set s i = { s with mem := (Pmm.bitmap_set s i).mem } := rfl
      rw [written, rest]
  · rw [runs] at call
    cases call

theorem sound_free (here : Sound s₀ events s) (live : a ∈ held events) (call : pmm_free_page a s = .ok () s') :
    Sound s₀ (.free a :: events) s' := by
  obtain ⟨conserves, beyond, rest, outside⟩ := here
  have next := conserves_free conserves live call
  have managed := (conserves.usable a live).free.1
  rw [release_accepted conserves live] at call
  cases call
  refine ⟨next, ?_, ?_, fun addr other => sound_setByte rest outside managed addr other⟩
  · intro j unmanaged
    have different : j ≠ addr_to_idx a := fun same => unmanaged (same ▸ managed)
    rw [marked_clear, beyond j unmanaged]
    simp [different]
  · have written : Pmm.bitmap_clear s (addr_to_idx a) = { s with mem := (Pmm.bitmap_clear s (addr_to_idx a)).mem } := rfl
    rw [written, rest]

theorem sound_of_liveOnly (low : ∀ j : UInt64, j.toNat < 256 → Marked s₀ j) (trace : Trace s₀ events s)
    (live : LiveOnly events) : Sound s₀ events s := by
  induction trace with
  | start => exact ⟨⟨rfl, List.nodup_nil, by simp [held], by simp [held]⟩, fun _ _ => Iff.rfl, rfl, fun _ _ => rfl⟩
  | alloc _ call ih => exact sound_alloc low (ih live) call
  | free _ call ih => exact sound_free (ih live.2) live.1 call

/-- A held frame was free at the start. -/
theorem unmarked_of_liveOnly (low : ∀ j : UInt64, j.toNat < 256 → Marked s₀ j) (trace : Trace s₀ events s)
    (live : LiveOnly events) : ∀ b, .free b ∈ events → ¬ Marked s₀ (addr_to_idx b) := by
  induction trace with
  | start =>
    intro b member
    cases member
  | alloc _ _ ih =>
    intro b member
    rcases List.mem_cons.mp member with impossible | old
    · cases impossible
    · exact ih live b old
  | free before _ ih =>
    intro b member
    rcases List.mem_cons.mp member with same | old
    · cases same
      exact ((sound_of_liveOnly low before live.2).conserves.usable _ live.1).free.2
    · exact ih live.2 b old

/-- A page whose bit was clear at the start is accepted only while it is held. -/
theorem held_of_accepted (here : Sound s₀ events s) (unmarked : ¬ Marked s₀ (addr_to_idx a))
    (call : pmm_free_page a s = .ok () s') : a ∈ held events := by
  rcases pmm_free_page_cases s a with ⟨aligned, marked, _⟩ | ⟨_, runs⟩ | ⟨_, _, runs⟩
  · by_cases managed : addr_to_idx a < addr_to_idx s₀.total_mem
    · by_contra unheld
      have free := (here.conserves.clear (addr_to_idx a)).mpr
        ⟨⟨managed, unmarked⟩, by rw [idx_to_addr_of_aligned aligned]; exact unheld⟩
      exact free.2 marked
    · exact absurd ((here.beyond _ managed).mp marked) unmarked
  · rw [runs] at call
    cases call
  · rw [runs] at call
    cases call

theorem liveOnly_of_unmarked (low : ∀ j : UInt64, j.toNat < 256 → Marked s₀ j) (trace : Trace s₀ events s)
    (unmarked : ∀ b, .free b ∈ events → ¬ Marked s₀ (addr_to_idx b)) : LiveOnly events := by
  induction trace with
  | start => trivial
  | alloc _ _ ih => exact ih fun b old => unmarked b (List.mem_cons_of_mem _ old)
  | @free earlier _ _ a before call ih =>
    have live := ih fun b old => unmarked b (List.mem_cons_of_mem _ old)
    exact ⟨held_of_accepted (sound_of_liveOnly low before live) (unmarked a (by simp)) call, live⟩

end

/-- What follows when only held frames are freed. -/
structure Contained (s₀ : State) (events : List FrameEvent) (s : State) : Prop where
  /-- A reserved page stays reserved. -/
  reserved : ∀ i, i < addr_to_idx s₀.total_mem → Marked s₀ i → Marked s i
  /-- With a bit for every managed page, no byte outside of the bitmap changes. -/
  bytes : s₀.total_mem.toNat / 4096 ≤ 8 * (bitmap_size_bytes s₀).toNat →
    ∀ addr, (∀ k < (bitmap_size_bytes s₀).toNat, addr ≠ place s₀ k) → s.mem addr = s₀.mem addr
  /-- Address 0 is never returned. -/
  nonzero : ∀ a, .alloc a ∈ events → a ≠ 0

section
variable {s₀ s : State} {events : List FrameEvent}

theorem nonzero_of_liveOnly (low : ∀ j : UInt64, j.toNat < 256 → Marked s₀ j) (trace : Trace s₀ events s)
    (live : LiveOnly events) : ∀ a, .alloc a ∈ events → a ≠ 0 := by
  induction trace with
  | start =>
    intro a member
    cases member
  | @alloc _ _ _ b before call ih =>
    intro a member
    rcases List.mem_cons.mp member with same | old
    · cases same
      have usable := (sound_alloc low (sound_of_liveOnly low before live) call).conserves.usable b (by simp [held])
      rintro rfl
      exact absurd usable.above (by decide)
    · exact ih live a old
  | free _ _ ih =>
    intro a member
    rcases List.mem_cons.mp member with impossible | old
    · cases impossible
    · exact ih live.2 a old

theorem contained_of_sound (low : ∀ j : UInt64, j.toNat < 256 → Marked s₀ j) (trace : Trace s₀ events s)
    (live : LiveOnly events) : Contained s₀ events s := by
  obtain ⟨conserves, _, _, outside⟩ := sound_of_liveOnly low trace live
  refine ⟨?_, ?_, nonzero_of_liveOnly low trace live⟩
  · intro i managed marked
    by_contra clear
    have free := (conserves.clear i).mp ⟨by rw [conserves.total]; exact managed, clear⟩
    exact free.1.2 marked
  · intro enough addr off
    apply outside
    rintro ⟨i, managed, rfl⟩
    rw [UInt64.lt_iff_toNat_lt, addr_to_idx, UInt64.toNat_div, toNat_PAGE_SIZE] at managed
    exact off (i.toNat / 8) (by omega) rfl

end

end Extron.Releases
