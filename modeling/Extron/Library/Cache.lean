import Mathlib.Tactic

/-!
A cache of what a memory holds. At any moment the cache may take in an entry that the
memory holds or drop entries; events change the memory and flush entries. What the
cache may have at most after a list of events is a set that the events determine, so
that a property of all runs is checked on this set, event by event.
-/
namespace Extron.Cache

/-- How events act on a memory and on a cache of its entries. -/
structure Device (E M K : Type) where
  /-- The entries that a memory holds. -/
  holds : M → Set K
  change : E → M → M
  /-- The entries that an event removes from the cache. -/
  flush : E → Set K

variable {E M K : Type}

structure Point (M K : Type) where
  memory : M
  cache : Set K

/-- The points that a run from `start` reaches by events, the latest first, with fills
    and drops anywhere between them. -/
inductive Run (d : Device E M K) (start : Point M K) : List E → Point M K → Prop
  | start : Run d start [] start
  | fill {es : List E} {p : Point M K} {k : K} (before : Run d start es p) (held : k ∈ d.holds p.memory) :
      Run d start es { p with cache := insert k p.cache }
  | drop {es : List E} {p : Point M K} {kept : Set K} (before : Run d start es p) (sub : kept ⊆ p.cache) :
      Run d start es { p with cache := kept }
  | event {es : List E} {p : Point M K} (before : Run d start es p) (e : E) :
      Run d start (e :: es) ⟨d.change e p.memory, p.cache \ d.flush e⟩

/-- The memory after events. -/
def replay (d : Device E M K) (m : M) : List E → M
  | [] => m
  | e :: es => d.change e (replay d m es)

/-- The entries that the cache may have after events. -/
def may (d : Device E M K) (m : M) : List E → Set K
  | [] => d.holds m
  | e :: es => (may d m es \ d.flush e) ∪ d.holds (d.change e (replay d m es))

/-- `Q` holds after each event for every entry that the cache may have. -/
def Checked (d : Device E M K) (m : M) (Q : E → M → K → Prop) : List E → Prop
  | [] => True
  | e :: es => Checked d m Q es ∧ ∀ k ∈ may d m (e :: es), Q e (replay d m (e :: es)) k

variable {d : Device E M K} {m : M} {es : List E} {p : Point M K} {Q : E → M → K → Prop}

theorem holds_sub_may : d.holds (replay d m es) ⊆ may d m es := by
  cases es with
  | nil => exact subset_rfl
  | cons e es => exact Set.subset_union_right

/-- Every run stays within what the cache may have. -/
theorem Run.within (run : Run d ⟨m, ∅⟩ es p) : p.memory = replay d m es ∧ p.cache ⊆ may d m es := by
  induction run with
  | start => exact ⟨rfl, Set.empty_subset _⟩
  | fill _ held ih =>
    obtain ⟨memory, cache⟩ := ih
    rw [memory] at held
    exact ⟨memory, Set.insert_subset (holds_sub_may held) cache⟩
  | drop _ sub ih => exact ⟨ih.1, sub.trans ih.2⟩
  | event _ e ih =>
    obtain ⟨memory, cache⟩ := ih
    rw [memory]
    exact ⟨rfl, (Set.sdiff_subset_sdiff_left cache).trans Set.subset_union_left⟩

theorem Checked.earlier {e : E} {later : List E} (checked : Checked d m Q (later ++ e :: es)) :
    Checked d m Q (e :: es) := by
  induction later with
  | nil => exact checked
  | cons f later ih => exact ih checked.1

/-- What is checked event by event holds at every event of every run. -/
theorem Checked.always {e : E} {later : List E} (checked : Checked d m Q (later ++ e :: es))
    (run : Run d ⟨m, ∅⟩ (e :: es) p) : ∀ k ∈ p.cache, Q e p.memory k := by
  obtain ⟨memory, cache⟩ := run.within
  intro k member
  rw [memory]
  exact checked.earlier.2 k (cache member)

end Extron.Cache
