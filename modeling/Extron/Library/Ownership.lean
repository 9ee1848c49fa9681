import Mathlib.Tactic
import Mathlib.Data.Finset.Card

/-!
Resources with owners. Some resources are used from the start; every other used
resource has exactly one holder. Taking, handing over and giving back a resource
keep the accounts balanced, and a balanced account counts: the used resources are
those of the start and one for each holder.
-/
namespace Extron.Ownership
set_option linter.unusedSectionVars false

variable {H I : Type} {usable base used used' : I → Prop} {holds holds' : H → I → Prop} {g r : H} {k : I}

/-- Every resource that holders have was usable at the start, no two holders have the
    same, and the used resources are those of the start and those held. -/
structure Balanced (usable base used : I → Prop) (holds : H → I → Prop) : Prop where
  usable : ∀ {h i}, holds h i → usable i
  single : ∀ {h o i}, holds h i → holds o i → h = o
  used : ∀ i, used i ↔ base i ∨ ∃ h, holds h i

theorem Balanced.congr (accounts : Balanced usable base used holds) (sameUsed : ∀ i, used' i ↔ used i)
    (sameHolds : ∀ h i, holds' h i ↔ holds h i) : Balanced usable base used' holds' := by
  refine ⟨fun held => accounts.usable ((sameHolds _ _).mp held), ?_, ?_⟩
  · intro h o i first second
    exact accounts.single ((sameHolds _ _).mp first) ((sameHolds _ _).mp second)
  · intro i
    simp only [sameUsed, accounts.used, sameHolds]

/-- A holder takes a resource that nobody uses. -/
theorem Balanced.take (accounts : Balanced usable base used holds) (spare : ¬ used k) (fit : usable k)
    (nowUsed : ∀ i, used' i ↔ i = k ∨ used i) (nowHolds : ∀ h i, holds' h i ↔ holds h i ∨ h = g ∧ i = k) :
    Balanced usable base used' holds' := by
  have unheld : ∀ h, ¬ holds h k := fun h held => spare ((accounts.used k).mpr (.inr ⟨h, held⟩))
  refine ⟨?_, ?_, ?_⟩
  · intro h i held
    rcases (nowHolds h i).mp held with old | ⟨_, rfl⟩
    · exact accounts.usable old
    · exact fit
  · intro h o i first second
    rcases (nowHolds h i).mp first with old | ⟨rfl, rfl⟩
    · rcases (nowHolds o i).mp second with old' | ⟨rfl, rfl⟩
      · exact accounts.single old old'
      · exact absurd old (unheld h)
    · rcases (nowHolds o i).mp second with old' | ⟨rfl, _⟩
      · exact absurd old' (unheld o)
      · rfl
  · intro i
    rw [nowUsed, accounts.used]
    constructor
    · rintro (rfl | old | ⟨h, held⟩)
      · exact .inr ⟨g, (nowHolds g i).mpr (.inr ⟨rfl, rfl⟩)⟩
      · exact .inl old
      · exact .inr ⟨h, (nowHolds h i).mpr (.inl held)⟩
    · rintro (old | ⟨h, held⟩)
      · exact .inr (.inl old)
      · rcases (nowHolds h i).mp held with old | ⟨_, rfl⟩
        · exact .inr (.inr ⟨h, old⟩)
        · exact .inl rfl

/-- A holder hands its only resource to another. -/
theorem Balanced.pass (accounts : Balanced usable base used holds) (held : holds g k)
    (only : ∀ {i}, holds g i → i = k) (sameUsed : ∀ i, used' i ↔ used i)
    (nowHolds : ∀ h i, holds' h i ↔ holds h i ∧ h ≠ g ∨ h = r ∧ i = k) : Balanced usable base used' holds' := by
  refine ⟨?_, ?_, ?_⟩
  · intro h i now
    rcases (nowHolds h i).mp now with ⟨old, _⟩ | ⟨_, rfl⟩
    · exact accounts.usable old
    · exact accounts.usable held
  · intro h o i first second
    rcases (nowHolds h i).mp first with ⟨old, other⟩ | ⟨rfl, rfl⟩
    · rcases (nowHolds o i).mp second with ⟨old', _⟩ | ⟨rfl, rfl⟩
      · exact accounts.single old old'
      · exact absurd (accounts.single old held) other
    · rcases (nowHolds o i).mp second with ⟨old', other⟩ | ⟨rfl, _⟩
      · exact absurd (accounts.single old' held) other
      · rfl
  · intro i
    rw [sameUsed, accounts.used]
    constructor
    · rintro (old | ⟨h, old⟩)
      · exact .inl old
      · by_cases giver : h = g
        · subst giver
          exact .inr ⟨r, (nowHolds r i).mpr (.inr ⟨rfl, only old⟩)⟩
        · exact .inr ⟨h, (nowHolds h i).mpr (.inl ⟨old, giver⟩)⟩
    · rintro (old | ⟨h, now⟩)
      · exact .inl old
      · rcases (nowHolds h i).mp now with ⟨old, _⟩ | ⟨_, rfl⟩
        · exact .inr ⟨h, old⟩
        · exact .inr ⟨g, held⟩

/-- A holder gives its only resource back. -/
theorem Balanced.give (accounts : Balanced usable base used holds) (fresh : ∀ {i}, usable i → ¬ base i)
    (held : holds g k) (only : ∀ {i}, holds g i → i = k) (nowUsed : ∀ i, used' i ↔ i ≠ k ∧ used i)
    (nowHolds : ∀ h i, holds' h i ↔ holds h i ∧ h ≠ g) : Balanced usable base used' holds' := by
  refine ⟨fun now => accounts.usable ((nowHolds _ _).mp now).1, ?_, ?_⟩
  · intro h o i first second
    exact accounts.single ((nowHolds _ _).mp first).1 ((nowHolds _ _).mp second).1
  · intro i
    rw [nowUsed, accounts.used]
    constructor
    · rintro ⟨different, old | ⟨h, old⟩⟩
      · exact .inl old
      · exact .inr ⟨h, (nowHolds h i).mpr ⟨old, fun giver => different (only (giver ▸ old))⟩⟩
    · rintro (old | ⟨h, now⟩)
      · exact ⟨fun same => fresh (accounts.usable held) (same ▸ old), .inl old⟩
      · obtain ⟨old, other⟩ := (nowHolds h i).mp now
        exact ⟨fun same => other (accounts.single old (same ▸ held)), .inr ⟨h, old⟩⟩

/-- When no holder of an earlier account gave anything up, what is newly used is what new
    holders have. -/
theorem Balanced.since (before : Balanced usable base used holds) (after : Balanced usable base used' holds')
    (fresh : ∀ {i}, usable i → ¬ base i) (kept : ∀ {h i}, holds h i → holds' h i) :
    Balanced (fun i => usable i ∧ ¬ used i) used used' fun h i => holds' h i ∧ ¬ holds h i := by
  refine ⟨?_, fun first second => after.single first.1 second.1, ?_⟩
  · rintro h i ⟨now, new⟩
    refine ⟨after.usable now, fun old => ?_⟩
    rcases (before.used i).mp old with start | ⟨o, held⟩
    · exact fresh (after.usable now) start
    · exact new (after.single (kept held) now ▸ held)
  · intro i
    rw [after.used, before.used]
    constructor
    · rintro (start | ⟨h, now⟩)
      · exact .inl (.inl start)
      · by_cases old : holds h i
        · exact .inl (.inr ⟨h, old⟩)
        · exact .inr ⟨h, now, old⟩
    · rintro ((start | ⟨h, old⟩) | ⟨h, now, _⟩)
      · exact .inl start
      · exact .inr ⟨h, kept old⟩
      · exact .inr ⟨h, now⟩

/-- Counting: the used resources are those of the start and one for each holder. -/
theorem Balanced.card [DecidableEq H] [DecidableEq I] [DecidablePred used] [DecidablePred base]
    (accounts : Balanced usable base used holds) (fresh : ∀ {i}, usable i → ¬ base i) (all : Finset I)
    (holders : Finset H) (item : H → I) (listed : ∀ {h i}, holds h i ↔ h ∈ holders ∧ i = item h)
    (inside : ∀ {h}, h ∈ holders → item h ∈ all) :
    (all.filter used).card = (all.filter base).card + holders.card := by
  have injective : Set.InjOn item holders := by
    intro h member o member' same
    exact accounts.single (listed.mpr ⟨member, rfl⟩) (listed.mpr ⟨member', same⟩)
  have split : all.filter used = all.filter base ∪ holders.image item := by
    ext i
    simp only [Finset.mem_filter, Finset.mem_union, Finset.mem_image, accounts.used, listed]
    constructor
    · rintro ⟨member, old | ⟨h, holder, rfl⟩⟩
      · exact .inl ⟨member, old⟩
      · exact .inr ⟨h, holder, rfl⟩
    · rintro (⟨member, old⟩ | ⟨h, holder, rfl⟩)
      · exact ⟨member, .inl old⟩
      · exact ⟨inside holder, .inr ⟨h, holder, rfl⟩⟩
  have apart : Disjoint (all.filter base) (holders.image item) := by
    rw [Finset.disjoint_left]
    intro i start held
    obtain ⟨h, holder, rfl⟩ := Finset.mem_image.mp held
    exact fresh (accounts.usable (listed.mpr ⟨holder, rfl⟩)) (Finset.mem_filter.mp start).2
  rw [split, Finset.card_union_of_disjoint apart, Finset.card_image_of_injOn injective]

end Extron.Ownership
