import Mathlib.Tactic

/-!
What an allocator of memory is for. A store has ranges of addresses that do not overlap,
each with its contents. Clients ask for a range, give one back, ask for another size, and
write and read within the ranges they have; which addresses they get is not determined.
No request changes a range that it does not name.
-/
namespace Extron.Stores

variable {β : Type}

/-- The contents of each range, by where it starts. -/
structure Store (β : Type) where
  at_ : Nat → Option (List β)
  apart : ∀ p q xs ys, at_ p = some xs → at_ q = some ys → p ≠ q → p + xs.length ≤ q ∨ q + ys.length ≤ p

/-- What a client can ask for. The pointer zero stands for no range. -/
inductive Request (β : Type)
  | allocate (n : Nat)
  /-- A range for `nobj` objects of `size`, all zero. -/
  | clear (nobj size : Nat)
  | resize (p n : Nat)
  | release (p : Nat)
  | write (p i : Nat) (v : β)
  | read (p i : Nat)

inductive Answer (β : Type)
  | pointer (p : Nat)
  | value (v : β)
  | done

/-- The range that a request names. -/
def Request.target : Request β → Option Nat
  | .allocate _ => none
  | .clear _ _ => none
  | .resize p _ => some p
  | .release p => some p
  | .write p _ _ => some p
  | .read p _ => some p

/-- The store without a range. -/
def without (f : Nat → Option (List β)) (p : Nat) : Nat → Option (List β) := Function.update f p none

/-- The store with a range. -/
def having (f : Nat → Option (List β)) (p : Nat) (xs : List β) : Nat → Option (List β) := Function.update f p (some xs)

/-- The answers to requests, and the store after each. Ranges start at multiples of `grain`. -/
inductive Step [OfNat β 0] (grain : Nat) (S : Store β) : Request β → Answer β → Store β → Prop
  | allocate {S' : Store β} {n p : Nat} {xs : List β} (some : p ≠ 0) (aligned : grain ∣ p) (free : S.at_ p = none) (length : xs.length = n)
      (now : S'.at_ = having S.at_ p xs) : Step grain S (.allocate n) (.pointer p) S'
  | clear {S' : Store β} {nobj size p : Nat} (some : p ≠ 0) (aligned : grain ∣ p) (free : S.at_ p = none)
      (now : S'.at_ = having S.at_ p (List.replicate (nobj * size) 0)) : Step grain S (.clear nobj size) (.pointer p) S'
  | resize {S' : Store β} {p q n : Nat} {xs ys : List β} (here : S.at_ p = .some xs) (more : n ≠ 0) (some : q ≠ 0) (aligned : grain ∣ q)
      (free : without S.at_ p q = none) (length : ys.length = n) (starts : xs.take n <+: ys)
      (now : S'.at_ = having (without S.at_ p) q ys) : Step grain S (.resize p n) (.pointer q) S'
  /-- Without a range to resize this is a new one. -/
  | resize_null {S' : Store β} {n p : Nat} {xs : List β} (more : n ≠ 0) (some : p ≠ 0) (aligned : grain ∣ p) (free : S.at_ p = none)
      (length : xs.length = n) (now : S'.at_ = having S.at_ p xs) : Step grain S (.resize 0 n) (.pointer p) S'
  /-- To resize to nothing is to give back. -/
  | resize_zero {S' : Store β} {p : Nat} {xs : List β} (here : S.at_ p = some xs) (now : S'.at_ = without S.at_ p) :
      Step grain S (.resize p 0) (.pointer 0) S'
  | resize_none : Step grain S (.resize 0 0) (.pointer 0) S
  | release {S' : Store β} {p : Nat} {xs : List β} (here : S.at_ p = some xs) (now : S'.at_ = without S.at_ p) :
      Step grain S (.release p) .done S'
  | release_null : Step grain S (.release 0) .done S
  | write {S' : Store β} {p i : Nat} {v : β} {xs : List β} (here : S.at_ p = some xs) (inside : i < xs.length)
      (now : S'.at_ = having S.at_ p (xs.set i v)) : Step grain S (.write p i v) .done S'
  | read {p i : Nat} {v : β} {xs : List β} (here : S.at_ p = some xs) (inside : xs[i]? = some v) :
      Step grain S (.read p i) (.value v) S

/-- What a client may ask for: sizes within the limits, ranges that it has, and places in
    them. -/
def Legal (limit product : Nat) (S : Store β) : Request β → Prop
  | .allocate n => n ≤ limit
  | .clear nobj size => nobj * size < product
  | .resize p n => n ≤ limit ∧ (p = 0 ∨ (S.at_ p).isSome)
  | .release p => p = 0 ∨ (S.at_ p).isSome
  | .write p i _ => ∃ xs, S.at_ p = some xs ∧ i < xs.length
  | .read p i => ∃ xs, S.at_ p = some xs ∧ i < xs.length

/-- The store without ranges. -/
def Store.empty : Store β := ⟨fun _ => none, fun _ _ _ _ here => nomatch here⟩

/-- A client asks for what it wants by the answers it has had so far. -/
abbrev Client (β : Type) := List (Answer β) → Request β

/-- The stores that the requests of a client lead to. -/
inductive Reaches [OfNat β 0] (grain : Nat) (client : Client β) : List (Answer β) → Store β → Prop
  | start : Reaches grain client [] .empty
  | step {answers : List (Answer β)} {a : Answer β} {S S' : Store β} (before : Reaches grain client answers S)
      (step : Step grain S (client answers) a S') : Reaches grain client (answers ++ [a]) S'

/-- A client that only asks for what it may. -/
def WellBehaved [OfNat β 0] (grain limit product : Nat) (client : Client β) : Prop :=
  ∀ answers S, Reaches grain client answers S → Legal limit product S (client answers)

section
variable [OfNat β 0] {grain : Nat} {S S' : Store β} {r : Request β} {a : Answer β} {p : Nat} {xs : List β}

/-- No step takes anything from a range that its request does not name. -/
theorem Step.keeps (step : Step grain S r a S') (other : r.target ≠ some p) (here : S.at_ p = some xs) : S'.at_ p = some xs := by
  have same : ∀ {q : Nat} {ys : List β}, q ≠ p → (having S.at_ q ys) p = some xs := fun different =>
    (Function.update_of_ne (Ne.symm different) _ _).trans here
  have apart : ∀ {q : Nat}, S.at_ q = none → q ≠ p := by
    rintro q free rfl
    rw [free] at here
    cases here
  have named : ∀ {q : Nat}, (some q : Option Nat) ≠ some p → q ≠ p := fun different equal => different (equal ▸ rfl)
  cases step with
  | allocate _ _ free _ now => exact now ▸ same (apart free)
  | clear _ _ free now => exact now ▸ same (apart free)
  | @resize _ q q' _ _ _ _ _ _ _ free _ _ now =>
    have first := named other
    have second : q' ≠ p := by
      rintro rfl
      rw [without, Function.update_of_ne (Ne.symm first), here] at free
      cases free
    rw [now, having, Function.update_of_ne (Ne.symm second), without, Function.update_of_ne (Ne.symm first), here]
  | resize_null _ _ _ free _ now => exact now ▸ same (apart free)
  | resize_zero _ now =>
    rw [now, without, Function.update_of_ne (Ne.symm (named other)), here]
  | resize_none => exact here
  | release _ now =>
    rw [now, without, Function.update_of_ne (Ne.symm (named other)), here]
  | release_null => exact here
  | write _ _ now => exact now ▸ same (named other)
  | read _ _ => exact here

/-- The stores between the answers. -/
theorem Reaches.stores {client : Client β} {answers : List (Answer β)} (reached : Reaches grain client answers S) :
    ∃ f : Nat → Store β, f answers.length = S ∧ ∀ l < answers.length, ∃ a, answers[l]? = some a ∧
      Step grain (f l) (client (answers.take l)) a (f (l + 1)) := by
  induction reached with
  | start => exact ⟨fun _ => .empty, rfl, fun _ below => absurd below (Nat.not_lt_zero _)⟩
  | @step answers a S S' before step ih =>
    obtain ⟨f, last, steps⟩ := ih
    refine ⟨fun l => if l ≤ answers.length then f l else S', ?_, fun l below => ?_⟩
    · show (if (answers ++ [a]).length ≤ answers.length then _ else _) = S'
      rw [List.length_append, List.length_singleton, if_neg (by omega)]
    · rw [List.length_append, List.length_singleton] at below
      by_cases early : l < answers.length
      · obtain ⟨b, answer, here⟩ := steps l early
        refine ⟨b, ?_, ?_⟩
        · rw [List.getElem?_append_left early, answer]
        · beta_reduce
          rw [if_pos (by omega), if_pos (by omega), List.take_append_of_le_length (by omega)]
          exact here
      · obtain rfl : l = answers.length := by omega
        refine ⟨a, by simp, ?_⟩
        beta_reduce
        rw [if_pos le_rfl, if_neg (by omega), last, List.take_left]
        exact step

/-- What a client reads is what it wrote there last, as long as its requests in between
    did not name the range. -/
theorem Reaches.reads {client : Client β} {answers : List (Answer β)} (reached : Reaches grain client answers S) {i j k : Nat} {v : β}
    (order : j < k) (inside : k < answers.length) (wrote : client (answers.take j) = .write p i v)
    (others : ∀ l, j < l → l < k → (client (answers.take l)).target ≠ some p) (reads : client (answers.take k) = .read p i) :
    answers[k]? = some (.value v) := by
  obtain ⟨f, _, steps⟩ := reached.stores
  obtain ⟨_, _, first⟩ := steps j (by omega)
  rw [wrote] at first
  cases first with
  | @write _ _ _ _ xs _ within now =>
    -- the range is as it was written up to the read
    have kept : ∀ l, j < l → l ≤ k → (f l).at_ p = some (xs.set i v) := by
      intro l after
      induction l with
      | zero => omega
      | succ l ih =>
        intro before
        by_cases here : l = j
        · rw [here, now, having, Function.update_self]
        · obtain ⟨_, _, step⟩ := steps l (by omega)
          exact step.keeps (others l (by omega) (by omega)) (ih (by omega) (by omega))
    obtain ⟨a, answer, last⟩ := steps k inside
    rw [reads] at last
    generalize f (k + 1) = S' at last
    cases last with
    | read here value =>
      obtain rfl := Option.some.inj ((kept k order le_rfl).symm.trans here)
      rw [List.getElem?_set, if_pos rfl, if_pos within] at value
      rw [answer, Option.some.inj value]

end

end Extron.Stores
