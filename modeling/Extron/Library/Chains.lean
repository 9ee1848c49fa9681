import Mathlib.Tactic

/-!
Doubly linked lists. The elements of a list have places; in a chain each element is
a node with the place of the element before it and of the element after it. Chains
are put together and taken apart where the list is, and an element is taken out by
relinking its two neighbours.
-/
namespace Extron.Chains

variable {α : Type} (place : α → Nat)

/-- Where a list starts that is followed by `next`. -/
def first : List α → Nat → Nat
  | [], next => next
  | x :: _, _ => place x

/-- Where a list ends that comes after `prev`. -/
def last (prev : Nat) : List α → Nat
  | [] => prev
  | x :: xs => last (place x) xs

/-- From `prev` the elements are linked in both directions up to `next`. -/
def Chain (node : α → Nat → Nat → Prop) (prev : Nat) : List α → Nat → Prop
  | [], _ => True
  | x :: xs, next => node x prev (first place xs next) ∧ Chain node (place x) xs next

variable {place} {node node' : α → Nat → Nat → Prop} {xs ys : List α} {x y : α} {prev next : Nat}

@[simp] theorem first_nil (next : Nat) : first place [] next = next := rfl
@[simp] theorem first_cons (x : α) (xs : List α) (next : Nat) : first place (x :: xs) next = place x := rfl
@[simp] theorem last_nil (prev : Nat) : last place prev [] = prev := rfl
@[simp] theorem last_cons (x : α) (xs : List α) (prev : Nat) : last place prev (x :: xs) = last place (place x) xs := rfl

theorem first_append (xs ys : List α) (next : Nat) : first place (xs ++ ys) next = first place xs (first place ys next) := by
  cases xs <;> rfl

theorem last_append (xs ys : List α) (prev : Nat) : last place prev (xs ++ ys) = last place (last place prev xs) ys := by
  induction xs generalizing prev with
  | nil => rfl
  | cons x xs ih => exact ih (place x)

theorem last_concat (xs : List α) (x : α) (prev : Nat) : last place prev (xs ++ [x]) = place x := last_append xs [x] prev

theorem chain_append :
    Chain place node prev (xs ++ ys) next ↔
      Chain place node prev xs (first place ys next) ∧ Chain place node (last place prev xs) ys next := by
  induction xs generalizing prev with
  | nil => simp [Chain]
  | cons x xs ih => rw [List.cons_append, Chain, Chain, ih, first_append, last_cons, and_assoc]

/-- An element with what comes before and after it. -/
theorem chain_middle :
    Chain place node prev (xs ++ x :: ys) next ↔
      Chain place node prev xs (place x) ∧ node x (last place prev xs) (first place ys next) ∧
        Chain place node (place x) ys next := by
  rw [chain_append, Chain, first_cons]

theorem chain_concat :
    Chain place node prev (xs ++ [x]) next ↔ Chain place node prev xs (place x) ∧ node x (last place prev xs) next := by
  rw [chain_middle, first_nil, Chain, and_true]

theorem Chain.mono (chain : Chain place node prev xs next) (each : ∀ x ∈ xs, ∀ p q, node x p q → node' x p q) :
    Chain place node' prev xs next := by
  induction xs generalizing prev with
  | nil => trivial
  | cons x xs ih =>
    obtain ⟨here, rest⟩ := chain
    exact ⟨each x (.head _) _ _ here, ih rest fun y member => each y (.tail _ member)⟩

/-- Only the last element sees what comes after the list. -/
theorem Chain.before {next' : Nat} (chain : Chain place node prev xs next)
    (change : ∀ x ∈ xs.getLast?, ∀ p, node x p next → node' x p next')
    (keep : ∀ x ∈ xs.dropLast, ∀ p q, node x p q → node' x p q) : Chain place node' prev xs next' := by
  rcases List.eq_nil_or_concat' xs with rfl | ⟨others, x, rfl⟩
  · trivial
  · rw [List.dropLast_concat] at keep
    obtain ⟨rest, here⟩ := chain_concat.mp chain
    exact chain_concat.mpr ⟨rest.mono keep, change x (by simp) _ here⟩

/-- Only the first element sees what comes before the list. -/
theorem Chain.after {prev' : Nat} (chain : Chain place node prev xs next)
    (change : ∀ x ∈ xs.head?, ∀ q, node x prev q → node' x prev' q)
    (keep : ∀ x ∈ xs.tail, ∀ p q, node x p q → node' x p q) : Chain place node' prev' xs next := by
  cases xs with
  | nil => trivial
  | cons x xs => exact ⟨change x (by simp) _ chain.1, chain.2.mono keep⟩

/-- An element is taken out by linking its neighbours to each other. -/
theorem Chain.unlink (chain : Chain place node prev (xs ++ x :: ys) next)
    (left : ∀ y ∈ xs.getLast?, ∀ p, node y p (place x) → node' y p (first place ys next))
    (lefts : ∀ y ∈ xs.dropLast, ∀ p q, node y p q → node' y p q)
    (right : ∀ y ∈ ys.head?, ∀ q, node y (place x) q → node' y (last place prev xs) q)
    (rights : ∀ y ∈ ys.tail, ∀ p q, node y p q → node' y p q) : Chain place node' prev (xs ++ ys) next := by
  obtain ⟨first, _, rest⟩ := chain_middle.mp chain
  exact chain_append.mpr ⟨first.before left lefts, rest.after right rights⟩

/-- An element is changed where it is. -/
theorem Chain.replace (chain : Chain place node prev (xs ++ x :: ys) next) (same : place y = place x)
    (lefts : ∀ z ∈ xs, ∀ p q, node z p q → node' z p q)
    (here : ∀ p q, node x p q → node' y p q)
    (rights : ∀ z ∈ ys, ∀ p q, node z p q → node' z p q) : Chain place node' prev (xs ++ y :: ys) next := by
  obtain ⟨first, node, rest⟩ := chain_middle.mp chain
  rw [chain_middle, same]
  exact ⟨first.mono lefts, here _ _ node, rest.mono rights⟩

end Extron.Chains
