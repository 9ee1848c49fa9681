import Mathlib.Tactic

/-!
Radix trees in a store of linked nodes. A node holds a word for each index, and
`link` reads a word as the node it points to, if it points to one. A path from
the root is a list of indices. As long as no node is reached by two paths
(`Unshared`), writing one word changes only the paths through that word, and
linking a fresh blank node adds exactly one path.
-/
namespace Extron.RadixTree
set_option linter.unusedSectionVars false

variable {N I W : Type}

/-- The node that a path reaches. -/
def descend (link : W → Option N) (M : N → I → W) : N → List I → Option N
  | t, [] => some t
  | t, i :: rest => (link (M t i)).bind (fun u => descend link M u rest)

/-- The word under an index of the node that a path reaches. -/
def word (link : W → Option N) (M : N → I → W) (root : N) (q : List I) (j : I) : Option W :=
  (descend link M root q).map (fun u => M u j)

/-- No node is reached by two paths of at most `depth` indices. -/
def Unshared (link : W → Option N) (M : N → I → W) (root : N) (depth : Nat) : Prop :=
  ∀ p q t, p.length ≤ depth → q.length ≤ depth →
    descend link M root p = some t → descend link M root q = some t → p = q

/-- No path of at most `depth` indices reaches `n`. -/
def Fresh (link : W → Option N) (M : N → I → W) (root : N) (depth : Nat) (n : N) : Prop :=
  ∀ q, q.length ≤ depth → descend link M root q ≠ some n

section
variable [DecidableEq N] [DecidableEq I]

/-- `M` with one word replaced. -/
def write (M : N → I → W) (t : N) (i : I) (w : W) : N → I → W :=
  fun u j => if u = t ∧ j = i then w else M u j

/-- `M` with every word of one node replaced. -/
def blank (M : N → I → W) (n : N) (z : W) : N → I → W :=
  fun u j => if u = n then z else M u j

end

variable {link : W → Option N} {M M' : N → I → W} {root t n : N} {p q : List I} {i j : I} {w z : W} {depth : Nat}

theorem descend_append (root : N) (p q : List I) :
    descend link M root (p ++ q) = (descend link M root p).bind (fun u => descend link M u q) := by
  induction p generalizing root with
  | nil => rfl
  | cons i rest ih =>
    simp only [List.cons_append, descend]
    cases link (M root i) with
    | none => rfl
    | some u => simp only [Option.bind_some, ih]

theorem descend_snoc (root : N) (q : List I) (j : I) :
    descend link M root (q ++ [j]) = (word link M root q j).bind link := by
  rw [descend_append, word]
  cases descend link M root q with
  | none => rfl
  | some u => simp [descend]

/-- The beginning of a path that reaches a node reaches one too. -/
theorem descend_prefix {r : List I} (reached : (descend link M root (p ++ r)).isSome) :
    (descend link M root p).isSome := by
  rw [descend_append] at reached
  cases here : descend link M root p with
  | none => simp [here] at reached
  | some u => rfl

/-- A path reads the same in two stores that agree on every word along it. -/
theorem descend_congr (agree : ∀ q' j, q' ++ [j] <+: q → ∀ u, descend link M root q' = some u →
    link (M' u j) = link (M u j)) : descend link M' root q = descend link M root q := by
  induction q using List.reverseRecOn with
  | nil => rfl
  | append_singleton q j ih =>
    have before : descend link M' root q = descend link M root q :=
      ih (fun q' j' sub => agree q' j' (sub.trans (List.prefix_append q [j])))
    rw [descend_snoc, descend_snoc, word, word, before]
    cases here : descend link M root q with
    | none => rfl
    | some u => exact agree q j List.prefix_rfl u here

theorem length_of_snoc_prefix (sub : p ++ [i] <+: q) : p.length + 1 ≤ q.length := by
  simpa using sub.length_le

section
variable [DecidableEq N] [DecidableEq I]

/-- Writing a word leaves every path that does not pass through it. -/
theorem descend_write (unshared : Unshared link M root depth) (reached : descend link M root p = some t)
    (short : p.length ≤ depth) (bound : q.length ≤ depth + 1) (off : ¬ p ++ [i] <+: q) :
    descend link (write M t i w) root q = descend link M root q := by
  apply descend_congr
  intro q' j sub u here
  have shorter := length_of_snoc_prefix sub
  unfold write
  by_cases hit : u = t ∧ j = i
  · obtain ⟨rfl, rfl⟩ := hit
    have same : p = q' := unshared p q' u short (by omega) reached here
    exact absurd (same ▸ sub) off
  · rw [if_neg hit]

theorem word_write (unshared : Unshared link M root depth) (reached : descend link M root p = some t)
    (short : p.length ≤ depth) (bound : q.length ≤ depth) (off : ¬ p ++ [i] <+: q ++ [j]) :
    word link (write M t i w) root q j = word link M root q j := by
  have above : ¬ p ++ [i] <+: q := fun sub => off (sub.trans (List.prefix_append q [j]))
  rw [word, word, descend_write unshared reached short (by omega) above]
  cases here : descend link M root q with
  | none => rfl
  | some u =>
    have miss : ¬ (u = t ∧ j = i) := by
      rintro ⟨rfl, rfl⟩
      exact off (unshared p q u short bound reached here ▸ List.prefix_rfl)
    simp [write, miss]

theorem word_write_self (unshared : Unshared link M root depth) (reached : descend link M root p = some t)
    (short : p.length ≤ depth) : word link (write M t i w) root p i = some w := by
  have off : ¬ p ++ [i] <+: p := fun sub => by
    have := length_of_snoc_prefix sub
    omega
  rw [word, descend_write unshared reached short (by omega) off, reached]
  simp [write]

/-- Overwriting the last level leaves the nodes as they were. -/
theorem descend_write_last (unshared : Unshared link M root depth) (reached : descend link M root p = some t)
    (last : p.length = depth) (bound : q.length ≤ depth) :
    descend link (write M t i w) root q = descend link M root q :=
  descend_write unshared reached (by omega) (by omega) (fun sub => by
    have := length_of_snoc_prefix sub
    omega)

theorem unshared_write_last (unshared : Unshared link M root depth) (reached : descend link M root p = some t)
    (last : p.length = depth) : Unshared link (write M t i w) root depth := by
  intro a b u shortA shortB
  rw [descend_write_last unshared reached last shortA, descend_write_last unshared reached last shortB]
  exact unshared a b u shortA shortB

theorem descend_blank (fresh : Fresh link M root depth n) (bound : q.length ≤ depth + 1) :
    descend link (blank M n z) root q = descend link M root q := by
  apply descend_congr
  intro q' j sub u here
  have shorter := length_of_snoc_prefix sub
  have other : u ≠ n := fun same => fresh q' (by omega) (same ▸ here)
  rw [blank, if_neg other]

theorem word_blank (fresh : Fresh link M root depth n) (bound : q.length ≤ depth) :
    word link (blank M n z) root q j = word link M root q j := by
  rw [word, word, descend_blank fresh (by omega)]
  cases here : descend link M root q with
  | none => rfl
  | some u =>
    have other : u ≠ n := fun same => fresh q bound (same ▸ here)
    simp [blank, other]

theorem unshared_blank (unshared : Unshared link M root depth) (fresh : Fresh link M root depth n) :
    Unshared link (blank M n z) root depth := by
  intro a b u shortA shortB
  rw [descend_blank fresh (by omega), descend_blank fresh (by omega)]
  exact unshared a b u shortA shortB

section
variable (unshared : Unshared link M root depth) (reached : descend link M root p = some t)
  (short : p.length < depth) (unlinked : link (M t i) = none) (fresh : Fresh link M root depth n)
  (empty : link z = none) (points : link w = some n)
include unshared reached short unlinked fresh empty points

/-- Linking a fresh blank node under an unlinked word adds that node's path and
    nothing else. -/
theorem descend_grow (bound : q.length ≤ depth + 1) :
    descend link (write (blank M n z) t i w) root q = if q = p ++ [i] then some n else descend link M root q := by
  have reached' : descend link (blank M n z) root p = some t := by rw [descend_blank fresh (by omega), reached]
  have unshared' := unshared_blank (z := z) unshared fresh
  by_cases through : p ++ [i] <+: q
  · obtain ⟨rest, rfl⟩ := through
    have arrives : descend link (write (blank M n z) t i w) root (p ++ [i]) = some n := by
      rw [descend_snoc, word_write_self unshared' reached' (by omega), Option.bind_some, points]
    have stuck : descend link M root (p ++ [i]) = none := by
      rw [descend_snoc, word, reached, Option.map_some, Option.bind_some, unlinked]
    cases rest with
    | nil => rw [List.append_nil, arrives, if_pos rfl]
    | cons k rest =>
      have longer : p ++ [i] ++ k :: rest ≠ p ++ [i] := by simp
      have other : n ≠ t := fun same => fresh p (by omega) (same ▸ reached)
      rw [descend_append, arrives, descend_append _ (p ++ [i]), stuck, if_neg longer]
      simp [descend, write, blank, other, empty]
  · have elsewhere : q ≠ p ++ [i] := fun same => through (same ▸ List.prefix_rfl)
    rw [descend_write unshared' reached' (by omega) bound through, descend_blank fresh bound, if_neg elsewhere]

theorem word_grow (bound : q.length ≤ depth) :
    word link (write (blank M n z) t i w) root q j =
      if q = p ++ [i] then some z else if q = p ∧ j = i then some w else word link M root q j := by
  have reached' : descend link (blank M n z) root p = some t := by rw [descend_blank fresh (by omega), reached]
  have unshared' := unshared_blank (z := z) unshared fresh
  by_cases new : q = p ++ [i]
  · have other : n ≠ t := fun same => fresh p (by omega) (same ▸ reached)
    rw [if_pos new, word, descend_grow unshared reached short unlinked fresh empty points (by omega), if_pos new]
    simp [write, blank, other]
  · rw [if_neg new]
    by_cases here : q = p ∧ j = i
    · obtain ⟨rfl, rfl⟩ := here
      rw [if_pos ⟨rfl, rfl⟩, word_write_self unshared' reached' (by omega)]
    · rw [if_neg here, word, word, descend_grow unshared reached short unlinked fresh empty points (by omega),
        if_neg new]
      cases there : descend link M root q with
      | none => rfl
      | some u =>
        have kept : u ≠ n := fun same => fresh q bound (same ▸ there)
        have miss : ¬ (u = t ∧ j = i) := by
          rintro ⟨rfl, rfl⟩
          exact here ⟨(unshared p q u (by omega) bound reached there).symm, rfl⟩
        simp [write, blank, kept, miss]

theorem unshared_grow : Unshared link (write (blank M n z) t i w) root depth := by
  intro a b u shortA shortB
  rw [descend_grow unshared reached short unlinked fresh empty points (by omega),
    descend_grow unshared reached short unlinked fresh empty points (by omega)]
  split
  · rename_i sameA
    split
    · rename_i sameB
      intro _ _
      rw [sameA, sameB]
    · intro nodeA nodeB
      exact absurd (Option.some.inj nodeA ▸ nodeB) (fresh b shortB)
  · split
    · intro nodeA nodeB
      exact absurd (Option.some.inj nodeB ▸ nodeA) (fresh a shortA)
    · exact unshared a b u shortA shortB

end
end

end Extron.RadixTree
