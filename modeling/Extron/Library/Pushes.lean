import Mathlib.Tactic

/-!
A stack that grows down, in words eight addresses apart. `peek` reads the words from the
pointer on: what was pushed last comes first, and what was there before follows. Code that
keeps the words from its pointer on gives back what was saved before it, popped in the
other order (`pops_pushes`).
-/
namespace Extron.Pushes

variable {W R : Type}

structure Stack (W : Type) where
  pointer : UInt64
  word : UInt64 → W

/-- The word that many places above the pointer. -/
def Stack.peek (s : Stack W) (j : Nat) : W := s.word (s.pointer + UInt64.ofNat (8 * j))

def Stack.push (s : Stack W) (w : W) : Stack W := ⟨s.pointer - 8, Function.update s.word (s.pointer - 8) w⟩

/-- The stack without so many words. -/
def Stack.drop (s : Stack W) (n : Nat) : Stack W := { s with pointer := s.pointer + UInt64.ofNat (8 * n) }

/-- The stack after these words were pushed, the first one first. -/
def Stack.pushes (s : Stack W) (ws : List W) : Stack W := ws.foldl Stack.push s

/-- Words that lie apart: fewer places than make the addresses wrap. -/
def places : Nat := 2 ^ 61

variable {s t u : Stack W} {w : W} {ws : List W} {i j n : Nat}

theorem peek_drop (s : Stack W) (n j : Nat) : (s.drop n).peek j = s.peek (n + j) := by
  rw [Stack.peek, Stack.peek, Stack.drop, UInt64.add_assoc, ← UInt64.ofNat_add, ← Nat.mul_add]

@[simp] theorem drop_drop (s : Stack W) (n j : Nat) : (s.drop n).drop j = s.drop (n + j) := by
  simp only [Stack.drop, UInt64.add_assoc, ← UInt64.ofNat_add, ← Nat.mul_add]

@[simp] theorem peek_push (s : Stack W) (w : W) : (s.push w).peek 0 = w := by
  simp [Stack.peek, Stack.push]

theorem peek_push_succ (s : Stack W) (w : W) (inside : j + 1 < places) : (s.push w).peek (j + 1) = s.peek j := by
  have above : s.pointer - 8 + UInt64.ofNat (8 * (j + 1)) = s.pointer + UInt64.ofNat (8 * j) := by
    rw [Nat.mul_add, UInt64.ofNat_add, UInt64.add_comm (UInt64.ofNat (8 * j)), ← UInt64.add_assoc]
    exact congrArg (· + UInt64.ofNat (8 * j)) (UInt64.sub_add_cancel s.pointer 8)
  have other : s.pointer - 8 + UInt64.ofNat (8 * (j + 1)) ≠ s.pointer - 8 := by
    intro same
    have zero : UInt64.ofNat (8 * (j + 1)) = 0 := by simpa using same
    have value : (UInt64.ofNat (8 * (j + 1))).toNat = 8 * (j + 1) :=
      UInt64.toNat_ofNat_of_lt' (by rw [places] at inside; norm_num; omega)
    rw [zero] at value
    simp at value
  rw [Stack.peek, Stack.peek, Stack.push]
  dsimp only
  rw [Function.update_of_ne other, above]

theorem pushes_cons (s : Stack W) (w : W) (ws : List W) : s.pushes (w :: ws) = (s.push w).pushes ws := rfl

theorem pushes_append (s : Stack W) (ws vs : List W) : s.pushes (ws ++ vs) = (s.pushes ws).pushes vs := List.foldl_append

theorem drop_push (s : Stack W) (w : W) : ((s.push w).drop 1).pointer = s.pointer := by
  simp [Stack.drop, Stack.push]

theorem pointer_pushes (ws : List W) : ∀ s : Stack W, ((s.pushes ws).drop ws.length).pointer = s.pointer := by
  induction ws with
  | nil =>
    intro s
    simp [Stack.pushes, Stack.drop]
  | cons w ws ih =>
    intro s
    have rest := ih (s.push w)
    simp only [Stack.drop] at rest ⊢
    rw [pushes_cons, List.length_cons, Nat.mul_add, UInt64.ofNat_add, ← UInt64.add_assoc, rest]
    exact UInt64.sub_add_cancel s.pointer 8

/-- What was there before lies above what was pushed. -/
theorem peek_pushes_above (ws : List W) : ∀ (s : Stack W) (j : Nat), ws.length + j < places → (s.pushes ws).peek (ws.length + j) = s.peek j := by
  induction ws with
  | nil =>
    intro s j _
    rw [List.length_nil, Nat.zero_add]
    rfl
  | cons w ws ih =>
    intro s j inside
    rw [List.length_cons] at inside ⊢
    rw [pushes_cons, Nat.add_right_comm, Nat.add_assoc, ih _ _ (by omega), peek_push_succ _ _ (by omega)]

/-- The words that were pushed, the last one first. -/
theorem peek_pushes (few : ws.length < places) (here : ws.reverse[j]? = some w) : (s.pushes ws).peek j = w := by
  induction ws generalizing s with
  | nil => simp at here
  | cons v ws ih =>
    rw [List.length_cons] at few
    rw [List.reverse_cons] at here
    rw [pushes_cons]
    by_cases last : j < ws.length
    · rw [List.getElem?_append_left (by simpa using last)] at here
      exact ih (by omega) here
    · rw [List.getElem?_append_right (by simpa using last), List.length_reverse, List.getElem?_singleton] at here
      have first : j = ws.length := by
        by_contra other
        rw [if_neg (by omega)] at here
        cases here
      subst first
      rw [Nat.sub_self, if_pos rfl] at here
      have above := peek_pushes_above ws (s.push v) 0 (by omega)
      rw [Nat.add_zero, peek_push] at above
      exact above.trans (Option.some.inj here)

/-! ## Keeping -/

/-- The pointer and the first words from it on are the same. -/
structure Keeps (n : Nat) (s t : Stack W) : Prop where
  pointer : t.pointer = s.pointer
  words : ∀ j < n, t.peek j = s.peek j

theorem Keeps.mono (keeps : Keeps n s t) (le : j ≤ n) : Keeps j s t := ⟨keeps.pointer, fun i inside => keeps.words i (by omega)⟩

/-- Below what was pushed the words that were there are kept. -/
theorem Keeps.above (ws : List W) (keeps : Keeps (ws.length + n) (s.pushes ws) t) (few : ws.length + n ≤ places) : Keeps n s (t.drop ws.length) := by
  refine ⟨?_, fun j inside => ?_⟩
  · have same := pointer_pushes ws s
    rw [Stack.drop] at same ⊢
    rw [keeps.pointer]
    exact same
  · rw [peek_drop, keeps.words _ (by omega), peek_pushes_above _ _ _ (by omega)]

/-! ## Saving and restoring -/

variable [DecidableEq R] {regs regs' : R → W} {rs : List R} {r : R}

/-- The registers and the stack after words were popped into these registers. -/
def pops : List R → (R → W) → Stack W → (R → W) × Stack W
  | [], regs, s => (regs, s)
  | r :: rs, regs, s => pops rs (Function.update regs r (s.peek 0)) (s.drop 1)

theorem pops_stack (rs : List R) : ∀ (regs : R → W) (s : Stack W), (pops rs regs s).2 = s.drop rs.length := by
  induction rs with
  | nil =>
    intro regs s
    simp [pops, Stack.drop]
  | cons r rs ih =>
    intro regs s
    rw [pops, ih, drop_drop, List.length_cons, Nat.add_comm]

theorem pops_other (other : r ∉ rs) (regs : R → W) (s : Stack W) : (pops rs regs s).1 r = regs r := by
  induction rs generalizing regs s with
  | nil => rfl
  | cons q rs ih =>
    have different : r ≠ q := by
      rintro rfl
      exact other (.head _)
    rw [pops, ih (fun member => other (.tail _ member)), Function.update_of_ne different]

theorem pops_reg (nodup : rs.Nodup) (here : rs[j]? = some r) (regs : R → W) (s : Stack W) : (pops rs regs s).1 r = s.peek j := by
  induction rs generalizing j regs s with
  | nil => simp at here
  | cons q rs ih =>
    obtain ⟨fresh, rest⟩ := List.nodup_cons.mp nodup
    cases j with
    | zero =>
      cases here
      rw [pops, pops_other fresh, Function.update_self]
    | succ j => rw [pops, ih rest here, peek_drop, Nat.add_comm]

/-- Registers that were pushed are restored by popping them in the other order. -/
theorem pops_pushes (nodup : rs.Nodup) (few : rs.length < places) (keeps : Keeps rs.length (s.pushes (rs.map regs)) t) (member : r ∈ rs) :
    (pops rs.reverse regs' t).1 r = regs r := by
  obtain ⟨i, here⟩ := List.mem_iff_getElem?.mp (List.mem_reverse.mpr member)
  have inside : i < rs.length := by simpa using (List.getElem?_eq_some_iff.mp here).1
  rw [pops_reg (List.nodup_reverse.mpr nodup) here, keeps.words i inside]
  exact peek_pushes (by simpa using few) (by rw [← List.map_reverse, List.getElem?_map, here, Option.map_some])

end Extron.Pushes
