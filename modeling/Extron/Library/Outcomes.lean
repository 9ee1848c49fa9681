import Mathlib.Tactic

/-!
Computations that change a state and may stop. `Post` states what holds of the
value and state when a computation returns and of the reason and state when it
stops; its rules follow sequencing and counted loops, so that a loop needs only
what one round of its body preserves.
-/
namespace Extron.Outcomes

variable {ε σ α β : Type}

/-- The state in which a computation returned or stopped. -/
def final : EStateM.Result ε σ α → σ
  | .ok _ s => s
  | .error _ s => s

/-- `Q` holds on return and `E` on a stop. -/
def Post (Q : α → σ → Prop) (E : ε → σ → Prop) : EStateM.Result ε σ α → Prop
  | .ok a s => Q a s
  | .error e s => E e s

variable {Q Q' : α → σ → Prop} {E E' : ε → σ → Prop} {R : β → σ → Prop} {r : EStateM.Result ε σ α}
  {x : EStateM ε σ α} {f : α → EStateM ε σ β} {s s' : σ}

@[simp] theorem post_ok (a : α) (s : σ) : Post Q E (.ok a s) ↔ Q a s := Iff.rfl

theorem Post.mono (holds : Post Q E r) (onReturn : ∀ a s, Q a s → Q' a s) (onStop : ∀ e s, E e s → E' e s) :
    Post Q' E' r := by
  cases r with
  | ok a s => exact onReturn a s holds
  | error e s => exact onStop e s holds

theorem Post.and (first : Post Q E r) (second : Post Q' E' r) :
    Post (fun a s => Q a s ∧ Q' a s) (fun e s => E e s ∧ E' e s) r := by
  cases r with
  | ok a s => exact ⟨first, second⟩
  | error e s => exact ⟨first, second⟩

theorem Post.of_ok {a : α} (holds : Post Q E (x s)) (ran : x s = .ok a s') : Q a s' := by
  rw [ran] at holds
  exact holds

theorem Post.of_error {e : ε} (holds : Post Q E (x s)) (ran : x s = .error e s') : E e s' := by
  rw [ran] at holds
  exact holds

/-- What cannot stop returns. -/
theorem Post.returns (holds : Post Q (fun _ _ => False) r) : ∃ a s, r = .ok a s ∧ Q a s := by
  cases r with
  | ok a s => exact ⟨a, s, rfl, holds⟩
  | error e s => exact holds.elim

theorem bind_ok {a : α} (ran : x s = .ok a s') : (x >>= f) s = f a s' := by
  show EStateM.bind x f s = f a s'
  rw [EStateM.bind, ran]

theorem bind_error {e : ε} (ran : x s = .error e s') : (x >>= f) s = .error e s' := by
  show EStateM.bind x f s = .error e s'
  rw [EStateM.bind, ran]

/-- Sequences agree when their second parts agree wherever the first part returns. -/
theorem bind_congr_of {g : α → EStateM ε σ β} (same : ∀ a mid, x s = .ok a mid → f a mid = g a mid) :
    (x >>= f) s = (x >>= g) s := by
  cases ran : x s with
  | ok a mid => rw [bind_ok ran, bind_ok ran, same a mid ran]
  | error e mid => rw [bind_error ran, bind_error ran]

/-- A sequence returns only when both parts do. -/
theorem bind_eq_ok {b : β} : (x >>= f) s = .ok b s' ↔ ∃ a mid, x s = .ok a mid ∧ f a mid = .ok b s' := by
  cases ran : x s with
  | ok a mid =>
    rw [bind_ok ran]
    constructor
    · intro rest
      exact ⟨a, mid, rfl, rest⟩
    · rintro ⟨a', mid', same, rest⟩
      cases same
      exact rest
  | error e mid =>
    rw [bind_error ran]
    constructor
    · intro impossible
      cases impossible
    · rintro ⟨_, _, impossible, _⟩
      cases impossible

theorem post_bind (holds : Post (fun a s => Post R E (f a s)) E (x s)) : Post R E ((x >>= f) s) := by
  cases ran : x s with
  | ok a mid =>
    rw [bind_ok ran]
    exact holds.of_ok ran
  | error e mid =>
    rw [bind_error ran]
    exact holds.of_error ran

@[simp] theorem run_pure (a : α) : (pure a : EStateM ε σ α) s = .ok a s := rfl
@[simp] theorem run_modify (g : σ → σ) : (modify g : EStateM ε σ PUnit) s = .ok () (g s) := rfl
@[simp] theorem run_set (t : σ) : (set t : EStateM ε σ PUnit) s = .ok () t := rfl
@[simp] theorem get_bind (f : σ → EStateM ε σ β) : (get >>= f) s = f s s := rfl
@[simp] theorem set_bind (t : σ) (f : PUnit → EStateM ε σ β) : (set t >>= f) s = f () t := rfl
@[simp] theorem modify_bind (g : σ → σ) (f : PUnit → EStateM ε σ β) : (modify g >>= f) s = f () (g s) := rfl

/-- The body run for `k`, `k + 1`, and so on, `n` times. -/
def times (body : Nat → EStateM ε σ Unit) : Nat → Nat → EStateM ε σ Unit
  | _, 0 => pure ()
  | k, n + 1 => do
    body k
    times body (k + 1) n

/-- What one round carries from `k` to `k + 1`, the loop carries to its end. -/
theorem post_times {body : Nat → EStateM ε σ Unit} (Inv : Nat → σ → Prop) (stop : Nat)
    (round : ∀ k s, k < stop → Inv k s → Post (fun _ => Inv (k + 1)) E (body k s)) :
    ∀ n k s, k + n = stop → Inv k s → Post (fun _ => Inv stop) E (times body k n s) := by
  intro n
  induction n with
  | zero =>
    intro k s total start
    rw [Nat.add_zero] at total
    exact total ▸ start
  | succ n ih =>
    intro k s total start
    apply post_bind
    exact (round k s (by omega) start).mono (fun _ mid here => ih (k + 1) mid (by omega) here) (fun _ _ here => here)

/-- The last round by itself. -/
theorem times_succ_last (body : Nat → EStateM ε σ Unit) :
    ∀ (n k : Nat) (s : σ), times body k (n + 1) s = (times body k n >>= fun _ => body (k + n)) s
  | 0, k, s => by
    rw [times, times, Nat.add_zero]
    cases ran : body k s with
    | ok a mid => rw [bind_ok ran, bind_ok (run_pure ())]; exact ran.symm
    | error e mid => rw [bind_error ran, bind_ok (run_pure ())]; exact ran.symm
  | n + 1, k, s => by
    rw [times]
    cases ran : body k s with
    | ok a mid =>
      have rest : times body k (n + 1) s = times body (k + 1) n mid := by
        rw [times, bind_ok ran]
      have order : k + (n + 1) = k + 1 + n := by omega
      rw [bind_ok ran, times_succ_last body n (k + 1) mid, order]
      cases swept : times body (k + 1) n mid with
      | ok b last => rw [bind_ok swept, bind_ok (rest.trans swept)]
      | error e last => rw [bind_error swept, bind_error (rest.trans swept)]
    | error e mid =>
      have stopped : times body k (n + 1) s = .error e mid := by
        rw [times, bind_error ran]
      rw [bind_error ran, bind_error stopped]

/-- A loop whose rounds lead through known states ends in the last of them. -/
theorem times_ok (body : Nat → EStateM ε σ Unit) (at_ : Nat → σ) {k n : Nat}
    (round : ∀ j, k ≤ j → j < k + n → body j (at_ j) = .ok () (at_ (j + 1))) :
    times body k n (at_ k) = .ok () (at_ (k + n)) := by
  induction n generalizing k with
  | zero => rfl
  | succ n ih =>
    have first := round k le_rfl (by omega)
    have rest := ih (k := k + 1) (fun j low high => round j (by omega) (by omega))
    rw [times, bind_ok first, rest]
    congr 2
    omega

/-! ## Invariants -/

/-- Whether the computation returns or stops, the invariant is kept. -/
def Preserves (Inv : σ → Prop) (x : EStateM ε σ α) : Prop := ∀ s, Inv s → Post (fun _ => Inv) (fun _ => Inv) (x s)

section
variable {Inv : σ → Prop}

theorem preserves_pure (a : α) : Preserves Inv (pure a : EStateM ε σ α) := fun _ here => here

theorem preserves_throw (e : ε) : Preserves Inv (throw e : EStateM ε σ α) := fun _ here => here

theorem preserves_get : Preserves Inv (get : EStateM ε σ σ) := fun _ here => here

theorem preserves_modify {g : σ → σ} (each : ∀ s, Inv s → Inv (g s)) : Preserves Inv (modify g : EStateM ε σ PUnit) := each

theorem preserves_bind (first : Preserves Inv x) (rest : ∀ a, Preserves Inv (f a)) : Preserves Inv (x >>= f) := by
  intro s here
  apply post_bind
  exact (first s here).mono (fun a mid kept => rest a mid kept) (fun _ _ kept => kept)

theorem preserves_ite {c : Prop} [Decidable c] {y : EStateM ε σ α} (first : Preserves Inv x) (second : Preserves Inv y) :
    Preserves Inv (if c then x else y) := by
  by_cases holds : c
  · rw [if_pos holds]
    exact first
  · rw [if_neg holds]
    exact second

theorem preserves_times {body : Nat → EStateM ε σ Unit} {k n : Nat} (each : ∀ j < k + n, Preserves Inv (body j)) :
    Preserves Inv (times body k n) :=
  fun s here => post_times (fun _ => Inv) (k + n) (fun j mid below kept => each j below mid kept) n k s rfl here

/-- The state in which a computation ended keeps the invariant. -/
theorem Preserves.final (kept : Preserves Inv x) (here : Inv s) : Inv (final (x s)) := by
  have ended := kept s here
  cases ran : x s with
  | ok a s' => exact ended.of_ok ran
  | error e s' => exact ended.of_error ran

end

/-- However the computation ends, the state is as it was. -/
def Quiet (x : EStateM ε σ α) : Prop := ∀ s, Preserves (· = s) x

theorem Quiet.preserves {Inv : σ → Prop} (quiet : Quiet x) : Preserves Inv x := by
  intro s here
  refine (quiet s s rfl).mono ?_ ?_
  · rintro _ _ rfl
    exact here
  · rintro _ _ rfl
    exact here

theorem quiet_pure (a : α) : Quiet (pure a : EStateM ε σ α) := fun _ => preserves_pure a

theorem quiet_get : Quiet (get : EStateM ε σ σ) := fun _ => preserves_get

theorem quiet_bind (first : Quiet x) (rest : ∀ a, Quiet (f a)) : Quiet (x >>= f) :=
  fun s => preserves_bind (first s) fun a => rest a s

theorem quiet_ite {c : Prop} [Decidable c] {y : EStateM ε σ α} (first : Quiet x) (second : Quiet y) :
    Quiet (if c then x else y) :=
  fun s => preserves_ite (first s) (second s)

end Extron.Outcomes
