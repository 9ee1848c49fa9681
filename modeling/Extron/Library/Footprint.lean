import Extron.Library.Outcomes

/-!
Computations that keep a record of the places they read and of the points they
visit. `Runs` is evaluation with a footprint: the value, the final state, the
visits in order, and that every read is at a permitted place. `Refines` says that
a recorded computation that returns does what a plain one does, so that the record
can be forgotten.
-/
namespace Extron.Footprint
open Extron.Outcomes

/-- A state with a record of reads and visits, the latest first. -/
structure Recorded (σ ρ ν : Type) where
  state : σ
  reads : List ρ
  visits : List ν

abbrev Recording (ε σ ρ ν : Type) := EStateM ε (Recorded σ ρ ν)

section
variable {ε σ ρ ν α β : Type}

/-- A value that is read from the given places. -/
def look (places : List ρ) (value : σ → α) : Recording ε σ ρ ν α := fun r =>
  .ok (value r.state) { r with reads := places ++ r.reads }

def visit (point : ν) : Recording ε σ ρ ν Unit := modify fun r => { r with visits := point :: r.visits }

/-- A plain computation, which records nothing. -/
def plain (x : EStateM ε σ α) : Recording ε σ ρ ν α := fun r =>
  match x r.state with
  | .ok a s => .ok a { r with state := s }
  | .error e s => .error e { r with state := s }

/-! ## Evaluation with a footprint -/

/-- From `s` the computation returns `a` in `s'`, after the visits, and reads only at
    permitted places, whatever was recorded before. -/
def Runs (permitted : ρ → Prop) (x : Recording ε σ ρ ν α) (s : σ) (a : α) (s' : σ) (visits : List ν) : Prop :=
  ∀ reads visited, ∃ more, x ⟨s, reads, visited⟩ = .ok a ⟨s', more ++ reads, visits.reverse ++ visited⟩ ∧
    ∀ place ∈ more, permitted place

variable {permitted : ρ → Prop} {x : Recording ε σ ρ ν α} {f : α → Recording ε σ ρ ν β} {s t u : σ} {a : α} {b : β}
  {first second : List ν}

theorem runs_pure (a : α) : Runs permitted (pure a : Recording ε σ ρ ν α) s a s [] :=
  fun _ _ => ⟨[], rfl, fun _ none => absurd none List.not_mem_nil⟩

theorem runs_bind (start : Runs permitted x s a t first) (rest : Runs permitted (f a) t b u second) :
    Runs permitted (x >>= f) s b u (first ++ second) := by
  intro reads visited
  obtain ⟨more, ran, fine⟩ := start reads visited
  obtain ⟨again, ran', fine'⟩ := rest (more ++ reads) (first.reverse ++ visited)
  refine ⟨again ++ more, ?_, ?_⟩
  · rw [bind_ok ran, ran', List.append_assoc, List.reverse_append, List.append_assoc]
  · intro place member
    rcases List.mem_append.mp member with later | earlier
    · exact fine' place later
    · exact fine place earlier

theorem runs_look {places : List ρ} (value : σ → α) (fine : ∀ place ∈ places, permitted place) :
    Runs permitted (look places value : Recording ε σ ρ ν α) s (value s) s [] :=
  fun _ _ => ⟨places, rfl, fine⟩

theorem runs_visit (point : ν) : Runs permitted (visit point : Recording ε σ ρ ν Unit) s () s [point] :=
  fun _ _ => ⟨[], rfl, fun _ none => absurd none List.not_mem_nil⟩

theorem runs_plain {y : EStateM ε σ α} (ran : y s = .ok a t) :
    Runs permitted (plain y : Recording ε σ ρ ν α) s a t [] := by
  intro reads visited
  refine ⟨[], ?_, fun _ none => absurd none List.not_mem_nil⟩
  show plain y ⟨s, reads, visited⟩ = _
  rw [plain]
  simp only [ran]
  rfl

/-! ## What a computation leaves -/

/-- From `s` the computation returns after the visits, and what it leaves meets `Q`. -/
def Meets (permitted : ρ → Prop) (x : Recording ε σ ρ ν α) (s : σ) (visits : List ν) (Q : α → σ → Prop) : Prop :=
  ∃ a t, Runs permitted x s a t visits ∧ Q a t

section
variable {P Q : α → σ → Prop} {R : β → σ → Prop}

theorem Meets.mono (meets : Meets permitted x s first P) (weaker : ∀ a t, P a t → Q a t) :
    Meets permitted x s first Q := by
  obtain ⟨a, t, runs, holds⟩ := meets
  exact ⟨a, t, runs, weaker a t holds⟩

theorem meets_pure (holds : P a s) : Meets permitted (pure a : Recording ε σ ρ ν α) s [] P := ⟨a, s, runs_pure a, holds⟩

theorem meets_bind (start : Meets permitted x s first P) (rest : ∀ a t, P a t → Meets permitted (f a) t second R) :
    Meets permitted (x >>= f) s (first ++ second) R := by
  obtain ⟨a, t, runs, holds⟩ := start
  obtain ⟨b, u, runs', holds'⟩ := rest a t holds
  exact ⟨b, u, runs_bind runs runs', holds'⟩

/-- After a part that visits nothing. -/
theorem meets_after (start : Meets permitted x s [] P) (rest : ∀ a t, P a t → Meets permitted (f a) t second R) :
    Meets permitted (x >>= f) s second R := meets_bind start rest

theorem meets_look {places : List ρ} {value : σ → α} (fine : ∀ place ∈ places, permitted place)
    (rest : Meets permitted (f (value s)) s second R) :
    Meets permitted ((look places value : Recording ε σ ρ ν α) >>= f) s second R := by
  obtain ⟨b, u, runs, holds⟩ := rest
  exact ⟨b, u, runs_bind (runs_look value fine) runs, holds⟩

theorem meets_visit {point : ν} {h : Unit → Recording ε σ ρ ν β} (rest : Meets permitted (h ()) s second R) :
    Meets permitted ((visit point : Recording ε σ ρ ν Unit) >>= h) s (point :: second) R := by
  obtain ⟨b, u, runs, holds⟩ := rest
  exact ⟨b, u, runs_bind (runs_visit point) runs, holds⟩

theorem meets_plain {y : EStateM ε σ α} (ran : y s = .ok a t) (rest : Meets permitted (f a) t second R) :
    Meets permitted ((plain y : Recording ε σ ρ ν α) >>= f) s second R := by
  obtain ⟨b, u, runs, holds⟩ := rest
  exact ⟨b, u, runs_bind (runs_plain ran) runs, holds⟩

theorem meets_last {y : EStateM ε σ α} (ran : y s = .ok a t) (holds : P a t) :
    Meets permitted (plain y : Recording ε σ ρ ν α) s [] P := ⟨a, t, runs_plain ran, holds⟩

end

/-! ## Forgetting the record -/

/-- When the recorded computation returns from `s`, the plain one does the same. -/
def RefinesAt (s : σ) (x : Recording ε σ ρ ν α) (y : EStateM ε σ α) : Prop :=
  ∀ reads visited a r, x ⟨s, reads, visited⟩ = .ok a r → y s = .ok a r.state

def Refines (x : Recording ε σ ρ ν α) (y : EStateM ε σ α) : Prop := ∀ s, RefinesAt s x y

variable {y : EStateM ε σ α} {g : α → EStateM ε σ β}

theorem Runs.forget (runs : Runs permitted x s a t first) (refines : RefinesAt s x y) : y s = .ok a t := by
  obtain ⟨more, ran, _⟩ := runs [] []
  exact refines [] [] a _ ran

theorem refines_pure (a : α) : Refines (pure a : Recording ε σ ρ ν α) (pure a) := by
  intro s reads visited b r ran
  cases ran
  rfl

theorem refines_plain (y : EStateM ε σ α) : Refines (plain y : Recording ε σ ρ ν α) y := by
  intro s reads visited b r ran
  cases done : y s with
  | ok a t =>
    simp only [plain, done] at ran
    cases ran
    rfl
  | error e t =>
    simp only [plain, done] at ran
    cases ran

theorem refines_bind (start : Refines x y) (rest : ∀ a, Refines (f a) (g a)) : Refines (x >>= f) (y >>= g) := by
  intro s reads visited b r ran
  obtain ⟨a, mid, ran', later⟩ := bind_eq_ok.mp ran
  rw [bind_ok (start s reads visited a mid ran')]
  exact rest a mid.state mid.reads mid.visits b r later

/-- A part that leaves the state alone can be left out. -/
theorem refinesAt_skip {z : EStateM ε σ β} (still : ∀ reads visited a r, x ⟨s, reads, visited⟩ = .ok a r → r.state = s)
    (rest : ∀ a, RefinesAt s (f a) z) : RefinesAt s (x >>= f) z := by
  intro reads visited b r ran
  obtain ⟨a, mid, ran', later⟩ := bind_eq_ok.mp ran
  have same := still reads visited a mid ran'
  obtain ⟨state, mids, midVisits⟩ := mid
  dsimp only at same
  subst same
  exact rest a mids midVisits b r later

theorem refinesAt_look {places : List ρ} {value : σ → α} {z : EStateM ε σ β} (rest : RefinesAt s (f (value s)) z) :
    RefinesAt s ((look places value : Recording ε σ ρ ν α) >>= f) z := by
  intro reads visited b r ran
  exact rest _ _ b r ran

theorem refinesAt_visit {point : ν} {h : Unit → Recording ε σ ρ ν β} {z : EStateM ε σ β} (rest : RefinesAt s (h ()) z) :
    RefinesAt s ((visit point : Recording ε σ ρ ν Unit) >>= h) z := by
  intro reads visited b r ran
  exact rest _ _ b r ran

theorem refinesAt_get {h : σ → EStateM ε σ α} (rest : RefinesAt s x (h s)) : RefinesAt s x (get >>= h) := rest

theorem refinesAt_ite {c : Prop} [Decidable c] {x' : Recording ε σ ρ ν α} {y' : EStateM ε σ α}
    (yes : c → RefinesAt s x y) (no : ¬ c → RefinesAt s x' y') :
    RefinesAt s (if c then x else x') (if c then y else y') := by
  by_cases holds : c
  · rw [if_pos holds, if_pos holds]
    exact yes holds
  · rw [if_neg holds, if_neg holds]
    exact no holds

theorem refines_throw (e : ε) : Refines (throw e : Recording ε σ ρ ν α) (throw e) := by
  intro s reads visited a r ran
  cases ran

end

end Extron.Footprint
