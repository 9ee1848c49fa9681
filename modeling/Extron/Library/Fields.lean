import Mathlib.Tactic

/-!
Records in a memory of bytes. A memory gives the byte of each address that can be
accessed; a field is a number of some width at an address, lowest byte first. A
store changes only the bytes of its field, so that fields apart from it stay, and
a sequence of stores to fields that are apart from each other leaves each of them
with its value.
-/
namespace Extron.Fields

/-- The bytes of the addresses that can be accessed. -/
abbrev Memory := Nat → Option UInt8

variable {M M' : Memory} {n m a b w x : Nat}

/-- The number in the `n` bytes from `a` on. -/
def fetch (M : Memory) : Nat → Nat → Option Nat
  | 0, _ => some 0
  | n + 1, a => do
    let low ← M a
    let high ← fetch M n (a + 1)
    return low.toNat + 256 * high

/-- The memory with the number `w` in the `n` bytes from `a` on. -/
def deposit : Nat → Nat → Nat → Memory → Memory
  | 0, _, _, M => M
  | n + 1, a, w, M => deposit n (a + 1) (w / 256) (Function.update M a (some (UInt8.ofNat w)))

/-- Every byte from `a` to `b` can be accessed. -/
def Spans (M : Memory) (a b : Nat) : Prop := ∀ x, a ≤ x → x < b → (M x).isSome

theorem Spans.mono {c d : Nat} (spans : Spans M a b) (low : a ≤ c) (high : d ≤ b) : Spans M c d :=
  fun x first last => spans x (by omega) (by omega)

theorem deposit_outside (out : x < a ∨ a + n ≤ x) : deposit n a w M x = M x := by
  induction n generalizing a w M with
  | zero => rfl
  | succ n ih =>
    rw [deposit, ih (by omega), Function.update_of_ne (by omega)]

theorem isSome_deposit (spans : Spans M a (a + n)) (x : Nat) : (deposit n a w M x).isSome = (M x).isSome := by
  induction n generalizing a w M with
  | zero => rfl
  | succ n ih =>
    have first := spans a le_rfl (by omega)
    rw [deposit, ih]
    · by_cases here : x = a
      · rw [here, Function.update_self, first]
        rfl
      · rw [Function.update_of_ne here]
    · intro y low high
      rw [Function.update_of_ne (by omega)]
      exact spans y (by omega) (by omega)

theorem spans_deposit {c d : Nat} (spans : Spans M a (a + n)) (others : Spans M c d) : Spans (deposit n a w M) c d := by
  intro x low high
  rw [isSome_deposit spans]
  exact others x low high

theorem fetch_congr (same : ∀ x, a ≤ x → x < a + n → M x = M' x) : fetch M n a = fetch M' n a := by
  induction n generalizing a with
  | zero => rfl
  | succ n ih =>
    rw [fetch, fetch, same a le_rfl (by omega), ih fun x low high => same x (by omega) (by omega)]

theorem fetch_deposit : fetch (deposit n a w M) n a = some (w % 256 ^ n) := by
  induction n generalizing a w M with
  | zero => simp [fetch, Nat.mod_one]
  | succ n ih =>
    have byte : (UInt8.ofNat w).toNat = w % 256 := UInt8.toNat_ofNat'
    rw [fetch, deposit, deposit_outside (by omega), Function.update_self, ih]
    simp only [Option.bind_eq_bind, Option.bind_some, Option.pure_def, byte]
    rw [Nat.pow_succ', Nat.mod_mul]

/-- A number that was fetched elsewhere brings its bytes along. -/
theorem deposit_fetch {N : Memory} {i : Nat} (there : fetch N n b = some w) (below : i < n) :
    deposit n a w M (a + i) = N (b + i) := by
  induction n generalizing a b w M i with
  | zero => omega
  | succ n ih =>
    rw [fetch] at there
    obtain ⟨low, first, rest⟩ := Option.bind_eq_some_iff.mp there
    obtain ⟨high, others, total⟩ := Option.bind_eq_some_iff.mp rest
    cases total
    have small := low.toNat_lt
    rw [deposit]
    cases i with
    | zero =>
      have byte : UInt8.ofNat (low.toNat + 256 * high) = low := by
        apply UInt8.toNat_inj.mp
        rw [UInt8.toNat_ofNat']
        omega
      show deposit n (a + 1) _ _ a = N b
      rw [deposit_outside (by omega), Function.update_self, byte, first]
    | succ i =>
      have rest : (low.toNat + 256 * high) / 256 = high := by omega
      rw [rest, Nat.add_comm i 1, ← Nat.add_assoc, ← Nat.add_assoc]
      exact ih others (by omega)

theorem fetch_spans (there : fetch M n a = some w) : Spans M a (a + n) := by
  induction n generalizing a w with
  | zero =>
    intro x low high
    omega
  | succ n ih =>
    rw [fetch] at there
    obtain ⟨low, first, rest⟩ := Option.bind_eq_some_iff.mp there
    obtain ⟨high, others, _⟩ := Option.bind_eq_some_iff.mp rest
    intro x above below
    by_cases here : x = a
    · rw [here, first]
      rfl
    · exact ih others x (by omega) (by omega)

theorem spans_fetch (spans : Spans M a (a + n)) : ∃ w, fetch M n a = some w := by
  induction n generalizing a with
  | zero => exact ⟨0, rfl⟩
  | succ n ih =>
    obtain ⟨low, first⟩ := Option.isSome_iff_exists.mp (spans a le_rfl (by omega))
    obtain ⟨high, others⟩ := ih (a := a + 1) fun x above below => spans x (by omega) (by omega)
    exact ⟨low.toNat + 256 * high, by rw [fetch, first, others]; rfl⟩

/-- A number of several bytes in two parts. -/
theorem fetch_append {k : Nat} (low : fetch M n a = some w) (high : fetch M k (a + n) = some x) :
    fetch M (n + k) a = some (w + 256 ^ n * x) := by
  induction n generalizing a w with
  | zero =>
    cases low
    rw [Nat.zero_add, Nat.pow_zero, Nat.one_mul, Nat.zero_add]
    exact high
  | succ n ih =>
    rw [fetch] at low
    obtain ⟨byte, first, rest⟩ := Option.bind_eq_some_iff.mp low
    obtain ⟨others, second, total⟩ := Option.bind_eq_some_iff.mp rest
    cases total
    have place : a + (n + 1) = a + 1 + n := by omega
    rw [place] at high
    rw [Nat.add_right_comm, fetch, first, ih second high, Nat.pow_succ']
    simp only [Option.bind_eq_bind, Option.bind_some, Option.pure_def, Option.some.injEq]
    ring

theorem fetch_lt (there : fetch M n a = some w) : w < 256 ^ n := by
  induction n generalizing a w with
  | zero =>
    cases there
    decide
  | succ n ih =>
    rw [fetch] at there
    obtain ⟨low, first, rest⟩ := Option.bind_eq_some_iff.mp there
    obtain ⟨high, others, total⟩ := Option.bind_eq_some_iff.mp rest
    cases total
    have small := low.toNat_lt
    have bound := ih others
    rw [Nat.pow_succ']
    omega

/-! ## Fields -/

/-- A number of `width` bytes at an address. -/
structure Field where
  at_ : Nat
  width : Nat
  value : Nat
deriving DecidableEq, Repr

/-- The memory has the field. -/
def Field.In (f : Field) (M : Memory) : Prop := fetch M f.width f.at_ = some f.value

/-- Two fields share no byte. -/
def Field.Apart (f g : Field) : Prop := f.at_ + f.width ≤ g.at_ ∨ g.at_ + g.width ≤ f.at_

/-- The field has room for its value. -/
def Field.Fits (f : Field) : Prop := f.value < 256 ^ f.width

/-- The memory with the field stored. -/
def Field.store (f : Field) (M : Memory) : Memory := deposit f.width f.at_ f.value M

/-- The memory after a sequence of stores. -/
def stores : List Field → Memory → Memory
  | [], M => M
  | f :: fs, M => stores fs (f.store M)

/-- Every store is to bytes that can be accessed. -/
def Reach (fs : List Field) (M : Memory) : Prop := ∀ f ∈ fs, Spans M f.at_ (f.at_ + f.width)

section
variable {f g : Field} {fs gs : List Field}

theorem Field.Apart.symm (apart : f.Apart g) : g.Apart f := Or.symm apart

instance symm_apart : Std.Symm Field.Apart := ⟨fun _ _ => Field.Apart.symm⟩

theorem Field.In.spans (here : f.In M) : Spans M f.at_ (f.at_ + f.width) := fetch_spans here

theorem Field.In.fits (here : f.In M) : f.Fits := fetch_lt here

theorem Field.In.congr (here : f.In M) (same : ∀ x, f.at_ ≤ x → x < f.at_ + f.width → M' x = M x) : f.In M' :=
  (fetch_congr same).trans here

theorem Field.in_store (fits : f.Fits) : f.In (f.store M) := by
  rw [Field.In, Field.store, fetch_deposit, Nat.mod_eq_of_lt fits]

theorem Field.In.store (here : g.In M) (apart : f.Apart g) : g.In (f.store M) := by
  refine here.congr fun x low high => deposit_outside ?_
  rw [Field.Apart] at apart
  omega

theorem stores_append (fs gs : List Field) (M : Memory) : stores (fs ++ gs) M = stores gs (stores fs M) := by
  induction fs generalizing M with
  | nil => rfl
  | cons f fs ih => exact ih (f.store M)

theorem stores_outside (out : ∀ f ∈ fs, x < f.at_ ∨ f.at_ + f.width ≤ x) : stores fs M x = M x := by
  induction fs generalizing M with
  | nil => rfl
  | cons f fs ih =>
    rw [stores, ih fun g member => out g (.tail _ member)]
    exact deposit_outside (out f (.head _))

theorem spans_store {c d : Nat} (spans : Spans M f.at_ (f.at_ + f.width)) (others : Spans M c d) : Spans (f.store M) c d :=
  spans_deposit spans others

theorem reach_store (spans : Spans M f.at_ (f.at_ + f.width)) (reach : Reach fs M) : Reach fs (f.store M) :=
  fun g member => spans_store spans (reach g member)

theorem isSome_stores (reach : Reach fs M) (x : Nat) : (stores fs M x).isSome = (M x).isSome := by
  induction fs generalizing M with
  | nil => rfl
  | cons f fs ih =>
    have spans := reach f (.head _)
    rw [stores, ih (reach_store spans fun g member => reach g (.tail _ member))]
    exact isSome_deposit spans x

theorem spans_stores {c d : Nat} (reach : Reach fs M) (others : Spans M c d) : Spans (stores fs M) c d := by
  intro x low high
  rw [isSome_stores reach]
  exact others x low high

/-- A field that no store touches stays. -/
theorem Field.In.stores (here : g.In M) (apart : ∀ f ∈ fs, f.Apart g) : g.In (stores fs M) := by
  induction fs generalizing M with
  | nil => exact here
  | cons f fs ih => exact ih (here.store (apart f (.head _))) fun h member => apart h (.tail _ member)

/-- The last store takes effect. -/
theorem in_stores_concat (fits : f.Fits) : f.In (stores (fs ++ [f]) M) := by
  rw [stores_append]
  exact Field.in_store fits

/-- Different fields share no byte. -/
def Separate (fs : List Field) : Prop := ∀ f ∈ fs, ∀ g ∈ fs, f ≠ g → f.Apart g

theorem separate_of_pairwise (apart : fs.Pairwise Field.Apart) : Separate fs :=
  fun _ member _ other different => apart.forall member other different

theorem Separate.mono (separate : Separate gs) (sub : ∀ f ∈ fs, f ∈ gs) : Separate fs :=
  fun f member g other different => separate f (sub f member) g (sub g other) different

/-- Stores to separate fields all take effect. -/
theorem in_stores (separate : Separate fs) (member : f ∈ fs) (fits : f.Fits) : f.In (stores fs M) := by
  induction fs generalizing M with
  | nil => cases member
  | cons g fs ih =>
    by_cases later : f ∈ fs
    · exact ih (separate.mono fun h there => .tail _ there) later
    · have first : f = g := (List.mem_cons.mp member).resolve_right later
      subst first
      refine (Field.in_store fits).stores fun h there => ?_
      have different : h ≠ f := fun same => later (same ▸ there)
      exact separate h (.tail _ there) f (.head _) different

end

/-! ## Records -/

/-- The memory has all the fields. -/
def Holds (fs : List Field) (M : Memory) : Prop := ∀ f ∈ fs, f.In M

/-- The fields were stored, in any order, and nothing else was. -/
structure Written (fs : List Field) (M M' : Memory) : Prop where
  holds : Holds fs M'
  keeps : ∀ x, (∀ f ∈ fs, x < f.at_ ∨ f.at_ + f.width ≤ x) → M' x = M x

section
variable {f : Field} {fs gs ws : List Field}

theorem holds_append : Holds (fs ++ gs) M ↔ Holds fs M ∧ Holds gs M := List.forall_mem_append

theorem Holds.congr (here : Holds fs M) {lo hi : Nat} (inside : ∀ f ∈ fs, lo ≤ f.at_ ∧ f.at_ + f.width ≤ hi)
    (same : ∀ x, lo ≤ x → x < hi → M' x = M x) : Holds fs M' := by
  intro f member
  obtain ⟨low, high⟩ := inside f member
  exact (here f member).congr fun x above below => same x (by omega) (by omega)

theorem written_stores (separate : Separate fs) (fit : ∀ f ∈ fs, f.Fits) (same : ∀ f, f ∈ ws ↔ f ∈ fs) :
    Written fs M (stores ws M) := by
  refine ⟨fun f member => ?_, fun x out => ?_⟩
  · exact in_stores (separate.mono fun g there => (same g).mp there) ((same f).mpr member) (fit f member)
  · exact stores_outside fun f member => out f ((same f).mp member)

/-- A field apart from those that were stored is as it was. -/
theorem Written.keep (written : Written fs M M') (here : f.In M) (apart : ∀ g ∈ fs, g.Apart f) : f.In M' := by
  refine here.congr fun x low high => written.keeps x fun g member => ?_
  have := apart g member
  rw [Field.Apart] at this
  omega

/-- A record is there when each of its fields was stored, or was there and apart. -/
theorem Written.record (written : Written fs M M') (each : ∀ f ∈ gs, f ∈ fs ∨ f.In M ∧ ∀ g ∈ fs, g.Apart f) :
    Holds gs M' := by
  intro f member
  rcases each f member with stored | ⟨here, apart⟩
  · exact written.holds f stored
  · exact written.keep here apart

/-- A record of which one field was stored. -/
theorem Written.change {old new : List Field} (written : Written fs M M') (here : Holds old M) (mine : f ∈ fs) (member : f ∈ new)
    (separate : Separate new) (others : ∀ g ∈ new, g ≠ f → g ∈ old) (elsewhere : ∀ g ∈ fs, g = f ∨ ∀ h ∈ new, g.Apart h) :
    Holds new M' := by
  refine written.record fun g there => ?_
  by_cases changed : g = f
  · exact .inl (changed ▸ mine)
  · refine .inr ⟨here g (others g there changed), fun h stored => ?_⟩
    rcases elsewhere h stored with rfl | apart
    · exact separate h member g there (Ne.symm changed)
    · exact apart g there

end

end Extron.Fields
