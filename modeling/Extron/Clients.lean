import Extron.Krealloc
import Extron.Library.Stores

/-!
The heap as its clients see it: a store of ranges that do not overlap. Every request of
a client that keeps to the rules is answered as the store allows, or the kernel is out of
memory.
-/
namespace Extron.Liballoc
open Extron.Multiboot Extron.Pmm Extron.Regions Extron.Vmm Extron.OwnPages Extron.Startup Extron.Heap
open Extron.Fields Extron.Chains Extron.HeapBytes Extron.Outcomes Extron.Kheap Extron.Stores
set_option linter.unusedSimpArgs false

/-! ## Requests -/

/-- A request as calls and accesses of the kernel. -/
def perform : Request UInt8 → Alloc (Answer UInt8)
  | .allocate n => do return .pointer (← kmalloc (UInt64.ofNat n)).toNat
  | .clear nobj size => do return .pointer (← kcalloc (UInt64.ofNat nobj) (UInt64.ofNat size)).toNat
  | .resize p n => do return .pointer (← krealloc (UInt64.ofNat p) (UInt64.ofNat n)).toNat
  | .release p => do
    kfree (UInt64.ofNat p)
    return .done
  | .write p i v => do
    store8 (UInt64.ofNat p + UInt64.ofNat i) v
    return .done
  | .read p i => do return .value (← load8 (UInt64.ofNat p + UInt64.ofNat i))

/-- The first `k` requests of a client. -/
def serve (client : Client UInt8) : Nat → List (Answer UInt8) → Alloc (List (Answer UInt8))
  | 0, answers => return answers
  | k + 1, answers => do
    let a ← perform (client answers)
    serve client k (answers ++ [a])

/-! ## The store in memory -/

/-- The client's bytes of a chunk. -/
def contents (m : Machine) (c : Chunk) : List UInt8 := (List.range c.req_size).map fun i => (bytes m (c.user + i)).getD 0

/-- The contents of the chunk with a pointer. -/
def lookup (m : Machine) (chunks : List Chunk) (p : Nat) : Option (List UInt8) :=
  (chunks.find? fun c => c.user = p).map (contents m)

section
variable {m m' : Machine} {c e : Chunk} {chunks others : List Chunk} {p : Nat} {xs : List UInt8} {A : Arena}

@[simp] theorem length_contents (m : Machine) (c : Chunk) : (contents m c).length = c.req_size := by
  simp [contents]

theorem getElem?_contents {i : Nat} (inside : i < c.req_size) : (contents m c)[i]? = some ((bytes m (c.user + i)).getD 0) := by
  simp [contents, inside]

theorem contents_congr (same : ∀ x, c.user ≤ x → x < c.user + c.req_size → bytes m' x = bytes m x) : contents m' c = contents m c := by
  rw [contents, contents]
  refine List.map_congr_left fun i member => ?_
  have := List.mem_range.mp member
  rw [same _ (by omega) (by omega)]

/-- Chunks that do not overlap have different pointers. -/
theorem user_ne (apart : c.Apart e) : c.user ≠ e.user := by
  have := c.user_low
  have := c.user_stop
  have := e.user_low
  have := e.user_stop
  rw [Chunk.Apart] at apart
  omega

theorem lookup_none (apart : ∀ e ∈ chunks, c.Apart e) : lookup m chunks c.user = none := by
  rw [lookup, List.find?_eq_none.mpr fun e member => ?_, Option.map_none]
  simp only [decide_eq_true_eq]
  exact (user_ne (apart e member)).symm

theorem lookup_cons (m : Machine) (c : Chunk) (chunks : List Chunk) :
    lookup m (c :: chunks) = having (lookup m chunks) c.user (contents m c) := by
  funext p
  rw [lookup, List.find?_cons, having]
  by_cases here : c.user = p
  · subst here
    simp
  · simp [here, Function.update_of_ne (Ne.symm here), lookup]

theorem mem_of_lookup (here : lookup m chunks p = some xs) : ∃ c ∈ chunks, c.user = p ∧ contents m c = xs := by
  obtain ⟨c, found, value⟩ := Option.map_eq_some_iff.mp here
  exact ⟨c, List.mem_of_find?_eq_some found, by simpa using List.find?_some found, value⟩

theorem lookup_of_mem (apart : chunks.Pairwise Chunk.Apart) (member : c ∈ chunks) : lookup m chunks c.user = some (contents m c) := by
  induction chunks with
  | nil => cases member
  | cons e rest ih =>
    obtain ⟨first, others⟩ := List.pairwise_cons.mp apart
    rw [lookup_cons, having]
    rcases List.mem_cons.mp member with rfl | later
    · exact Function.update_self ..
    · rw [Function.update_of_ne (user_ne (first c later)).symm]
      exact ih others later

/-- The order of the chunks does not matter. -/
theorem lookup_perm (apart : chunks.Pairwise Chunk.Apart) (perm : others.Perm chunks) : lookup m others = lookup m chunks := by
  have apart' : others.Pairwise Chunk.Apart := (perm.pairwise_iff Chunk.Apart.symm).mpr apart
  funext p
  cases here : lookup m chunks p with
  | none =>
    cases there : lookup m others p with
    | none => rfl
    | some xs =>
      obtain ⟨c, member, rfl, _⟩ := mem_of_lookup there
      rw [lookup_of_mem apart (perm.mem_iff.mp member)] at here
      cases here
  | some xs =>
    obtain ⟨c, member, rfl, rfl⟩ := mem_of_lookup here
    exact lookup_of_mem apart' (perm.mem_iff.mpr member)

theorem lookup_congr (same : ∀ c ∈ chunks, ∀ x, c.user ≤ x → x < c.user + c.req_size → bytes m' x = bytes m x) :
    lookup m' chunks = lookup m chunks := by
  funext p
  rw [lookup, lookup]
  cases found : chunks.find? fun c => c.user = p with
  | none => rfl
  | some c => rw [Option.map_some, Option.map_some, contents_congr (same c (List.mem_of_find?_eq_some found))]

/-- A chunk by itself, and the others. -/
theorem lookup_split (live : A.live.Perm (c :: chunks)) :
    lookup m A.live = having (lookup m chunks) c.user (contents m c) ∧ without (lookup m A.live) c.user = lookup m chunks := by
  have apart : (c :: chunks).Pairwise Chunk.Apart := (live.pairwise_iff Chunk.Apart.symm).mp A.live_apart
  have split : lookup m A.live = having (lookup m chunks) c.user (contents m c) := by
    rw [lookup_perm apart live, lookup_cons]
  refine ⟨split, ?_⟩
  rw [split, without, having, Function.update_idem, Function.update_eq_self_iff, lookup_none (apart_of_perm live)]

/-- What the chunks hold does not overlap. -/
theorem lookup_apart {p q : Nat} {xs ys : List UInt8} (here : lookup m A.live p = some xs) (there : lookup m A.live q = some ys)
    (different : p ≠ q) : p + xs.length ≤ q ∨ q + ys.length ≤ p := by
  obtain ⟨c, inC, rfl, rfl⟩ := mem_of_lookup here
  obtain ⟨e, inE, rfl, rfl⟩ := mem_of_lookup there
  have apart : c.Apart e := by
    have symm : Std.Symm Chunk.Apart := ⟨fun _ _ => Chunk.Apart.symm⟩
    exact A.live_apart.forall inC inE fun same => different (same ▸ rfl)
  have := c.user_low
  have := c.user_stop
  have := e.user_low
  have := e.user_stop
  rw [length_contents, length_contents]
  rw [Chunk.Apart] at apart
  omega

/-- The contents of the chunks as a store. -/
def storeOf (m : Machine) (A : Arena) : Store UInt8 where
  at_ := lookup m A.live
  apart := fun _ _ _ _ here there different => lookup_apart here there different

end

/-- The machine represents an arena whose contents are the store. -/
def Simulates (s₀ : State) (sections : List Elf64Shdr) (start : State) (others : Set UInt64) (m : Machine) (S : Store UInt8) : Prop :=
  ∃ A, Represents s₀ sections start others m A ∧ A.Settled ∧ S.at_ = lookup m A.live

/-- The sizes that no sum of the code wraps for, and the products that `kcalloc` does not cut off. -/
def Fair (S : Store UInt8) (r : Request UInt8) : Prop := Legal (2 ^ 32 - 4208) (2 ^ 31) S r

section
variable {s₀ start : State} {sections : List Elf64Shdr} {others : Set UInt64} {m m' : Machine} {S : Store UInt8} {A A' : Arena}
  {c : Chunk}

theorem user_pos (c : Chunk) : c.user ≠ 0 := by
  have := c.user_low
  omega

theorem toNat_user (member : c ∈ A.live) : (UInt64.ofNat c.user).toNat = c.user := by
  have := user_lt member
  have := c.user_stop
  exact toNat_ofNat64 (by omega)

/-- A new chunk is a new range. -/
theorem simulates_served {size req_size : Nat} {v : UInt64} (served : Served s₀ sections start others A size req_size m v m' A' c)
    (same : S.at_ = lookup m A.live) :
    Simulates s₀ sections start others m' (storeOf m' A') ∧ S.at_ c.user = none ∧ v.toNat = c.user ∧
      (storeOf m' A').at_ = having S.at_ c.user (contents m' c) := by
  refine ⟨⟨A', served.rep, served.settled, rfl⟩, ?_, ?_, ?_⟩
  · rw [same, lookup_none (apart_of_perm served.live)]
  · rw [served.pointer, toNat_user (served.live.mem_iff.mpr (.head _))]
  · show lookup m' A'.live = _
    rw [(lookup_split served.live).1, lookup_congr served.kept.bytes, same]

/-- A chunk that was given back is a range less. -/
theorem simulates_freed (freed : Freed s₀ sections start others A c m m' A') (same : S.at_ = lookup m A.live) :
    Simulates s₀ sections start others m' (storeOf m' A') ∧ (storeOf m' A').at_ = without S.at_ c.user := by
  refine ⟨⟨A', freed.rep, freed.settled, rfl⟩, ?_⟩
  show lookup m' A'.live = _
  rw [same, (lookup_split freed.live).2, lookup_congr freed.kept.bytes]

theorem live_of_isSome (same : S.at_ = lookup m A.live) {p : Nat} (here : (S.at_ p).isSome) :
    ∃ c ∈ A.live, p = c.user ∧ S.at_ p = some (contents m c) := by
  obtain ⟨xs, value⟩ := Option.isSome_iff_exists.mp here
  rw [same] at value
  obtain ⟨c, member, rfl, rfl⟩ := mem_of_lookup value
  exact ⟨c, member, rfl, by rw [same, value]⟩

theorem allocate_post {n : Nat} (rep : Represents s₀ sections start others m A) (settled : A.Settled) (same : S.at_ = lookup m A.live)
    (small : n ≤ 2 ^ 32 - 4208) :
    Post (fun v m' => ∃ S' : Store UInt8, ∃ p xs, v.toNat = p ∧ p ≠ 0 ∧ 16 ∣ p ∧ S.at_ p = none ∧ xs.length = n ∧
        S'.at_ = having S.at_ p xs ∧ Simulates s₀ sections start others m' S')
      (OutOfMemory s₀ sections) (kmalloc (UInt64.ofNat n) m) := by
  refine (kmalloc_post rep settled (by rw [Small]; omega)).mono ?_ fun _ _ stopped => stopped
  rintro v m' ⟨A', c, served⟩
  obtain ⟨sim, free, value, now⟩ := simulates_served served same
  exact ⟨storeOf m' A', c.user, contents m' c, value, user_pos c, Nat.dvd_of_mod_eq_zero c.user_aligned, free,
    by rw [length_contents, served.asked], now, sim⟩

theorem clear_post {nobj size : Nat} (rep : Represents s₀ sections start others m A) (settled : A.Settled)
    (same : S.at_ = lookup m A.live) (small : nobj * size < 2 ^ 31) :
    Post (fun v m' => ∃ S' : Store UInt8, ∃ p, v.toNat = p ∧ p ≠ 0 ∧ 16 ∣ p ∧ S.at_ p = none ∧
        S'.at_ = having S.at_ p (List.replicate (nobj * size) 0) ∧ Simulates s₀ sections start others m' S')
      (OutOfMemory s₀ sections) (kcalloc (UInt64.ofNat nobj) (UInt64.ofNat size) m) := by
  have product : (UInt64.ofNat nobj).toNat * (UInt64.ofNat size).toNat % 2 ^ 32 = nobj * size := by
    have wraps : nobj % 2 ^ 64 * (size % 2 ^ 64) % 2 ^ 32 = nobj * size % 2 ^ 32 := by
      rw [Nat.mul_mod, Nat.mod_mod_of_dvd _ (by norm_num), Nat.mod_mod_of_dvd _ (by norm_num), ← Nat.mul_mod]
    rw [UInt64.toNat_ofNat', UInt64.toNat_ofNat', wraps, Nat.mod_eq_of_lt (by omega)]
  refine (kcalloc_post rep settled product small).mono ?_ fun _ _ stopped => stopped
  rintro v m' ⟨A', c, zeroed⟩
  obtain ⟨sim, free, value, now⟩ := simulates_served zeroed.toServed same
  have zero : contents m' c = List.replicate (nobj * size) 0 := by
    refine List.eq_replicate_iff.mpr ⟨by rw [length_contents, zeroed.asked], fun v member => ?_⟩
    obtain ⟨i, inside, rfl⟩ := List.mem_map.mp member
    rw [List.mem_range, zeroed.asked] at inside
    rw [zeroed.zero i inside, Option.getD_some]
  exact ⟨storeOf m' A', c.user, value, user_pos c, Nat.dvd_of_mod_eq_zero c.user_aligned, free, zero ▸ now, sim⟩

theorem release_call {p : Nat} (rep : Represents s₀ sections start others m A) (settled : A.Settled) (same : S.at_ = lookup m A.live)
    (here : (S.at_ p).isSome) :
    ∃ m' S', kfree (UInt64.ofNat p) m = .ok () m' ∧ S'.at_ = without S.at_ p ∧ Simulates s₀ sections start others m' S' := by
  obtain ⟨c, member, rfl, _⟩ := live_of_isSome same here
  obtain ⟨m', A', run, freed⟩ := kfree_ok rep settled member
  obtain ⟨sim, now⟩ := simulates_freed freed same
  exact ⟨m', storeOf m' A', run, now, sim⟩

/-- `kfree(NULL)` is only counted. -/
theorem release_null (rep : Represents s₀ sections start others m A) (settled : A.Settled) (same : S.at_ = lookup m A.live) :
    ∃ m', kfree NULL m = .ok () m' ∧ Simulates s₀ sections start others m' S :=
  ⟨{ m with l_warningCount := m.l_warningCount + 1 }, rfl, A,
    ⟨⟨rep.rest, rep.since, rep.bits, rep.foreign, rep.records⟩, rep.root, rep.bet, rep.allocated, rep.inuse⟩, settled, same⟩

theorem resize_post {p n : Nat} (rep : Represents s₀ sections start others m A) (settled : A.Settled) (same : S.at_ = lookup m A.live)
    {xs : List UInt8} (here : S.at_ p = some xs) (positive : n ≠ 0) (small : n ≤ 2 ^ 32 - 4208) :
    Post (fun v m' => ∃ S' : Store UInt8, ∃ q ys, v.toNat = q ∧ q ≠ 0 ∧ 16 ∣ q ∧ without S.at_ p q = none ∧ ys.length = n ∧
        xs.take n <+: ys ∧ S'.at_ = having (without S.at_ p) q ys ∧ Simulates s₀ sections start others m' S')
      (OutOfMemory s₀ sections) (krealloc (UInt64.ofNat p) (UInt64.ofNat n) m) := by
  obtain ⟨c, member, rfl, value⟩ := live_of_isSome same (by rw [here]; rfl)
  obtain rfl : contents m c = xs := Option.some.inj (value.symm.trans here)
  refine (krealloc_post rep settled member (by omega) (by rw [Small]; omega)).mono ?_ fun _ _ stopped => stopped
  rintro v m' ⟨A', e, chunks, moved⟩
  have rest : without S.at_ c.user = lookup m chunks := by rw [same, (lookup_split moved.old).2]
  refine ⟨storeOf m' A', e.user, contents m' e, ?_, user_pos e, Nat.dvd_of_mod_eq_zero e.user_aligned, ?_, ?_, ?_, ?_, A', moved.rep,
    moved.settled, rfl⟩
  · rw [moved.pointer, toNat_user (moved.live.mem_iff.mpr (.head _))]
  · rw [rest, lookup_none (apart_of_perm moved.live)]
  · rw [length_contents, moved.asked]
  · rw [List.prefix_iff_getElem?]
    intro i inside
    have bound := inside
    rw [List.length_take, length_contents] at bound
    have fits : i < e.req_size := by
      rw [moved.asked]
      omega
    rw [List.getElem_take, ← List.getElem?_eq_getElem, getElem?_contents fits, getElem?_contents (by omega),
      moved.content i (by omega) (by omega)]
  · show lookup m' A'.live = _
    rw [(lookup_split moved.live).1, lookup_congr moved.bytes, rest]

/-- A byte of a range is a byte of a chunk. -/
theorem access_ok (rep : Represents s₀ sections start others m A) (same : S.at_ = lookup m A.live) {p i : Nat} {xs : List UInt8}
    (here : S.at_ p = some xs) (inside : i < xs.length) :
    ∃ c ∈ A.live, p = c.user ∧ xs = contents m c ∧ i < c.req_size ∧ UInt64.ofNat p + UInt64.ofNat i = UInt64.ofNat (c.user + i) ∧
      (bytes m (c.user + i)).isSome := by
  obtain ⟨c, member, rfl, value⟩ := live_of_isSome same (by rw [here]; rfl)
  obtain rfl : contents m c = xs := Option.some.inj (value.symm.trans here)
  rw [length_contents] at inside
  exact ⟨c, member, rfl, rfl, inside, (UInt64.ofNat_add _ _).symm,
    rep.client_spans member _ (Nat.le_add_right _ _) (by omega)⟩

theorem write_ok (rep : Represents s₀ sections start others m A) (settled : A.Settled) (same : S.at_ = lookup m A.live) {p i : Nat}
    {v : UInt8} {xs : List UInt8} (here : S.at_ p = some xs) (inside : i < xs.length) :
    ∃ m' S', store8 (UInt64.ofNat p + UInt64.ofNat i) v m = .ok () m' ∧ S'.at_ = having S.at_ p (xs.set i v) ∧
      Simulates s₀ sections start others m' S' := by
  obtain ⟨c, member, rfl, rfl, within, address, there⟩ := access_ok rep same here inside
  obtain ⟨m', run, filled⟩ := store8_filled (v := v) rep.rest there
  have stop := c.user_stop
  have rep' := rep.fill member filled (by omega) (by omega)
  obtain ⟨before, after, list⟩ := List.append_of_mem member
  have live : A.live.Perm (c :: (before ++ after)) := list ▸ List.perm_middle
  have others : lookup m' (before ++ after) = lookup m (before ++ after) := lookup_congr fun e there x low high =>
    filled.elsewhere (c := c) (by omega) (by omega) (apart_of_perm live e there) low high
  have changed : contents m' c = (contents m c).set i v := by
    refine List.ext_getElem? fun j => ?_
    by_cases below : j < c.req_size
    · rw [getElem?_contents below, List.getElem?_set, getElem?_contents below]
      by_cases equal : i = j
      · subst equal
        have stored := filled.inside 0 Nat.one_pos
        rw [Nat.add_zero] at stored
        rw [stored, if_pos rfl, if_pos (by rw [length_contents]; exact below), Option.getD_some]
      · rw [if_neg equal, filled.outside _ (by omega)]
    · rw [List.getElem?_eq_none (by rw [length_contents]; omega),
        List.getElem?_eq_none (by rw [List.length_set, length_contents]; omega)]
  refine ⟨m', storeOf m' A, address ▸ run, ?_, A, rep', settled, rfl⟩
  show lookup m' A.live = _
  rw [(lookup_split live).1, others, changed, same, (lookup_split live).1, having, having, having, Function.update_idem]

theorem read_ok (rep : Represents s₀ sections start others m A) (same : S.at_ = lookup m A.live) {p i : Nat}
    {xs : List UInt8} (here : S.at_ p = some xs) (inside : i < xs.length) :
    ∃ v, load8 (UInt64.ofNat p + UInt64.ofNat i) m = .ok v m ∧ xs[i]? = some v := by
  obtain ⟨c, member, rfl, rfl, within, address, there⟩ := access_ok rep same here inside
  obtain ⟨v, value⟩ := Option.isSome_iff_exists.mp there
  refine ⟨v, address ▸ load8_ok value, ?_⟩
  rw [getElem?_contents within, value, Option.getD_some]

/-- Every request a client may make is answered as the store allows, or there is no memory. -/
theorem perform_post (sim : Simulates s₀ sections start others m S) {r : Request UInt8} (fair : Fair S r) :
    Post (fun a m' => ∃ S', Step 16 S r a S' ∧ Simulates s₀ sections start others m' S') (OutOfMemory s₀ sections) (perform r m) := by
  obtain ⟨A, rep, settled, same⟩ := sim
  cases r with
  | allocate n =>
    apply post_bind
    refine (allocate_post rep settled same fair).mono ?_ fun _ _ stopped => stopped
    rintro v m' ⟨S', p, xs, rfl, positive, aligned, free, length, now, sim⟩
    exact ⟨S', .allocate positive aligned free length now, sim⟩
  | clear nobj size =>
    apply post_bind
    refine (clear_post rep settled same fair).mono ?_ fun _ _ stopped => stopped
    rintro v m' ⟨S', p, rfl, positive, aligned, free, now, sim⟩
    exact ⟨S', .clear positive aligned free now, sim⟩
  | resize p n =>
    obtain ⟨small, null | here⟩ := fair
    · subst null
      by_cases none : n = 0
      · subst none
        obtain ⟨m', run, sim⟩ := release_null rep settled same
        have ran : krealloc (UInt64.ofNat 0) (UInt64.ofNat 0) m = .ok NULL m' := bind_ok run
        rw [perform, bind_ok ran]
        exact ⟨S, .resize_none, sim⟩
      · have size : UInt64.ofNat n ≠ 0 := by
          intro zero
          have value := congrArg UInt64.toNat zero
          rw [toNat_ofNat64 (by omega), UInt64.toNat_zero] at value
          exact none value
        have same_call : krealloc (UInt64.ofNat 0) (UInt64.ofNat n) m = kmalloc (UInt64.ofNat n) m := by
          rw [krealloc, if_neg size]
          rfl
        apply post_bind
        rw [same_call]
        refine (allocate_post rep settled same small).mono ?_ fun _ _ stopped => stopped
        rintro v m' ⟨S', p, xs, rfl, positive, aligned, free, length, now, sim⟩
        exact ⟨S', .resize_null none positive aligned free length now, sim⟩
    · obtain ⟨xs, value⟩ := Option.isSome_iff_exists.mp here
      by_cases none : n = 0
      · subst none
        obtain ⟨m', S', run, now, sim⟩ := release_call rep settled same here
        have ran : krealloc (UInt64.ofNat p) (UInt64.ofNat 0) m = .ok NULL m' := bind_ok run
        rw [perform, bind_ok ran]
        exact ⟨S', .resize_zero value now, sim⟩
      · apply post_bind
        refine (resize_post rep settled same value none small).mono ?_ fun _ _ stopped => stopped
        rintro v m' ⟨S', q, ys, rfl, positive, aligned, free, length, starts, now, sim⟩
        exact ⟨S', .resize value none positive aligned free length starts now, sim⟩
  | release p =>
    rcases fair with null | here
    · subst null
      obtain ⟨m', run, sim⟩ := release_null rep settled same
      have ran : kfree (UInt64.ofNat 0) m = .ok () m' := run
      rw [perform, bind_ok ran]
      exact ⟨S, .release_null, sim⟩
    · obtain ⟨xs, value⟩ := Option.isSome_iff_exists.mp here
      obtain ⟨m', S', run, now, sim⟩ := release_call rep settled same here
      rw [perform, bind_ok run]
      exact ⟨S', .release value now, sim⟩
  | write p i v =>
    obtain ⟨xs, here, inside⟩ := fair
    obtain ⟨m', S', run, now, sim⟩ := write_ok (v := v) rep settled same here inside
    rw [perform, bind_ok run]
    exact ⟨S', .write here inside now, sim⟩
  | read p i =>
    obtain ⟨xs, here, inside⟩ := fair
    obtain ⟨v, run, value⟩ := read_ok rep same here inside
    rw [perform, bind_ok run]
    exact ⟨S, .read here value, A, rep, settled, same⟩

/-- The same for any number of requests: whatever answers a well-behaved client gets, they
    are those of a store, and the machine holds that store. -/
theorem client_post {client : Client UInt8} (fair : WellBehaved 16 (2 ^ 32 - 4208) (2 ^ 31) client) {answers : List (Answer UInt8)}
    (reached : Reaches 16 client answers S) (sim : Simulates s₀ sections start others m S) (k : Nat) :
    Post (fun answers' m' => ∃ S', answers'.length = answers.length + k ∧ Reaches 16 client answers' S' ∧
        Simulates s₀ sections start others m' S')
      (OutOfMemory s₀ sections) (serve client k answers m) := by
  induction k generalizing answers m S with
  | zero => exact ⟨S, rfl, reached, sim⟩
  | succ k ih =>
    apply post_bind
    refine (perform_post sim (fair answers S reached)).mono ?_ fun _ _ stopped => stopped
    rintro a m' ⟨S', step, sim'⟩
    refine (ih (reached.step step) sim').mono ?_ fun _ _ stopped => stopped
    rintro answers' m'' ⟨S'', length, reached', sim''⟩
    rw [List.length_append, List.length_singleton] at length
    exact ⟨S'', by omega, reached', sim''⟩

end

end Extron.Liballoc
