import Extron.Printf

/-!
`kvprintf` of `console.c`. The format is read by an index that three places
advance: the loop over the characters, the step over `'%'` and the loop over the
length modifiers. Only the first of them looks for the NUL, so a format that ends
inside a conversion is read past its end (`format_kept_iff`).
-/
namespace Extron.Kvprintf
open Extron.Outcomes Extron.Printf
set_option linter.unusedSimpArgs false

/-- `fmt[i]` -/
def look (fmt : Nat → UInt8) (i : Nat) : Out UInt8 := fun p => .ok (fmt i) { p with looked := i :: p.looked }

/-- The next argument: each takes a slot of 64 bits. -/
def va_arg (args : Nat → UInt64) : Out UInt64 := fun p => .ok (args p.taken) { p with taken := p.taken + 1 }

/-- `while (fmt[i] == 'l')` -/
def modifiers (fmt : Nat → UInt8) : Nat → Nat → Bool → Bool → Out (Nat × Bool × Bool)
  | 0, _, _, _ => throw .overflow
  | fuel + 1, i, is_long, is_long_long => do
    if (← look fmt i) = 0x6C then
      let next ← increment i
      if is_long then modifiers fmt fuel next is_long true
      else modifiers fmt fuel next true is_long_long
    else pure (i, is_long, is_long_long)

/-- `"(null)"` -/
def nullText : List UInt8 := [0x28, 0x6E, 0x75, 0x6C, 0x6C, 0x29]

/-- `switch (fmt[i])` -/
def conversion (mem : UInt64 → UInt8) (fmt : Nat → UInt8) (color : UInt8) (args : Nat → UInt64) (i : Nat)
    (is_long is_long_long : Bool) : Out Unit := do
  let c ← look fmt i
  -- 'c'
  if c = 0x63 then
    putc .program (← va_arg args).toUInt8 color
  -- 's'
  else if c = 0x73 then
    let s ← va_arg args
    puts_col .program (if s ≠ 0 then chars mem s else literal nullText) color
  -- 'd'
  else if c = 0x64 then
    let slot ← va_arg args
    if is_long_long || is_long then print_int slot.toInt64 color
    else print_int slot.toUInt32.toInt32.toInt64 color
  -- 'u'
  else if c = 0x75 then
    let slot ← va_arg args
    if is_long_long || is_long then print_uint slot 10 color
    else print_uint slot.toUInt32.toUInt64 10 color
  -- 'x' and 'X'
  else if c = 0x78 ∨ c = 0x58 then
    let slot ← va_arg args
    if is_long_long || is_long then print_hex slot color 16
    else print_hex slot.toUInt32.toUInt64 color 8
  -- 'p'
  else if c = 0x70 then
    let slot ← va_arg args
    puts_col .program (literal [0x30, 0x78]) color
    print_hex slot color 16
  -- '%'
  else if c = 0x25 then
    putc .program 0x25 color
  else
    putc .program 0x25 color
    putc .format (← look fmt i) color

def format_loop (mem : UInt64 → UInt8) (fmt : Nat → UInt8) (color : UInt8) (args : Nat → UInt64) : Nat → Nat → Out Unit
  | 0, _ => throw .overflow
  | fuel + 1, i => do
    if (← look fmt i) = 0 then pure ()
    else if (← look fmt i) ≠ 0x25 then
      putc .format (← look fmt i) color
      format_loop mem fmt color args fuel (← increment i)
    else
      let (next, is_long, is_long_long) ← modifiers fmt rounds (← increment i) false false
      conversion mem fmt color args next is_long is_long_long
      format_loop mem fmt color args fuel (← increment next)

def kvprintf (mem : UInt64 → UInt8) (fmt : UInt64) (color : UInt8) (args : Nat → UInt64) : Out Unit :=
  format_loop mem (chars mem fmt) color args rounds 0

/-- Nothing has been printed. -/
def start : Printer := { sent := [], looked := [], taken := 0 }

/-! ## The format as a text -/

/-- How far a format has been read: whether a conversion has begun, the arguments
    taken, and which of them are strings. -/
structure Reading where
  inside : Bool
  taken : Nat
  strings : List Nat
deriving DecidableEq, Repr

/-- The conversions that take an argument. -/
def takes (c : UInt8) : Bool :=
  c == 0x63 || c == 0x73 || c == 0x64 || c == 0x75 || c == 0x78 || c == 0x58 || c == 0x70

def Reading.next (r : Reading) (c : UInt8) : Reading :=
  if r.inside then
    if c = 0x6C then r
    else
      { inside := false
        taken := if takes c then r.taken + 1 else r.taken
        strings := if c = 0x73 then r.taken :: r.strings else r.strings }
  else if c = 0x25 then { r with inside := true }
  else r

def reading (text : List UInt8) : Reading := text.foldl Reading.next ⟨false, 0, []⟩

/-- The format ends in a `'%'` that begins a conversion, or in length modifiers
    after it. -/
def EndsInside (text : List UInt8) : Prop := (reading text).inside = true

/-- What `%s` may be given: NULL or a pointer to a string. -/
def Text (mem : UInt64 → UInt8) (a : UInt64) : Prop := a ≠ 0 → ∃ s, Spells (chars mem a) 0 s

/-- An `int` indexes the string. -/
def Short (mem : UInt64 → UInt8) (a : UInt64) : Prop := a ≠ 0 → ∀ s, Spells (chars mem a) 0 s → s.length < 2 ^ 31

/-- Nothing past the NUL of a format of this length was read, and no NUL of it
    was printed. -/
structure Kept (length : Nat) (p : Printer) : Prop where
  looked : ∀ i ∈ p.looked, i ≤ length
  sent : ∀ o ∈ p.sent, o.origin = .format → o.c ≠ 0

/-- The NUL of the format was printed. -/
def Leaked (p : Printer) : Prop := ∃ o ∈ p.sent, o.origin = .format ∧ o.c = 0

theorem Leaked.not_kept {length : Nat} {p : Printer} (leaked : Leaked p) : ¬ Kept length p := by
  intro kept
  obtain ⟨o, sent, origin, zero⟩ := leaked
  exact kept.sent o sent origin zero

/-! ## The switch -/

/-- The conversions that take an argument. -/
inductive Conversion
  | c
  | s
  | d
  | u
  | x
  | X
  | p
deriving DecidableEq, Repr

def Conversion.char : Conversion → UInt8
  | .c => 0x63
  | .s => 0x73
  | .d => 0x64
  | .u => 0x75
  | .x => 0x78
  | .X => 0x58
  | .p => 0x70

theorem takes_iff {c : UInt8} : takes c = true ↔ ∃ kind : Conversion, c = kind.char := by
  constructor
  · intro taking
    simp only [takes, Bool.or_eq_true, beq_iff_eq] at taking
    rcases taking with (((((c | s) | d) | u) | x) | X) | p
    · exact ⟨.c, c⟩
    · exact ⟨.s, s⟩
    · exact ⟨.d, d⟩
    · exact ⟨.u, u⟩
    · exact ⟨.x, x⟩
    · exact ⟨.X, X⟩
    · exact ⟨.p, p⟩
  · rintro ⟨kind, rfl⟩
    cases kind <;> rfl

section
variable {mem : UInt64 → UInt8} {fmt : Nat → UInt8} {args : Nat → UInt64} {color : UInt8} {i : Nat} {p : Printer}

theorem look_ok (fmt : Nat → UInt8) (i : Nat) (p : Printer) :
    look fmt i p = .ok (fmt i) { p with looked := i :: p.looked } := rfl

theorem va_arg_ok (args : Nat → UInt64) (p : Printer) :
    va_arg args p = .ok (args p.taken) { p with taken := p.taken + 1 } := rfl

/-- What the `switch` prints of a slot. -/
def Conversion.print (mem : UInt64 → UInt8) (color : UInt8) : Conversion → Bool → UInt64 → Out Unit
  | .c, _, slot => putc .program slot.toUInt8 color
  | .s, _, slot => puts_col .program (if slot ≠ 0 then chars mem slot else literal nullText) color
  | .d, wide, slot => if wide then print_int slot.toInt64 color else print_int slot.toUInt32.toInt32.toInt64 color
  | .u, wide, slot => if wide then print_uint slot 10 color else print_uint slot.toUInt32.toUInt64 10 color
  | .x, wide, slot => if wide then print_hex slot color 16 else print_hex slot.toUInt32.toUInt64 color 8
  | .X, wide, slot => if wide then print_hex slot color 16 else print_hex slot.toUInt32.toUInt64 color 8
  | .p, _, slot => do
    puts_col .program (literal [0x30, 0x78]) color
    print_hex slot color 16

/-- At its character a conversion takes one slot and prints it. -/
theorem conversion_switch {kind : Conversion} (char : fmt i = kind.char) (is_long is_long_long : Bool) :
    conversion mem fmt color args i is_long is_long_long p =
      kind.print mem color (is_long_long || is_long) (args p.taken)
        { p with looked := i :: p.looked, taken := p.taken + 1 } := by
  rw [conversion, bind_ok (look_ok fmt i p), char]
  cases kind <;> simp [Conversion.char, Conversion.print, bind_ok (va_arg_ok args _)]

theorem conversion_percent (char : fmt i = 0x25) (is_long is_long_long : Bool) :
    conversion mem fmt color args i is_long is_long_long p =
      .ok () ({ p with looked := i :: p.looked }.emit .program color [0x25]) := by
  rw [conversion, bind_ok (look_ok fmt i p), char]
  simp [putc_ok]

/-- Any other character is looked at once more and printed after a `'%'`. -/
theorem conversion_other (none : takes (fmt i) = false) (other : fmt i ≠ 0x25) (is_long is_long_long : Bool) :
    ∃ mid : Printer, mid = { p with looked := i :: p.looked }.emit .program color [0x25] ∧
      conversion mem fmt color args i is_long is_long_long p =
        .ok () ({ mid with looked := i :: mid.looked }.emit .format color [fmt i]) := by
  simp only [takes, Bool.or_eq_false_iff, beq_eq_false_iff_ne] at none
  obtain ⟨⟨⟨⟨⟨⟨c, s⟩, d⟩, u⟩, x⟩, X⟩, pointer⟩ := none
  have hexadecimal : ¬ (fmt i = 0x78 ∨ fmt i = 0x58) := not_or.mpr ⟨x, X⟩
  refine ⟨_, rfl, ?_⟩
  rw [conversion, bind_ok (look_ok fmt i p), if_neg c, if_neg s, if_neg d, if_neg u, if_neg hexadecimal, if_neg pointer,
    if_neg other, bind_ok (putc_ok .program 0x25 color _), bind_ok (look_ok fmt i _), putc_ok]

end

/-! ## One conversion -/

theorem Kept.look {length i : Nat} {p : Printer} (kept : Kept length p) (le : i ≤ length) :
    Kept length { p with looked := i :: p.looked } := by
  refine ⟨?_, kept.sent⟩
  intro j member
  rcases List.mem_cons.mp member with rfl | before
  · exact le
  · exact kept.looked j before

theorem Kept.emit {length : Nat} {p : Printer} (kept : Kept length p) (color : UInt8) (text : List UInt8) :
    Kept length (p.emit .program color text) := by
  refine ⟨kept.looked, ?_⟩
  intro o member origin
  rcases List.mem_append.mp member with new | before
  · obtain ⟨c, _, rfl⟩ := List.mem_map.mp (List.mem_reverse.mp new)
    cases origin
  · exact kept.sent o before origin

theorem Kept.format {length : Nat} {p : Printer} (kept : Kept length p) (color : UInt8) {c : UInt8} (some : c ≠ 0) :
    Kept length (p.emit .format color [c]) := by
  refine ⟨kept.looked, ?_⟩
  intro o member origin
  rcases List.mem_cons.mp member with rfl | before
  · exact some
  · exact kept.sent o before origin

theorem Kept.take {length : Nat} {p : Printer} (kept : Kept length p) : Kept length { p with taken := p.taken + 1 } :=
  ⟨kept.looked, kept.sent⟩

theorem spells_literal {text : List UInt8} (printable : ∀ c ∈ text, c ≠ 0) : Spells (literal text) 0 text := by
  have suffix : ∀ (tail : List UInt8) (i : Nat), text.drop i = tail → Spells (literal text) i tail := by
    intro tail
    induction tail with
    | nil =>
      intro i dropped
      have past : text.length ≤ i := List.drop_eq_nil_iff.mp dropped
      exact List.getD_eq_default _ _ past
    | cons c tail ih =>
      intro i dropped
      have below : i < text.length := by
        by_contra past
        rw [List.drop_eq_nil_of_le (Nat.le_of_not_lt past)] at dropped
        cases dropped
      rw [List.drop_eq_getElem_cons below] at dropped
      obtain ⟨here, rest⟩ := List.cons.inj dropped
      refine ⟨?_, ?_, ih (i + 1) rest⟩
      · rw [literal, List.getD_eq_getElem _ _ below, here]
      · rw [← here]
        exact printable _ (List.getElem_mem below)
  exact suffix text 0 List.drop_zero

/-- A short string is printed. -/
theorem print_string {mem : UInt64 → UInt8} {a : UInt64} (given : Text mem a) (short : Short mem a) (color : UInt8)
    (p : Printer) :
    ∃ text, puts_col .program (if a ≠ 0 then chars mem a else literal nullText) color p =
      .ok () (p.emit .program color text) := by
  by_cases null : a = 0
  · rw [if_neg (not_not.mpr null)]
    exact ⟨nullText, puts_col_ok .program color (spells_literal (by simp [nullText])) (by decide) p⟩
  · obtain ⟨text, spelled⟩ := given null
    rw [if_pos null]
    exact ⟨text, puts_col_ok .program color spelled (short null text spelled) p⟩

/-- A string that is not short is not printed to its end. -/
theorem print_long {mem : UInt64 → UInt8} {a : UInt64} (long : ¬ Short mem a) (color : UInt8) (p : Printer) :
    Post (fun _ _ => False) (fun _ _ => True)
      (puts_col .program (if a ≠ 0 then chars mem a else literal nullText) color p) := by
  simp only [Short, not_forall] at long
  obtain ⟨some, text, spelled, long⟩ := long
  rw [if_pos some]
  apply (puts_loop_room .program color p (Nat.two_pow_pos 31) spelled).mono
  · intro _ _ room
    rw [Nat.zero_add] at room
    exact long room
  · exact fun _ _ _ => trivial

/-- A conversion prints its slot, if that is no string or a short one. -/
theorem Conversion.print_sends {mem : UInt64 → UInt8} {slot : UInt64} (color : UInt8) (kind : Conversion) (wide : Bool)
    (given : kind = .s → Text mem slot) (short : kind = .s → Short mem slot) (p : Printer) :
    ∃ text, kind.print mem color wide slot p = .ok () (p.emit .program color text) := by
  cases kind with
  | c => exact ⟨_, putc_ok .program _ color p⟩
  | s => exact print_string (given rfl) (short rfl) color p
  | d =>
    rw [Conversion.print]
    split
    · exact ⟨_, print_int_ok _ color p⟩
    · exact ⟨_, print_int_ok _ color p⟩
  | u =>
    rw [Conversion.print]
    split
    · exact ⟨_, print_uint_ok _ color p⟩
    · exact ⟨_, print_uint_ok _ color p⟩
  | x =>
    rw [Conversion.print]
    split
    · exact ⟨_, print_hex_ok _ color 16 p le_rfl⟩
    · exact ⟨_, print_hex_ok _ color 8 p (by decide)⟩
  | X =>
    rw [Conversion.print]
    split
    · exact ⟨_, print_hex_ok _ color 16 p le_rfl⟩
    · exact ⟨_, print_hex_ok _ color 8 p (by decide)⟩
  | p =>
    rw [Conversion.print, bind_ok (puts_col_ok .program color (spells_literal (by simp)) (by decide) p),
      print_hex_ok _ _ 16 _ le_rfl, Printer.emit_append]
    exact ⟨_, rfl⟩

/-- A conversion that a character names returns, and takes its argument. -/
theorem conversion_kept {mem : UInt64 → UInt8} {fmt : Nat → UInt8} {args : Nat → UInt64} {length i : Nat} {p : Printer}
    (color : UInt8) (is_long is_long_long : Bool) (kept : Kept length p) (le : i ≤ length) (some : fmt i ≠ 0)
    (given : fmt i = 0x73 → Text mem (args p.taken)) (short : fmt i = 0x73 → Short mem (args p.taken)) :
    ∃ p', conversion mem fmt color args i is_long is_long_long p = .ok () p' ∧ Kept length p' ∧
      p'.taken = if takes (fmt i) then p.taken + 1 else p.taken := by
  have looked := kept.look le
  cases taking : takes (fmt i) with
  | true =>
    obtain ⟨kind, char⟩ := takes_iff.mp taking
    have string : kind = .s → fmt i = 0x73 := by
      rintro rfl
      exact char
    obtain ⟨text, sends⟩ := kind.print_sends color (is_long_long || is_long) (given ∘ string) (short ∘ string)
      { p with looked := i :: p.looked, taken := p.taken + 1 }
    rw [conversion_switch char, sends]
    exact ⟨_, rfl, looked.take.emit color text, rfl⟩
  | false =>
    by_cases percent : fmt i = 0x25
    · rw [conversion_percent percent]
      exact ⟨_, rfl, looked.emit color _, rfl⟩
    · obtain ⟨mid, rfl, ran⟩ := conversion_other taking percent is_long is_long_long
      rw [ran]
      exact ⟨_, rfl, ((looked.emit color _).look le).format color some, rfl⟩

/-- At the NUL the conversion is the unknown one, which prints what it stands on. -/
theorem conversion_leaks (mem : UInt64 → UInt8) {fmt : Nat → UInt8} (args : Nat → UInt64) {i : Nat} (color : UInt8)
    (is_long is_long_long : Bool) (finish : fmt i = 0) (p : Printer) :
    ∃ p', conversion mem fmt color args i is_long is_long_long p = .ok () p' ∧ Leaked p' := by
  rw [conversion, bind_ok (look_ok fmt i p), finish]
  exact ⟨_, rfl, ⟨fmt i, color, .format⟩, List.mem_cons_self, rfl, finish⟩

/-- A conversion that a character names returns unless its string is too long. -/
theorem conversion_post {mem : UInt64 → UInt8} {fmt : Nat → UInt8} {args : Nat → UInt64} {length i : Nat} {p : Printer}
    (color : UInt8) (is_long is_long_long : Bool) (kept : Kept length p) (le : i ≤ length) (some : fmt i ≠ 0)
    (given : fmt i = 0x73 → Text mem (args p.taken)) :
    Post (fun _ p' => Kept length p' ∧ (p'.taken = if takes (fmt i) then p.taken + 1 else p.taken) ∧
        (fmt i = 0x73 → Short mem (args p.taken)))
      (fun _ _ => ¬ (fmt i = 0x73 → Short mem (args p.taken)))
      (conversion mem fmt color args i is_long is_long_long p) := by
  by_cases short : fmt i = 0x73 → Short mem (args p.taken)
  · obtain ⟨p', ran, keeps, taken⟩ := conversion_kept color is_long is_long_long kept le some given short
    rw [ran]
    exact ⟨keeps, taken, short⟩
  · obtain ⟨string, long⟩ := Classical.not_imp.mp short
    rw [conversion_switch (show fmt i = Conversion.char .s from string), Conversion.print]
    apply (print_long long color _).mono
    · exact fun _ _ impossible => impossible.elim
    · exact fun _ _ _ => short

/-! ## What was printed stays printed -/

section
variable {mem : UInt64 → UInt8} {fmt : Nat → UInt8} {args : Nat → UInt64} {color : UInt8}

theorem putc_leaked (origin : Origin) (c : UInt8) : Preserves Leaked (putc origin c color) := by
  rintro p ⟨o, sent, found⟩
  exact ⟨o, List.mem_cons_of_mem _ sent, found⟩

theorem look_leaked (i : Nat) : Preserves Leaked (look fmt i) := fun _ leaked => leaked

theorem va_arg_leaked : Preserves Leaked (va_arg args) := fun _ leaked => leaked

theorem increment_leaked (i : Nat) : Preserves Leaked (increment i) :=
  preserves_ite (preserves_pure _) (preserves_throw _)

theorem puts_loop_leaked (origin : Origin) (s : Nat → UInt8) :
    ∀ fuel i, Preserves Leaked (puts_loop origin s color fuel i)
  | 0, _ => preserves_throw _
  | fuel + 1, _ =>
    preserves_ite (preserves_pure _) (preserves_bind (putc_leaked _ _) fun _ =>
      preserves_bind (increment_leaked _) fun _ => puts_loop_leaked origin s fuel _)

theorem emitted_leaked {x : Out Unit} (sends : ∀ p, ∃ text, x p = .ok () (p.emit .program color text)) :
    Preserves Leaked x := by
  rintro p ⟨o, sent, found⟩
  obtain ⟨text, ran⟩ := sends p
  rw [ran]
  exact ⟨o, List.mem_append_right _ sent, found⟩

theorem conversion_leaked (i : Nat) (is_long is_long_long : Bool) :
    Preserves Leaked (conversion mem fmt color args i is_long is_long_long) := by
  have integer (v : Int64) : Preserves Leaked (print_int v color) := emitted_leaked fun p => ⟨_, print_int_ok v color p⟩
  have natural (v : UInt64) : Preserves Leaked (print_uint v 10 color) := emitted_leaked fun p => ⟨_, print_uint_ok v color p⟩
  have hexadecimal (v : UInt64) {width : Nat} (room : width ≤ 16) : Preserves Leaked (print_hex v color width) :=
    emitted_leaked fun p => ⟨_, print_hex_ok v color width p room⟩
  refine preserves_bind (look_leaked i) fun c => ?_
  refine preserves_ite (preserves_bind va_arg_leaked fun _ => putc_leaked _ _) ?_
  refine preserves_ite (preserves_bind va_arg_leaked fun _ => puts_loop_leaked _ _ _ _) ?_
  refine preserves_ite (preserves_bind va_arg_leaked fun _ => preserves_ite (integer _) (integer _)) ?_
  refine preserves_ite (preserves_bind va_arg_leaked fun _ => preserves_ite (natural _) (natural _)) ?_
  refine preserves_ite (preserves_bind va_arg_leaked fun _ =>
    preserves_ite (hexadecimal _ le_rfl) (hexadecimal _ (by decide))) ?_
  refine preserves_ite (preserves_bind va_arg_leaked fun _ =>
    preserves_bind (puts_loop_leaked _ _ _ _) fun _ => hexadecimal _ le_rfl) ?_
  refine preserves_ite (putc_leaked _ _) ?_
  exact preserves_bind (putc_leaked _ _) fun _ => preserves_bind (look_leaked i) fun _ => putc_leaked _ _

theorem modifiers_leaked : ∀ fuel i is_long is_long_long, Preserves Leaked (modifiers fmt fuel i is_long is_long_long)
  | 0, _, _, _ => preserves_throw _
  | fuel + 1, i, _, _ =>
    preserves_bind (look_leaked i) fun _ => preserves_ite
      (preserves_bind (increment_leaked _) fun _ =>
        preserves_ite (modifiers_leaked fuel _ _ _) (modifiers_leaked fuel _ _ _))
      (preserves_pure _)

theorem format_loop_leaked : ∀ fuel i, Preserves Leaked (format_loop mem fmt color args fuel i)
  | 0, _ => preserves_throw _
  | fuel + 1, i =>
    preserves_bind (look_leaked i) fun _ => preserves_ite (preserves_pure _)
      (preserves_bind (look_leaked i) fun _ => preserves_ite
        (preserves_bind (look_leaked i) fun _ => preserves_bind (putc_leaked _ _) fun _ =>
          preserves_bind (increment_leaked _) fun _ => format_loop_leaked fuel _)
        (preserves_bind (increment_leaked _) fun _ => preserves_bind (modifiers_leaked _ _ _ _) fun _ =>
          preserves_bind (conversion_leaked _ _ _) fun _ =>
            preserves_bind (increment_leaked _) fun _ => format_loop_leaked fuel _))

end

/-! ## The loops -/

/-- The length modifiers end where the text does, or before, and say whether there is
    one. What looking at the format keeps, they keep. -/
theorem modifiers_post {fmt : Nat → UInt8} {length : Nat} {Inv : Printer → Prop}
    (looks : ∀ j p, j ≤ length → Inv p → Inv { p with looked := j :: p.looked }) {text : List UInt8} :
    ∀ (fuel : Nat) {i : Nat} {p : Printer} (is_long is_long_long : Bool), Spells fmt i text → Inv p →
      i + text.length = length → i < 2 ^ 31 → (length < 2 ^ 31 → text.length < fuel) →
        Post (fun r p' => Inv p' ∧ Spells fmt r.1 (text.dropWhile (· == 0x6C)) ∧
            r.1 + (text.dropWhile (· == 0x6C)).length = length ∧ r.1 < 2 ^ 31 ∧
            (r.2.2 || r.2.1) = (is_long_long || is_long || text.head? == some 0x6C))
          (fun _ _ => ¬ length < 2 ^ 31) (modifiers fmt fuel i is_long is_long_long p) := by
  induction text with
  | nil =>
    intro fuel i p is_long is_long_long spelled inv total low enough
    have finish : fmt i ≠ 0x6C := by
      rw [spells_nil.mp spelled]
      decide
    cases fuel with
    | zero => exact fun short => absurd (enough short) (Nat.not_lt_zero _)
    | succ fuel =>
      rw [modifiers, bind_ok (look_ok fmt i p), if_neg finish]
      exact ⟨looks i p (by omega) inv, spelled, total, low, by simp⟩
  | cons c text ih =>
    intro fuel i p is_long is_long_long spelled inv total low enough
    have looked := looks i p (by omega) inv
    rw [List.length_cons] at total enough
    cases fuel with
    | zero => exact fun short => absurd (enough short) (Nat.not_lt_zero _)
    | succ fuel =>
      rw [modifiers, bind_ok (look_ok fmt i p), spelled.1]
      by_cases modifier : c = 0x6C
      · have dropped : (c :: text).dropWhile (· == 0x6C) = text.dropWhile (· == 0x6C) :=
          List.dropWhile_cons_of_pos (by simp [modifier])
        rw [if_pos modifier, dropped]
        apply post_bind
        apply post_increment
        · intro room
          have after (is_long_long : Bool) := ih fuel true is_long_long spelled.2.2 looked (by omega) room (by omega)
          cases is_long with
          | true =>
            apply (after true).mono
            · rintro r p' ⟨keeps, rest, left, below, long⟩
              exact ⟨keeps, rest, left, below, by simp [long]⟩
            · exact fun _ _ past => past
          | false =>
            apply (after is_long_long).mono
            · rintro r p' ⟨keeps, rest, left, below, long⟩
              exact ⟨keeps, rest, left, below, by simp [long, modifier]⟩
            · exact fun _ _ past => past
        · intro full short
          omega
      · have dropped : (c :: text).dropWhile (· == 0x6C) = c :: text :=
          List.dropWhile_cons_of_neg (by simp [modifier])
        rw [if_neg modifier, dropped]
        exact ⟨looked, spelled, total, low, by simp [modifier]⟩

/-- Within a conversion the modifiers change nothing. -/
theorem reading_modifiers (taken : Nat) (strings : List Nat) (text : List UInt8) :
    text.foldl Reading.next ⟨true, taken, strings⟩ =
      (text.dropWhile (· == 0x6C)).foldl Reading.next ⟨true, taken, strings⟩ := by
  induction text with
  | nil => rfl
  | cons c text ih =>
    by_cases modifier : c = 0x6C
    · rw [List.dropWhile_cons_of_pos (by simp [modifier]), List.foldl_cons, ← ih, Reading.next]
      simp [modifier]
    · rw [List.dropWhile_cons_of_neg (by simp [modifier])]

theorem dropWhile_head {text rest : List UInt8} {c : UInt8} (dropped : text.dropWhile (· == 0x6C) = c :: rest) :
    c ≠ 0x6C := by
  intro modifier
  have head := List.head?_dropWhile_not (· == (0x6C : UInt8)) text
  rw [dropped, List.head?_cons] at head
  simp [modifier] at head

theorem strings_kept (text : List UInt8) : ∀ (r : Reading), ∀ k ∈ r.strings, k ∈ (text.foldl Reading.next r).strings := by
  induction text with
  | nil => exact fun _ _ member => member
  | cons c text ih =>
    intro r k member
    apply ih
    rw [Reading.next]
    by_cases inside : r.inside = true
    · rw [if_pos inside]
      by_cases modifier : c = 0x6C
      · rw [if_pos modifier]
        exact member
      · rw [if_neg modifier]
        by_cases string : c = 0x73
        · simp [string, member]
        · simp [string, member]
    · rw [if_neg inside]
      by_cases percent : c = 0x25
      · rw [if_pos percent]
        exact member
      · rw [if_neg percent]
        exact member

/-- What lets a format of this length be read to its end and no further. -/
structure Sound (mem : UInt64 → UInt8) (args : Nat → UInt64) (length : Nat) (r : Reading) : Prop where
  outside : r.inside = false
  indexable : length < 2 ^ 31
  short : ∀ k ∈ r.strings, Short mem (args k)

/-- The text is left to read from `i` on, which leads to the reading `r`. -/
structure At (mem : UInt64 → UInt8) (fmt : Nat → UInt8) (args : Nat → UInt64) (length : Nat) (r : Reading) (inside : Bool)
    (text : List UInt8) (i : Nat) (p : Printer) : Prop where
  read : ∃ strings, text.foldl Reading.next ⟨inside, p.taken, strings⟩ = r ∧ ∀ k ∈ strings, Short mem (args k)
  spelled : Spells fmt i text
  kept : Kept length p
  total : i + text.length = length

section
variable {mem : UInt64 → UInt8} {fmt : Nat → UInt8} {args : Nat → UInt64} {length i : Nat} {r : Reading} {inside : Bool}
  {text : List UInt8} {c : UInt8} {p : Printer}

theorem At.look (here : At mem fmt args length r inside text i p) :
    At mem fmt args length r inside text i { p with looked := i :: p.looked } :=
  ⟨here.read, here.spelled, here.kept.look (by have := here.total; omega), here.total⟩

theorem At.sound (here : At mem fmt args length r false [] i p) (low : i < 2 ^ 31) : Sound mem args length r := by
  obtain ⟨strings, rfl, shorts⟩ := here.read
  have total := here.total
  rw [List.length_nil] at total
  exact ⟨rfl, by omega, shorts⟩

/-- A format that ends inside a conversion is not sound. -/
theorem At.unsound (here : At mem fmt args length r true [] i p) : ¬ Sound mem args length r := by
  obtain ⟨strings, rfl, _⟩ := here.read
  intro sound
  cases sound.outside

theorem At.opens (here : At mem fmt args length r false (c :: text) i p) (percent : c = 0x25) :
    At mem fmt args length r true text (i + 1) p := by
  obtain ⟨strings, read, shorts⟩ := here.read
  have opened : Reading.next ⟨false, p.taken, strings⟩ c = ⟨true, p.taken, strings⟩ := by simp [Reading.next, percent]
  have total := here.total
  rw [List.foldl_cons, opened] at read
  rw [List.length_cons] at total
  exact ⟨⟨strings, read, shorts⟩, here.spelled.2.2, here.kept, by omega⟩

theorem At.passes (here : At mem fmt args length r false (c :: text) i p) (plain : c ≠ 0x25) (color : UInt8) :
    At mem fmt args length r false text (i + 1) (p.emit .format color [c]) := by
  obtain ⟨strings, read, shorts⟩ := here.read
  have stays : Reading.next ⟨false, p.taken, strings⟩ c = ⟨false, p.taken, strings⟩ := by simp [Reading.next, plain]
  have total := here.total
  rw [List.foldl_cons, stays] at read
  rw [List.length_cons] at total
  exact ⟨⟨strings, read, shorts⟩, here.spelled.2.2, here.kept.format color here.spelled.2.1, by omega⟩

/-- An index within the format can be incremented if `int` indexes the format. -/
theorem increment_post (next : At mem fmt args length r inside text (i + 1) p) :
    Post (fun k p' => At mem fmt args length r inside text k p' ∧ k < 2 ^ 31) (fun _ _ => ¬ Sound mem args length r)
      (increment i p) := by
  apply post_increment
  · exact fun room => ⟨next, room⟩
  · intro full sound
    have total := next.total
    have := sound.indexable
    omega

theorem modifiers_round (here : At mem fmt args length r true text i p) (low : i < 2 ^ 31) :
    Post (fun k p' => At mem fmt args length r true (text.dropWhile (· == 0x6C)) k.1 p') (fun _ _ => ¬ Sound mem args length r)
      (modifiers fmt rounds i false false p) := by
  obtain ⟨strings, read, shorts⟩ := here.read
  have total := here.total
  rw [reading_modifiers] at read
  have looks (j : Nat) (q : Printer) (le : j ≤ length) (kept : Kept length q ∧ q.taken = p.taken) :
      Kept length { q with looked := j :: q.looked } ∧ q.taken = p.taken := ⟨kept.1.look le, kept.2⟩
  apply (modifiers_post looks rounds false false here.spelled ⟨here.kept, rfl⟩ total low
    (fun short => by rw [rounds]; omega)).mono
  · rintro k p' ⟨⟨keeps, took⟩, spelled, left, _⟩
    exact ⟨⟨strings, took ▸ read, shorts⟩, spelled, keeps, left⟩
  · exact fun _ _ past sound => past sound.indexable

theorem conversion_round (given : ∀ k ∈ r.strings, Text mem (args k)) (here : At mem fmt args length r true (c :: text) i p)
    (plain : c ≠ 0x6C) (color : UInt8) (is_long is_long_long : Bool) :
    Post (fun _ p' => At mem fmt args length r false text (i + 1) p') (fun _ _ => ¬ Sound mem args length r)
      (conversion mem fmt color args i is_long is_long_long p) := by
  obtain ⟨strings, read, shorts⟩ := here.read
  obtain ⟨there, named, beyond⟩ := here.spelled
  have total := here.total
  have closed : Reading.next ⟨true, p.taken, strings⟩ c = ⟨false, if takes c then p.taken + 1 else p.taken,
      if c = 0x73 then p.taken :: strings else strings⟩ := by
    simp [Reading.next, plain]
  rw [List.foldl_cons, closed] at read
  rw [List.length_cons] at total
  have string : fmt i = 0x73 → p.taken ∈ r.strings := by
    intro string
    rw [← read]
    apply strings_kept
    rw [there] at string
    simp [string]
  apply (conversion_post color is_long is_long_long here.kept (by omega) (there ▸ named) (fun s => given _ (string s))).mono
  · rintro _ p' ⟨keeps, took, short⟩
    rw [there] at took
    rw [← took] at read
    refine ⟨⟨_, read, ?_⟩, beyond, keeps, by omega⟩
    intro k member
    by_cases isString : c = 0x73
    · rw [if_pos isString] at member
      rcases List.mem_cons.mp member with rfl | before
      · exact short (there ▸ isString)
      · exact shorts k before
    · rw [if_neg isString] at member
      exact shorts k member
  · exact fun _ _ long sound => long fun s => sound.short _ (string s)

end

/-- The loop stops only where the condition fails, keeps to the format where it
    holds, and otherwise prints the NUL. -/
theorem format_loop_post {mem : UInt64 → UInt8} {fmt : Nat → UInt8} {args : Nat → UInt64} {length : Nat} {r : Reading}
    (given : ∀ k ∈ r.strings, Text mem (args k)) (color : UInt8) :
    ∀ (n : Nat) {text : List UInt8} {fuel i : Nat} {p : Printer}, text.length = n →
      At mem fmt args length r false text i p → i < 2 ^ 31 → (length < 2 ^ 31 → text.length < fuel) →
        Post (fun _ p' => Sound mem args length r ∧ Kept length p' ∨ ¬ Sound mem args length r ∧ Leaked p')
          (fun _ _ => ¬ Sound mem args length r) (format_loop mem fmt color args fuel i p) := by
  intro n
  induction n using Nat.strong_induction_on with
  | h n ih =>
    intro text fuel i p size here low enough
    obtain _ | more := fuel
    · exact fun sound => absurd (enough sound.indexable) (Nat.not_lt_zero _)
    rw [format_loop, bind_ok (look_ok fmt i p)]
    cases text with
    | nil =>
      -- the NUL ends the loop
      rw [if_pos (spells_nil.mp here.spelled)]
      exact .inl ⟨here.sound low, here.look.kept⟩
    | cons c rest =>
      obtain ⟨char, some, _⟩ := here.spelled
      rw [List.length_cons] at size enough
      rw [if_neg (char ▸ some), bind_ok (look_ok fmt i _)]
      by_cases percent : c = 0x25
      · rw [if_neg (by rw [char, percent]; decide)]
        apply post_bind
        apply (increment_post (here.look.look.opens percent)).mono
        · rintro _ mid ⟨opened, room⟩
          apply post_bind
          apply (modifiers_round opened room).mono
          · rintro ⟨next, is_long, is_long_long⟩ mid named
            dsimp only at named ⊢
            cases dropped : rest.dropWhile (· == 0x6C) with
            | nil =>
              -- the conversion is cut off: its character is the NUL
              rw [dropped] at named
              obtain ⟨p', ran, leaked⟩ :=
                conversion_leaks mem args color is_long is_long_long (spells_nil.mp named.spelled) mid
              rw [bind_ok ran]
              apply (preserves_bind (increment_leaked next) (fun _ => format_loop_leaked more _) p' leaked).mono
              · exact fun _ _ leaked => .inr ⟨named.unsound, leaked⟩
              · exact fun _ _ _ => named.unsound
            | cons ch tail =>
              rw [dropped] at named
              have shorter : tail.length < rest.length := by
                have within := (List.dropWhile_suffix (l := rest) (· == (0x6C : UInt8))).length_le
                rw [dropped, List.length_cons] at within
                omega
              apply post_bind
              apply (conversion_round given named (dropWhile_head dropped) color is_long is_long_long).mono
              · intro _ after closed
                apply post_bind
                apply (increment_post closed).mono
                · rintro _ last ⟨after, room⟩
                  exact ih tail.length (by omega) rfl after room (by omega)
                · exact fun _ _ unsound => unsound
              · exact fun _ _ unsound => unsound
          · exact fun _ _ unsound => unsound
        · exact fun _ _ unsound => unsound
      · rw [if_pos (by rw [char]; exact percent), bind_ok (look_ok fmt i _), char, bind_ok (putc_ok .format c color _)]
        apply post_bind
        apply (increment_post (here.look.look.look.passes percent color)).mono
        · rintro _ mid ⟨after, room⟩
          exact ih rest.length (by omega) rfl after room (by omega)
        · exact fun _ _ unsound => unsound

/-- `kvprintf` of a string returns, having read nothing past its NUL and printed
    no NUL of it, exactly if the format does not end inside a conversion and `int`
    indexes it and the strings that it prints. -/
theorem format_kept_iff (mem : UInt64 → UInt8) (fmt : UInt64) (text : List UInt8) (color : UInt8) (args : Nat → UInt64)
    (spelled : Spells (chars mem fmt) 0 text) (given : ∀ k ∈ (reading text).strings, Text mem (args k)) :
    (∃ p', kvprintf mem fmt color args start = .ok () p' ∧ Kept text.length p') ↔
      ¬ EndsInside text ∧ text.length < 2 ^ 31 ∧ ∀ k ∈ (reading text).strings, Short mem (args k) := by
  have ended : Post (fun _ p' => Sound mem args text.length (reading text) ∧ Kept text.length p' ∨
      ¬ Sound mem args text.length (reading text) ∧ Leaked p') (fun _ _ => ¬ Sound mem args text.length (reading text))
      (kvprintf mem fmt color args start) :=
    format_loop_post given color text.length rfl ⟨⟨[], rfl, fun _ none => absurd none List.not_mem_nil⟩, spelled,
      ⟨fun _ none => absurd none List.not_mem_nil, fun _ none => absurd none List.not_mem_nil⟩, Nat.zero_add _⟩ (by decide) id
  have sound : Sound mem args text.length (reading text) ↔
      ¬ EndsInside text ∧ text.length < 2 ^ 31 ∧ ∀ k ∈ (reading text).strings, Short mem (args k) := by
    rw [EndsInside, Bool.not_eq_true]
    exact ⟨fun s => ⟨s.outside, s.indexable, s.short⟩, fun ⟨o, i, s⟩ => ⟨o, i, s⟩⟩
  rw [← sound]
  constructor
  · rintro ⟨p', ran, kept⟩
    rcases ended.of_ok ran with ⟨holds, _⟩ | ⟨_, leaked⟩
    · exact holds
    · exact absurd kept leaked.not_kept
  · intro holds
    cases ran : kvprintf mem fmt color args start with
    | ok _ p' =>
      rcases ended.of_ok ran with ⟨_, kept⟩ | ⟨fails, _⟩
      · exact ⟨p', rfl, kept⟩
      · exact absurd holds fails
    | error _ p' => exact absurd holds (ended.of_error ran)

/-- A format of one conversion and its argument. -/
theorem format_kept_iff_small :
    (∃ p', kvprintf (fun a => [0x25, 0x6C, 0x75].getD a.toNat 0) 0 0x0F (fun _ => 7) start = .ok () p' ∧ Kept 3 p') ↔
      ¬ EndsInside [0x25, 0x6C, 0x75] ∧ [(0x25 : UInt8), 0x6C, 0x75].length < 2 ^ 31 ∧
        ∀ k ∈ (reading [0x25, 0x6C, 0x75]).strings,
          Short (fun a => [0x25, 0x6C, 0x75].getD a.toNat 0) 7 :=
  format_kept_iff (fun a => [0x25, 0x6C, 0x75].getD a.toNat 0) 0 [0x25, 0x6C, 0x75] 0x0F (fun _ => 7)
    ⟨rfl, by decide, rfl, by decide, rfl, by decide, rfl⟩
    (fun _ none => absurd none List.not_mem_nil)

/-- The format `"%"`: its NUL is printed, and the character after it is read. -/
theorem format_overread :
    Spells (chars (fun a => [0x25].getD a.toNat 0) 0) 0 [0x25] ∧
      ∃ p', kvprintf (fun a => [0x25].getD a.toNat 0) 0 0x0F (fun _ => 0) start = .ok () p' ∧
        ⟨0, 0x0F, .format⟩ ∈ p'.sent ∧ 2 ∈ p'.looked ∧ ¬ Kept 1 p' := by
  refine ⟨⟨rfl, by decide, rfl⟩, ⟨[⟨0, 0x0F, .format⟩, ⟨0x25, 0x0F, .program⟩], [2, 1, 1, 1, 0, 0], 0⟩, rfl, ?_, ?_, ?_⟩
  · exact List.mem_cons_self
  · exact List.mem_cons_self
  · intro kept
    exact absurd (kept.looked 2 List.mem_cons_self) (by decide)

end Extron.Kvprintf
