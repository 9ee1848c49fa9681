import Extron.Kvprintf

/-!
What `kvprintf` prints. A well-formed format is a list of tokens, and `rendering` is
what the tokens stand for with the arguments that they take. `kvprintf` prints
exactly this, as long as an `int` indexes the format and the strings
(`rendered_iff`).
-/
namespace Extron.Rendering
open Extron.Outcomes Extron.Printf Extron.Kvprintf
set_option linter.unusedSimpArgs false

/-! ## Formats and their meaning -/

/-- A character that is no conversion, no `'%'`, no length modifier and no NUL. -/
def Unrecognised (ch : UInt8) : Prop := (∀ kind : Conversion, ch ≠ kind.char) ∧ ch ≠ 0x25 ∧ ch ≠ 0x6C ∧ ch ≠ 0

inductive Token
  | literal (text : List UInt8) (plain : ∀ c ∈ text, c ≠ 0x25 ∧ c ≠ 0)
  /-- `%%` -/
  | percent
  /-- A conversion with any number of `l`. -/
  | conversion (ls : Nat) (kind : Conversion)
  /-- A `'%'` before any other character. -/
  | unrecognised (ch : UInt8) (other : Unrecognised ch)

def Token.spelling : Token → List UInt8
  | .literal text _ => text
  | .percent => [0x25, 0x25]
  | .conversion ls kind => 0x25 :: (List.replicate ls 0x6C ++ [kind.char])
  | .unrecognised ch _ => [0x25, ch]

def format (tokens : List Token) : List UInt8 := tokens.flatMap Token.spelling

inductive Argument
  | int (v : Int32)
  | unsigned (v : UInt32)
  | int64 (v : Int64)
  | uint64 (v : UInt64)
  | pointer (a : UInt64)
  /-- NULL or the characters of a string. -/
  | string (s : Option (List UInt8))

/-- What a conversion, without or with an `l`, prints for an argument of its type. -/
def converted : Conversion → Bool → Argument → Option (List UInt8)
  | .c, _, .int v => some [v.toUInt32.toUInt8]
  | .s, _, .string text => some (text.getD nullText)
  | .d, false, .int v => some (signed v.toInt)
  | .d, true, .int64 v => some (signed v.toInt)
  | .u, false, .unsigned v => some (numeral 10 v.toNat)
  | .u, true, .uint64 v => some (numeral 10 v.toNat)
  | .x, false, .unsigned v => some (hex v.toNat 8)
  | .x, true, .uint64 v => some (hex v.toNat 16)
  | .X, false, .unsigned v => some (hex v.toNat 8)
  | .X, true, .uint64 v => some (hex v.toNat 16)
  | .p, _, .pointer a => some ([0x30, 0x78] ++ hex a.toNat 16)
  | _, _, _ => none

/-- How many arguments a token takes. -/
def Token.arity : Token → Nat
  | .conversion _ _ => 1
  | _ => 0

/-- What a token stands for with the arguments that it takes. -/
def Token.rendering : Token → List Argument → Option (List UInt8)
  | .literal text _, [] => some text
  | .percent, [] => some [0x25]
  | .conversion ls kind, [a] => converted kind (0 < ls) a
  | .unrecognised ch _, [] => some [0x25, ch]
  | _, _ => none

/-- What the tokens stand for, one after the other, if the arguments match them. -/
def rendering : List Token → List Argument → Option (List UInt8)
  | [], args => if args.isEmpty then some [] else none
  | token :: tokens, args => do
    let text ← token.rendering (args.take token.arity)
    let rest ← rendering tokens (args.drop token.arity)
    return text ++ rest

/-- The slot of 64 bits holds the argument, one of 32 bits in its low half. -/
def Passed (mem : UInt64 → UInt8) : Argument → UInt64 → Prop
  | .int v, slot => slot.toUInt32 = v.toUInt32
  | .unsigned v, slot => slot.toUInt32 = v
  | .int64 v, slot => slot = v.toUInt64
  | .uint64 v, slot => slot = v
  | .pointer a, slot => slot = a
  | .string none, slot => slot = 0
  | .string (some s), slot => slot ≠ 0 ∧ Spells (chars mem slot) 0 s

/-- An `int` indexes the argument if it is a string. -/
def Indexable (a : Argument) : Prop := ∀ s, a = .string (some s) → s.length < 2 ^ 31

/-- The characters that went to `putc`, each with its color. -/
def printed (p : Printer) : List (UInt8 × UInt8) := (p.sent.map fun o => (o.c, o.color)).reverse

/-- From one state to another this text was printed and `k` arguments were taken. -/
structure Prints (color : UInt8) (text : List UInt8) (k : Nat) (p p' : Printer) : Prop where
  printed : printed p' = printed p ++ text.map fun c => (c, color)
  taken : p'.taken = p.taken + k

/-! ## Matching arguments -/

theorem arity_of_rendering {token : Token} {args : List Argument} {text : List UInt8}
    (renders : token.rendering args = some text) : args.length = token.arity := by
  unfold Token.rendering at renders
  split at renders
  · rfl
  · rfl
  · rfl
  · rfl
  · cases renders

theorem rendering_nil {args : List Argument} {text : List UInt8} :
    rendering [] args = some text ↔ args = [] ∧ text = [] := by
  cases args with
  | nil => simp [rendering, eq_comm]
  | cons a args => simp [rendering]

theorem rendering_cons {token : Token} {tokens : List Token} {args : List Argument} {text : List UInt8} :
    rendering (token :: tokens) args = some text ↔ ∃ own rest out tail, args = own ++ rest ∧
      token.rendering own = some out ∧ rendering tokens rest = some tail ∧ text = out ++ tail := by
  constructor
  · intro renders
    simp only [rendering, Option.bind_eq_bind, Option.bind_eq_some_iff, Option.pure_def, Option.some_inj] at renders
    obtain ⟨out, first, tail, rest, rfl⟩ := renders
    exact ⟨_, _, out, tail, (List.take_append_drop _ _).symm, first, rest, rfl⟩
  · rintro ⟨own, rest, out, tail, rfl, first, second, rfl⟩
    have arity := arity_of_rendering first
    rw [rendering, ← arity, List.take_left, List.drop_left, first, second]
    rfl

/-- The rendering of a concatenation is the concatenation of the renderings, with the
    arguments split between them. -/
theorem rendering_append {first second : List Token} {args : List Argument} {text : List UInt8} :
    rendering (first ++ second) args = some text ↔ ∃ a b out tail, args = a ++ b ∧
      rendering first a = some out ∧ rendering second b = some tail ∧ text = out ++ tail := by
  induction first generalizing args text with
  | nil =>
    rw [List.nil_append]
    constructor
    · intro renders
      exact ⟨[], args, [], text, rfl, rfl, renders, rfl⟩
    · rintro ⟨a, b, out, tail, rfl, empty, renders, rfl⟩
      obtain ⟨rfl, rfl⟩ := rendering_nil.mp empty
      exact renders
  | cons token first ih =>
    rw [List.cons_append, rendering_cons]
    constructor
    · rintro ⟨own, rest, out, tail, rfl, renders, after, rfl⟩
      obtain ⟨a, b, middle, last, rfl, front, back, rfl⟩ := ih.mp after
      exact ⟨own ++ a, b, out ++ middle, last, (List.append_assoc ..).symm,
        rendering_cons.mpr ⟨own, a, out, middle, rfl, renders, front, rfl⟩, back, (List.append_assoc ..).symm⟩
    · rintro ⟨a, b, out, tail, rfl, renders, back, rfl⟩
      obtain ⟨own, rest, front, middle, rfl, one, after, rfl⟩ := rendering_cons.mp renders
      exact ⟨own, rest ++ b, front, middle ++ tail, List.append_assoc .., one,
        ih.mpr ⟨rest, b, middle, tail, rfl, after, back, rfl⟩, List.append_assoc ..⟩

/-! ## What a part of the format prints -/

section
variable {mem : UInt64 → UInt8} {fmt : Nat → UInt8} {slots : Nat → UInt64} {color : UInt8} {text more : List UInt8}
  {j k : Nat} {p q r : Printer}

theorem Prints.trans (first : Prints color text j p q) (second : Prints color more k q r) :
    Prints color (text ++ more) (j + k) p r := by
  refine ⟨?_, ?_⟩
  · rw [second.printed, first.printed, List.map_append, List.append_assoc]
  · rw [second.taken, first.taken, Nat.add_assoc]

theorem prints_emit (origin : Origin) (color : UInt8) (text : List UInt8) (p : Printer) :
    Prints color text 0 p (p.emit origin color text) := by
  refine ⟨?_, rfl⟩
  simp [printed, Printer.emit, Function.comp_def]

theorem prints_look (color : UInt8) (i : Nat) (p : Printer) : Prints color [] 0 p { p with looked := i :: p.looked } :=
  ⟨(List.append_nil _).symm, rfl⟩

theorem prints_va_arg (p : Printer) : Prints color [] 1 p { p with taken := p.taken + 1 } :=
  ⟨(List.append_nil _).symm, rfl⟩

/-- What a conversion with an argument does: it looks at its character, takes a slot
    and prints. -/
theorem prints_argument (i : Nat) (color : UInt8) (text : List UInt8) (p : Printer) :
    Prints color text 1 p ({ p with looked := i :: p.looked, taken := p.taken + 1 }.emit .program color text) :=
  ((prints_look color i p).trans (prints_va_arg _)).trans (prints_emit .program color text _)

/-- An argument that is no string needs no index. -/
theorem post_argument {x : Out Unit} {a : Argument} {i : Nat} (other : ∀ s, a ≠ .string (some s))
    (sends : ∀ q, x q = .ok () (q.emit .program color text)) :
    Post (fun _ p' => Prints color text 1 p p' ∧ Indexable a) (fun _ _ => ¬ Indexable a)
      (x { p with looked := i :: p.looked, taken := p.taken + 1 }) := by
  rw [sends]
  exact ⟨prints_argument i color text p, fun s same => absurd same (other s)⟩

/-- A string is printed if an `int` indexes it, and else not to its end. -/
theorem print_string_post {s : Option (List UInt8)} {slot : UInt64} (passed : Passed mem (.string s) slot) (i : Nat) :
    Post (fun _ p' => Prints color (s.getD nullText) 1 p p' ∧ Indexable (.string s)) (fun _ _ => ¬ Indexable (.string s))
      (puts_col .program (if slot ≠ 0 then chars mem slot else literal nullText) color
        { p with looked := i :: p.looked, taken := p.taken + 1 }) := by
  cases s with
  | none =>
    have null : slot = 0 := passed
    rw [if_neg (not_not.mpr null), puts_col_ok .program color (spells_literal (by simp [nullText])) (by decide)]
    refine ⟨prints_argument i color nullText p, ?_⟩
    rintro s ⟨⟩
  | some s =>
    obtain ⟨some, spelled⟩ := passed
    rw [if_pos some]
    by_cases short : s.length < 2 ^ 31
    · rw [puts_col_ok .program color spelled short]
      refine ⟨prints_argument i color s p, ?_⟩
      rintro _ ⟨⟩
      exact short
    · apply (puts_loop_room .program color _ (Nat.two_pow_pos 31) spelled).mono
      · intro _ _ room
        rw [Nat.zero_add] at room
        exact absurd room short
      · exact fun _ _ _ indexable => short (indexable s rfl)

/-- Both spellings print lower-case digits. -/
theorem converted_X (wide : Bool) (a : Argument) : converted .X wide a = converted .x wide a := by
  cases wide with
  | false => cases a <;> rfl
  | true => cases a <;> rfl

theorem print_hex_post {wide : Bool} {a : Argument} {slot : UInt64} (i : Nat)
    (renders : converted .x wide a = some text) (passed : Passed mem a slot) :
    Post (fun _ p' => Prints color text 1 p p' ∧ Indexable a) (fun _ _ => ¬ Indexable a)
      (Conversion.print mem color .x wide slot { p with looked := i :: p.looked, taken := p.taken + 1 }) := by
  cases wide with
  | false =>
    cases a with
    | unsigned v =>
      cases renders
      rw [Passed] at passed
      exact post_argument (by simp) fun q => by
        rw [Conversion.print, if_neg (by decide), print_hex_ok _ _ _ _ (by decide), passed, UInt32.toNat_toUInt64]
    | _ => cases renders
  | true =>
    cases a with
    | uint64 v =>
      cases renders
      rw [Passed] at passed
      exact post_argument (by simp) fun q => by rw [Conversion.print, if_pos rfl, print_hex_ok _ _ _ _ le_rfl, passed]
    | _ => cases renders

/-- A conversion prints what its argument stands for. -/
theorem print_post {kind : Conversion} {wide : Bool} {a : Argument} {slot : UInt64} (i : Nat)
    (renders : converted kind wide a = some text) (passed : Passed mem a slot) :
    Post (fun _ p' => Prints color text 1 p p' ∧ Indexable a) (fun _ _ => ¬ Indexable a)
      (kind.print mem color wide slot { p with looked := i :: p.looked, taken := p.taken + 1 }) := by
  cases kind with
  | c =>
    cases a with
    | int v =>
      cases renders
      have low : slot.toUInt8 = v.toUInt32.toUInt8 := by rw [← passed, UInt64.toUInt8_toUInt32]
      exact post_argument (by simp) fun q => by rw [Conversion.print, putc_ok, low]
    | _ => cases renders
  | s =>
    cases a with
    | string s =>
      cases renders
      exact print_string_post passed i
    | _ => cases renders
  | d =>
    cases wide with
    | false =>
      cases a with
      | int v =>
        cases renders
        have value : slot.toUInt32.toInt32.toInt64.toInt = v.toInt := by
          rw [passed]
          simp
        exact post_argument (by simp) fun q => by rw [Conversion.print, if_neg (by decide), print_int_ok, value]
      | _ => cases renders
    | true =>
      cases a with
      | int64 v =>
        cases renders
        have value : slot.toInt64 = v := by
          rw [passed]
          simp
        exact post_argument (by simp) fun q => by rw [Conversion.print, if_pos rfl, print_int_ok, value]
      | _ => cases renders
  | u =>
    cases wide with
    | false =>
      cases a with
      | unsigned v =>
        cases renders
        rw [Passed] at passed
        exact post_argument (by simp) fun q => by
          rw [Conversion.print, if_neg (by decide), print_uint_ok, passed, UInt32.toNat_toUInt64]
      | _ => cases renders
    | true =>
      cases a with
      | uint64 v =>
        cases renders
        rw [Passed] at passed
        exact post_argument (by simp) fun q => by rw [Conversion.print, if_pos rfl, print_uint_ok, passed]
      | _ => cases renders
  | x => exact print_hex_post i renders passed
  | X => exact print_hex_post i ((converted_X wide a).symm.trans renders) passed
  | p =>
    cases a with
    | pointer address =>
      cases renders
      rw [Passed] at passed
      exact post_argument (by simp) fun q => by
        rw [Conversion.print, bind_ok (puts_col_ok .program color (spells_literal (by simp)) (by decide) q),
          print_hex_ok _ _ _ _ le_rfl, passed, Printer.emit_append]
    | _ => cases renders

theorem conversion_prints {kind : Conversion} {wide is_long is_long_long : Bool} {a : Argument} {i : Nat}
    (char : fmt i = kind.char) (width : (is_long_long || is_long) = wide) (renders : converted kind wide a = some text)
    (passed : Passed mem a (slots p.taken)) :
    Post (fun _ p' => Prints color text 1 p p' ∧ Indexable a) (fun _ _ => ¬ Indexable a)
      (conversion mem fmt color slots i is_long is_long_long p) := by
  rw [conversion_switch char, width]
  exact print_post i renders passed

theorem percent_prints {i : Nat} (char : fmt i = 0x25) (is_long is_long_long : Bool) :
    ∃ p', conversion mem fmt color slots i is_long is_long_long p = .ok () p' ∧ Prints color [0x25] 0 p p' :=
  ⟨_, conversion_percent char is_long is_long_long, (prints_look color i p).trans (prints_emit .program color [0x25] _)⟩

theorem unrecognised_prints {i : Nat} {ch : UInt8} (char : fmt i = ch) (other : Unrecognised ch)
    (is_long is_long_long : Bool) :
    ∃ p', conversion mem fmt color slots i is_long is_long_long p = .ok () p' ∧ Prints color [0x25, ch] 0 p p' := by
  subst char
  obtain ⟨none, percent, _, _⟩ := other
  have untaken : takes (fmt i) = false := by
    rw [← Bool.not_eq_true, takes_iff]
    rintro ⟨kind, char⟩
    exact none kind char
  obtain ⟨mid, rfl, ran⟩ := conversion_other untaken percent is_long is_long_long
  have first := (prints_look color i p).trans (prints_emit .program color [0x25] _)
  exact ⟨_, ran, (first.trans (prints_look color i _)).trans (prints_emit .format color [fmt i] _)⟩

/-! ## Rounds of the loop -/

variable {Q : Unit → Printer → Prop} {E : Stop → Printer → Prop} {fuel i : Nat}

/-- A character that is no `'%'` is printed. -/
theorem literal_round {c : UInt8} (char : fmt i = c) (plain : c ≠ 0x25 ∧ c ≠ 0)
    (next : ∀ p', Prints color [c] 0 p p' → i + 1 < 2 ^ 31 → Post Q E (format_loop mem fmt color slots fuel (i + 1) p'))
    (stops : ¬ i + 1 < 2 ^ 31 → ∀ e p', E e p') : Post Q E (format_loop mem fmt color slots (fuel + 1) i p) := by
  subst char
  rw [format_loop, bind_ok (look_ok fmt i p), if_neg plain.2, bind_ok (look_ok fmt i _), if_pos plain.1,
    bind_ok (look_ok fmt i _), bind_ok (putc_ok .format _ color _)]
  apply post_bind
  apply post_increment
  · intro room
    have looked := ((prints_look color i p).trans (prints_look color i _)).trans (prints_look color i _)
    exact next _ (looked.trans (prints_emit .format color [fmt i] _)) room
  · exact fun full => stops full _ _

/-- The characters of a literal are printed one after the other. -/
theorem literal_run {chars rest : List UInt8} (plain : ∀ c ∈ chars, c ≠ 0x25 ∧ c ≠ 0) :
    ∀ {fuel i : Nat} {p : Printer}, Spells fmt i (chars ++ rest) → i < 2 ^ 31 → 2 ^ 31 ≤ i + fuel →
      (∀ fuel p', Prints color chars 0 p p' → i + chars.length < 2 ^ 31 → 2 ^ 31 ≤ i + chars.length + fuel →
        Post Q E (format_loop mem fmt color slots fuel (i + chars.length) p')) →
      (¬ i + chars.length < 2 ^ 31 → ∀ e p', E e p') → Post Q E (format_loop mem fmt color slots fuel i p) := by
  induction chars with
  | nil =>
    intro fuel i p _ low enough next _
    exact next fuel p ⟨(List.append_nil _).symm, rfl⟩ low enough
  | cons c chars ih =>
    intro fuel i p spelled low enough next stops
    obtain ⟨char, _, after⟩ := spelled
    obtain ⟨fuel, rfl⟩ : ∃ more, fuel = more + 1 := ⟨fuel - 1, by omega⟩
    have shift : i + (c :: chars).length = i + 1 + chars.length := by
      rw [List.length_cons]
      omega
    rw [shift] at next stops
    apply literal_round char (plain c List.mem_cons_self)
    · intro q first room
      apply ih (fun d member => plain d (List.mem_cons_of_mem c member)) after room (by omega)
      · exact fun fuel p' second => next fuel p' (first.trans second)
      · exact stops
    · exact fun full => stops (by omega)

theorem dropWhile_modifiers (ls : Nat) {ch : UInt8} (other : ch ≠ 0x6C) (rest : List UInt8) :
    (List.replicate ls 0x6C ++ ch :: rest).dropWhile (· == 0x6C) = ch :: rest := by
  induction ls with
  | zero => exact List.dropWhile_cons_of_neg (by simpa using other)
  | succ ls ih => rwa [List.replicate_succ, List.cons_append, List.dropWhile_cons_of_pos (by simp)]

theorem head_modifiers (ls : Nat) {ch : UInt8} (other : ch ≠ 0x6C) (rest : List UInt8) :
    ((List.replicate ls 0x6C ++ ch :: rest).head? == some 0x6C) = decide (0 < ls) := by
  cases ls with
  | zero => simpa using other
  | succ ls => simp [List.replicate_succ]

/-- After a `'%'` the length modifiers are counted, and the character after them is
    converted; the index goes on behind it. -/
theorem conversion_round (ls : Nat) {ch : UInt8} {rest : List UInt8} (S : Prop) (percent : fmt i = 0x25)
    (spelled : Spells fmt (i + 1) (List.replicate ls 0x6C ++ ch :: rest)) (other : ch ≠ 0x6C)
    (converts : ∀ is_long is_long_long q, (is_long_long || is_long) = decide (0 < ls) → fmt (i + 1 + ls) = ch →
      Prints color [] 0 p q → Post (fun _ p' => Prints color text k q p' ∧ S) (fun _ _ => ¬ S)
        (conversion mem fmt color slots (i + 1 + ls) is_long is_long_long q))
    (next : ∀ p', Prints color text k p p' → S → i + (ls + 2) < 2 ^ 31 → Spells fmt (i + (ls + 2)) rest →
      Post Q E (format_loop mem fmt color slots fuel (i + (ls + 2)) p'))
    (stops : ¬ (S ∧ i + (ls + 2) + rest.length < 2 ^ 31) → ∀ e p', E e p') :
    Post Q E (format_loop mem fmt color slots (fuel + 1) i p) := by
  have begun := (prints_look color i p).trans (prints_look color i _)
  have behind : i + 1 + ls + 1 = i + (ls + 2) := by omega
  have looks (j : Nat) (q : Printer) (_ : j ≤ i + 1 + (List.replicate ls 0x6C ++ ch :: rest).length)
      (before : Prints color [] 0 p q) : Prints color [] 0 p { q with looked := j :: q.looked } :=
    before.trans (prints_look color j q)
  have length : (List.replicate ls 0x6C ++ ch :: rest).length = ls + (rest.length + 1) := by simp
  rw [format_loop, bind_ok (look_ok fmt i p), if_neg (by rw [percent]; decide), bind_ok (look_ok fmt i _),
    if_neg (by rw [percent]; decide)]
  apply post_bind
  apply post_increment
  · intro room
    apply post_bind
    apply (modifiers_post looks rounds false false spelled begun rfl room (fun short => by rw [rounds]; omega)).mono
    · rintro ⟨j, is_long, is_long_long⟩ q ⟨counted, left, total, _, long⟩
      rw [dropWhile_modifiers ls other] at left total
      rw [head_modifiers ls other] at long
      rw [length, List.length_cons] at total
      obtain rfl : j = i + 1 + ls := by omega
      obtain ⟨here, _, after⟩ := left
      rw [behind] at after
      apply post_bind
      apply (converts is_long is_long_long q long here counted).mono
      · rintro _ p' ⟨prints, ready⟩
        have total := counted.trans prints
        rw [Nat.zero_add] at total
        apply post_bind
        apply post_increment
        · intro room
          rw [behind] at room ⊢
          exact next p' total ready room after
        · exact fun full => stops (fun fits => full (by omega)) _ _
      · exact fun e p' unready => stops (fun fits => unready fits.1) e p'
    · exact fun e p' full => stops (fun fits => full (by omega)) e p'
  · exact fun full => stops (fun fits => full (by omega)) _ _

/-- After a `'%'` a character that takes no argument is converted. -/
theorem escape_round {ch : UInt8} {rest : List UInt8} (percent : fmt i = 0x25) (spelled : Spells fmt (i + 1) (ch :: rest))
    (other : ch ≠ 0x6C)
    (converts : ∀ is_long is_long_long q, fmt (i + 1) = ch →
      ∃ p', conversion mem fmt color slots (i + 1) is_long is_long_long q = .ok () p' ∧ Prints color text 0 q p')
    (next : ∀ p', Prints color text 0 p p' → i + 2 < 2 ^ 31 → Spells fmt (i + 2) rest →
      Post Q E (format_loop mem fmt color slots fuel (i + 2) p'))
    (stops : ¬ i + 2 + rest.length < 2 ^ 31 → ∀ e p', E e p') :
    Post Q E (format_loop mem fmt color slots (fuel + 1) i p) := by
  apply conversion_round 0 True percent spelled other
  · intro is_long is_long_long q _ char _
    obtain ⟨p', ran, prints⟩ := converts is_long is_long_long q char
    rw [Nat.add_zero, ran]
    exact ⟨prints, trivial⟩
  · exact fun p' prints _ room left => next p' prints room left
  · exact fun full => stops fun room => full ⟨trivial, room⟩

/-! ## Runs -/

/-- An `int` indexes what is left of the format and the strings that are left. -/
structure Fits (i : Nat) (tokens : List Token) (args : List Argument) : Prop where
  format : i + (format tokens).length < 2 ^ 31
  strings : ∀ a ∈ args, Indexable a

/-- What is left to read after a part of the format. -/
theorem spells_append {chars rest : List UInt8} :
    ∀ {i : Nat}, Spells fmt i (chars ++ rest) → Spells fmt (i + chars.length) rest := by
  induction chars with
  | nil => exact fun spelled => spelled
  | cons c chars ih =>
    intro i spelled
    have after := ih spelled.2.2
    rwa [Nat.add_assoc, Nat.add_comm 1] at after

theorem format_cons (token : Token) (tokens : List Token) : format (token :: tokens) = token.spelling ++ format tokens :=
  List.flatMap_cons

theorem fits_cons {token : Token} {tokens : List Token} {own rest : List Argument} :
    Fits i (token :: tokens) (own ++ rest) ↔ (∀ a ∈ own, Indexable a) ∧ Fits (i + token.spelling.length) tokens rest := by
  have length : i + (format (token :: tokens)).length = i + token.spelling.length + (format tokens).length := by
    rw [format_cons, List.length_append, Nat.add_assoc]
  constructor
  · rintro ⟨room, strings⟩
    rw [length] at room
    exact ⟨fun a member => strings a (List.mem_append_left _ member), room,
      fun a member => strings a (List.mem_append_right _ member)⟩
  · rintro ⟨first, room, strings⟩
    refine ⟨length ▸ room, fun a member => ?_⟩
    rcases List.mem_append.mp member with own | rest
    · exact first a own
    · exact strings a rest

/-- The arguments lie in the slots from `k` on. -/
def PassedFrom (mem : UInt64 → UInt8) (slots : Nat → UInt64) (k : Nat) (args : List Argument) : Prop :=
  ∀ j a, args[j]? = some a → Passed mem a (slots (k + j))

theorem passedFrom_append {own rest : List Argument} (passed : PassedFrom mem slots k (own ++ rest)) :
    PassedFrom mem slots k own ∧ PassedFrom mem slots (k + own.length) rest := by
  constructor
  · intro j a here
    have below := (List.getElem?_eq_some_iff.mp here).1
    exact passed j a (by rw [List.getElem?_append_left below, here])
  · intro j a here
    rw [Nat.add_assoc]
    exact passed _ a (by rw [List.getElem?_append_right (by omega), Nat.add_sub_cancel_left, here])

/-- From a token on the loop prints what the tokens stand for, unless an index overflows. -/
theorem format_loop_prints {tokens : List Token} :
    ∀ {args : List Argument} {text : List UInt8} {fuel i : Nat} {p : Printer}, Spells fmt i (format tokens) →
      rendering tokens args = some text → PassedFrom mem slots p.taken args → i < 2 ^ 31 → 2 ^ 31 ≤ i + fuel →
        Post (fun _ p' => Fits i tokens args ∧ Prints color text args.length p p') (fun _ _ => ¬ Fits i tokens args)
          (format_loop mem fmt color slots fuel i p) := by
  induction tokens with
  | nil =>
    intro args text fuel i p spelled renders _ low enough
    obtain ⟨rfl, rfl⟩ := rendering_nil.mp renders
    obtain ⟨fuel, rfl⟩ : ∃ more, fuel = more + 1 := ⟨fuel - 1, by omega⟩
    rw [format_loop, bind_ok (look_ok fmt i p), if_pos (spells_nil.mp spelled)]
    exact ⟨⟨low, fun a none => absurd none List.not_mem_nil⟩, prints_look color i p⟩
  | cons token tokens ih =>
    intro args text fuel i p spelled renders passed low enough
    obtain ⟨own, rest, out, tail, rfl, one, after, rfl⟩ := rendering_cons.mp renders
    obtain ⟨mine, others⟩ := passedFrom_append passed
    rw [format_cons] at spelled
    rw [fits_cons, List.length_append]
    have goes_on (fuel : Nat) (q : Printer) (prints : Prints color out own.length p q) (short : ∀ a ∈ own, Indexable a)
        (room : i + token.spelling.length < 2 ^ 31) (enough : 2 ^ 31 ≤ i + token.spelling.length + fuel)
        (left : Spells fmt (i + token.spelling.length) (format tokens)) :
        Post (fun _ p' => ((∀ a ∈ own, Indexable a) ∧ Fits (i + token.spelling.length) tokens rest) ∧
            Prints color (out ++ tail) (own.length + rest.length) p p')
          (fun _ _ => ¬ ((∀ a ∈ own, Indexable a) ∧ Fits (i + token.spelling.length) tokens rest))
          (format_loop mem fmt color slots fuel (i + token.spelling.length) q) := by
      apply (ih left after (prints.taken ▸ others) room enough).mono
      · rintro _ p' ⟨fits, more⟩
        exact ⟨⟨short, fits⟩, prints.trans more⟩
      · exact fun _ _ unfit fits => unfit fits.2
    cases token with
    | literal chars plain =>
      obtain rfl : own = [] := List.length_eq_zero_iff.mp (arity_of_rendering one)
      cases one
      apply literal_run plain spelled low enough
      · intro fuel q prints room enough
        exact goes_on fuel q prints (by simp) room enough (spells_append spelled)
      · exact fun full _ _ fits => full (Nat.lt_of_le_of_lt (Nat.le_add_right _ _) fits.2.format)
    | percent =>
      obtain rfl : own = [] := List.length_eq_zero_iff.mp (arity_of_rendering one)
      cases one
      obtain ⟨fuel, rfl⟩ : ∃ more, fuel = more + 1 := ⟨fuel - 1, by omega⟩
      obtain ⟨marked, _, spelled⟩ := spelled
      apply escape_round marked spelled (by decide)
      · exact fun is_long is_long_long q char => percent_prints char is_long is_long_long
      · intro q prints room left
        exact goes_on fuel q prints (by simp) room (show 2 ^ 31 ≤ i + 2 + fuel by omega) left
      · exact fun full _ _ fits => full fits.2.format
    | conversion ls kind =>
      obtain ⟨a, rfl⟩ := List.length_eq_one_iff.mp (arity_of_rendering one)
      obtain ⟨fuel, rfl⟩ : ∃ more, fuel = more + 1 := ⟨fuel - 1, by omega⟩
      have length : (Token.conversion ls kind).spelling.length = ls + 2 := by simp [Token.spelling]
      rw [length] at goes_on ⊢
      rw [Token.spelling, List.cons_append, List.append_assoc] at spelled
      obtain ⟨marked, _, spelled⟩ := spelled
      apply conversion_round ls (∀ b ∈ [a], Indexable b) marked spelled (by cases kind <;> decide)
      · intro is_long is_long_long q long char counted
        rw [List.forall_mem_singleton]
        exact conversion_prints char long one (counted.taken ▸ mine 0 a rfl)
      · intro q prints short room left
        exact goes_on fuel q prints short room (by omega) left
      · exact fun full _ _ fits => full ⟨fits.1, fits.2.format⟩
    | unrecognised ch other =>
      obtain rfl : own = [] := List.length_eq_zero_iff.mp (arity_of_rendering one)
      cases one
      obtain ⟨fuel, rfl⟩ : ∃ more, fuel = more + 1 := ⟨fuel - 1, by omega⟩
      obtain ⟨marked, _, spelled⟩ := spelled
      apply escape_round marked spelled other.2.2.1
      · exact fun is_long is_long_long q char => unrecognised_prints char other is_long is_long_long
      · intro q prints room left
        exact goes_on fuel q prints (by simp) room (show 2 ^ 31 ≤ i + 2 + fuel by omega) left
      · exact fun full _ _ fits => full fits.2.format

end

/-- `kvprintf` returns, having printed this text in the color and taken this many
    arguments. -/
def Rendered (mem : UInt64 → UInt8) (fmt : UInt64) (color : UInt8) (slots : Nat → UInt64) (text : List UInt8) (taken : Nat) :
    Prop :=
  ∃ p', kvprintf mem fmt color slots start = .ok () p' ∧ Prints color text taken start p'

theorem kvprintf_prints {mem : UInt64 → UInt8} {fmt : UInt64} {tokens : List Token} {args : List Argument}
    {slots : Nat → UInt64} {text : List UInt8} (color : UInt8) (spelled : Spells (chars mem fmt) 0 (format tokens))
    (matching : rendering tokens args = some text) (passed : ∀ k a, args[k]? = some a → Passed mem a (slots k)) :
    Post (fun _ p' => Fits 0 tokens args ∧ Prints color text args.length start p') (fun _ _ => ¬ Fits 0 tokens args)
      (kvprintf mem fmt color slots start) := by
  apply format_loop_prints spelled matching ?_ (by decide) le_rfl
  intro k a here
  rw [start, Nat.zero_add]
  exact passed k a here

/-- `kvprintf` prints what the tokens of its format stand for, with the arguments taken
    from left to right and split wherever the tokens are, exactly if an `int` indexes
    the format and the strings. -/
theorem rendered_iff (mem : UInt64 → UInt8) (fmt : UInt64) (tokens : List Token) (color : UInt8) (args : List Argument)
    (slots : Nat → UInt64) (text : List UInt8) (spelled : Spells (chars mem fmt) 0 (format tokens))
    (matching : rendering tokens args = some text) (passed : ∀ k a, args[k]? = some a → Passed mem a (slots k)) :
    (Rendered mem fmt color slots text args.length ∧
      ∀ first second, tokens = first ++ second → ∃ a b out tail, args = a ++ b ∧ rendering first a = some out ∧
        rendering second b = some tail ∧ text = out ++ tail) ↔
      (format tokens).length < 2 ^ 31 ∧ ∀ a ∈ args, Indexable a := by
  have printing := kvprintf_prints color spelled matching passed
  have fits : Fits 0 tokens args ↔ (format tokens).length < 2 ^ 31 ∧ ∀ a ∈ args, Indexable a := by
    constructor
    · rintro ⟨room, strings⟩
      rw [Nat.zero_add] at room
      exact ⟨room, strings⟩
    · rintro ⟨room, strings⟩
      exact ⟨by rwa [Nat.zero_add], strings⟩
  rw [← fits]
  constructor
  · rintro ⟨⟨p', ran, _⟩, _⟩
    exact (printing.of_ok ran).1
  · intro fits
    refine ⟨?_, ?_⟩
    · cases ran : kvprintf mem fmt color slots start with
      | ok _ p' => exact ⟨p', ran, (printing.of_ok ran).2⟩
      | error _ p' => exact absurd fits (printing.of_error ran)
    · rintro first second rfl
      exact rendering_append.mp matching

/-- The format `"n=%lu%%%s%q"` with 7 and NULL. -/
theorem rendered_iff_small :
    (Rendered (fun a => [0x6E, 0x3D, 0x25, 0x6C, 0x75, 0x25, 0x25, 0x25, 0x73, 0x25, 0x71].getD a.toNat 0) 0 0x0F
        (fun k => if k = 0 then 7 else 0)
        [0x6E, 0x3D, 0x37, 0x25, 0x28, 0x6E, 0x75, 0x6C, 0x6C, 0x29, 0x25, 0x71] 2 ∧
      ∀ first second,
        [.literal [0x6E, 0x3D] (by simp), .conversion 1 .u, .percent, .conversion 0 .s,
            .unrecognised 0x71 ⟨by rintro (_ | _ | _ | _ | _ | _ | _) <;> decide, by decide⟩] = first ++ second →
          ∃ a b out tail, [.uint64 7, .string none] = a ++ b ∧ rendering first a = some out ∧
            rendering second b = some tail ∧
              [0x6E, 0x3D, 0x37, 0x25, 0x28, 0x6E, 0x75, 0x6C, 0x6C, 0x29, 0x25, 0x71] = out ++ tail) ↔
      11 < 2 ^ 31 ∧ ∀ a ∈ [Argument.uint64 7, .string none], Indexable a :=
  rendered_iff (fun a => [0x6E, 0x3D, 0x25, 0x6C, 0x75, 0x25, 0x25, 0x25, 0x73, 0x25, 0x71].getD a.toNat 0) 0
    [.literal [0x6E, 0x3D] (by simp), .conversion 1 .u, .percent, .conversion 0 .s,
      .unrecognised 0x71 ⟨by rintro (_ | _ | _ | _ | _ | _ | _) <;> decide, by decide⟩]
    0x0F [.uint64 7, .string none] (fun k => if k = 0 then 7 else 0)
    [0x6E, 0x3D, 0x37, 0x25, 0x28, 0x6E, 0x75, 0x6C, 0x6C, 0x29, 0x25, 0x71] (by decide) (by decide)
    (by
      rintro (_ | _ | k) a here
      · cases here
        rfl
      · cases here
        rfl
      · cases here)

theorem spells_replicate {s : Nat → UInt8} {c : UInt8} (some : c ≠ 0) {n : Nat} :
    ∀ {i : Nat}, (∀ j < n, s (i + j) = c) → s (i + n) = 0 → Spells s i (List.replicate n c) := by
  induction n with
  | zero => exact fun _ finish => finish
  | succ n ih =>
    intro i same finish
    have shift (j : Nat) : i + 1 + j = i + (j + 1) := by omega
    refine ⟨same 0 (Nat.succ_pos n), some, ih ?_ ?_⟩
    · intro j below
      rw [shift]
      exact same (j + 1) (by omega)
    · rw [shift]
      exact finish

/-- A literal of `n` times `'a'`. -/
def repeated (n : Nat) : Token :=
  .literal (List.replicate n 0x61) (by
    intro c member
    rw [List.eq_of_mem_replicate member]
    decide)

/-- `n` times `'a'` at an address, and a NUL. -/
def memory (address : UInt64) (n : Nat) (a : UInt64) : UInt8 := if (a - address).toNat < n then 0x61 else 0

theorem format_repeated (n : Nat) : format [repeated n] = List.replicate n 0x61 := by
  rw [format_cons, format, List.flatMap_nil, List.append_nil]
  rfl

theorem rendering_repeated (n : Nat) : rendering [repeated n] [] = some (List.replicate n 0x61) :=
  rendering_cons.mpr ⟨[], [], _, [], rfl, rfl, rfl, (List.append_nil _).symm⟩

theorem spells_memory (address : UInt64) {n : Nat} (small : n < 2 ^ 64) :
    Spells (chars (memory address n) address) 0 (format [repeated n]) := by
  have there {j : Nat} (low : j < 2 ^ 64) : chars (memory address n) address j = if j < n then 0x61 else 0 := by
    have offset : (address + .ofNat j - address).toNat = j := by
      rw [UInt64.add_comm, UInt64.add_sub_cancel, UInt64.toNat_ofNat', Nat.mod_eq_of_lt low]
    rw [chars, memory, offset]
  rw [format_repeated]
  apply spells_replicate (by decide)
  · intro j below
    rw [Nat.zero_add, there (by omega), if_pos below]
  · rw [Nat.zero_add, there small, if_neg (Nat.lt_irrefl n)]

theorem not_rendered_repeated (address : UInt64) (color : UInt8) (slots : Nat → UInt64) {n : Nat} (long : 2 ^ 31 ≤ n)
    (small : n < 2 ^ 64) : ¬ Rendered (memory address n) address color slots (List.replicate n 0x61) 0 := by
  rintro ⟨p', ran, _⟩
  have passed (k : Nat) (a : Argument) (none : ([] : List Argument)[k]? = some a) :
      Passed (memory address n) a (slots k) := by cases none
  have printing := kvprintf_prints color (spells_memory address small) (rendering_repeated n) passed
  have fits := (printing.of_ok ran).1.format
  rw [format_repeated, List.length_replicate] at fits
  omega

/-- A format of `2 ^ 31` characters is not printed: the index overflows before it
    reaches the NUL. -/
theorem long_format_unprinted :
    Spells (chars (memory 0xFFFFC00000000000 (2 ^ 31)) 0xFFFFC00000000000) 0 (format [repeated (2 ^ 31)]) ∧
      rendering [repeated (2 ^ 31)] [] = some (List.replicate (2 ^ 31) 0x61) ∧
      ¬ Rendered (memory 0xFFFFC00000000000 (2 ^ 31)) 0xFFFFC00000000000 0x0F (fun _ => 0) (List.replicate (2 ^ 31) 0x61) 0 :=
  ⟨spells_memory _ (by decide), rendering_repeated _, not_rendered_repeated _ _ _ le_rfl (by decide)⟩

end Extron.Rendering
