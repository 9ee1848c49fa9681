import Extron.Library.Outcomes

/-!
The text console of `console.c`: 25 rows of 80 cells in the VGA buffer, two bytes
a cell, and a cursor. The screen is the last 25 rows of a document that grows at
its end and never moves: `scroll` loses the first row of the window and nothing
else (`console_refines`).
-/
namespace Extron.Console
open Extron.Outcomes
set_option linter.unusedSimpArgs false

def VGA_WIDTH : Int32 := 80
def VGA_HEIGHT : Int32 := 25

structure Screen where
  /-- The bytes from `vga` on. -/
  vga : Nat → UInt8
  cursor_x : Int32
  cursor_y : Int32

/-- An access `vga[offset]` outside the buffer. -/
structure Outside where
  offset : Int32
deriving DecidableEq, Repr

abbrev Terminal := EStateM Outside Screen

/-- The bytes of the VGA buffer. -/
def bufferSize : Int32 := 2 * 80 * 25

def load (i : Int32) : Terminal UInt8 := fun s =>
  if 0 ≤ i ∧ i < bufferSize then .ok (s.vga i.toNatClampNeg) s else .error ⟨i⟩ s

def store (i : Int32) (b : UInt8) : Terminal Unit := fun s =>
  if 0 ≤ i ∧ i < bufferSize then .ok () { s with vga := Function.update s.vga i.toNatClampNeg b } else .error ⟨i⟩ s

/-! ## The functions -/

def putc_at (x y : Int32) (c color : UInt8) : Terminal Unit := do
  let i := (y * VGA_WIDTH + x) * 2
  store i c
  store (i + 1) color

def clear_screen (color : UInt8) : Terminal Unit := do
  times (fun y => times (fun x => putc_at (.ofNat x) (.ofNat y) 0x20 color) 0 80) 0 25
  modify fun s => { s with cursor_x := 0, cursor_y := 0 }

def scroll_cell (y x : Nat) : Terminal Unit := do
  let from_ := (Int32.ofNat y * VGA_WIDTH + .ofNat x) * 2
  let to_ := ((Int32.ofNat y - 1) * VGA_WIDTH + .ofNat x) * 2
  store to_ (← load from_)
  store (to_ + 1) (← load (from_ + 1))

def scroll : Terminal Unit := do
  times (fun y => times (scroll_cell y) 0 80) 1 24
  times (fun x => putc_at (.ofNat x) (VGA_HEIGHT - 1) 0x20 0x0F) 0 80
  modify fun s => { s with cursor_y := VGA_HEIGHT - 1 }

/-- The character itself, before the cursor is brought back into the screen. -/
def put_char (c color : UInt8) : Terminal Unit :=
  if c = 0x0A then
    modify fun s => { s with cursor_x := 0, cursor_y := s.cursor_y + 1 }
  else if c = 0x0D then
    modify fun s => { s with cursor_x := 0 }
  else if c = 0x09 then
    modify fun s => { s with cursor_x := (s.cursor_x + 8) &&& ~~~(8 - 1) }
  else do
    let s ← get
    putc_at s.cursor_x s.cursor_y c color
    modify fun s => { s with cursor_x := s.cursor_x + 1 }

def putc (c color : UInt8) : Terminal Unit := do
  put_char c color
  modify fun s => if VGA_WIDTH ≤ s.cursor_x then { s with cursor_x := 0, cursor_y := s.cursor_y + 1 } else s
  let s ← get
  if VGA_HEIGHT ≤ s.cursor_y then scroll else pure ()

inductive Call
  | clear_screen (color : UInt8)
  | putc (c color : UInt8)
deriving DecidableEq, Repr

def serve : Call → Terminal Unit
  | .clear_screen color => clear_screen color
  | .putc c color => putc c color

def runs : List Call → Terminal Unit
  | [] => pure ()
  | call :: calls => do
    serve call
    runs calls

/-! ## The document -/

/-- A character and its colour. -/
abbrev Cell := UInt8 × UInt8

/-- Rows of 80 cells without end, and the place of the next character. -/
structure Document where
  cell : Nat → Nat → Cell
  x : Nat
  y : Nat

namespace Document

/-- The row of a document on which its window of 25 rows begins. -/
def top (d : Document) : Nat := d.y - 24

/-- A document whose first 25 rows are in one colour. -/
def blank (color : UInt8) : Document :=
  { cell := fun _ y => if y < 25 then (0x20, color) else (0x20, 0x0F), x := 0, y := 0 }

def write (d : Document) (c : Cell) : Document :=
  { d with cell := fun x y => if x = d.x ∧ y = d.y then c else d.cell x y, x := d.x + 1 }

/-- The start of the next row once a row is full. -/
def wrap (d : Document) : Document := if 80 ≤ d.x then { d with x := 0, y := d.y + 1 } else d

def put (d : Document) (c color : UInt8) : Document :=
  if c = 0x0A then { d with x := 0, y := d.y + 1 }
  else if c = 0x0D then { d with x := 0 }
  else if c = 0x09 then { d with x := (d.x / 8 + 1) * 8 }.wrap
  else (d.write (c, color)).wrap

def after (d : Document) : Call → Document
  | .clear_screen color => blank color
  | .putc c color => d.put c color

end Document

/-- The cell of a screen at a column and a row. -/
def Screen.cell (s : Screen) (x y : Nat) : Cell := (s.vga ((y * 80 + x) * 2), s.vga ((y * 80 + x) * 2 + 1))

/-- The document of a screen that nothing has scrolled. -/
def Screen.document (s : Screen) : Document :=
  { cell := fun x y => if y < 25 then s.cell x y else (0x20, 0x0F)
    x := s.cursor_x.toNatClampNeg
    y := s.cursor_y.toNatClampNeg }

/-- The screen shows the 25 rows of the document from `top` on, and what is below
    them is still blank. -/
structure Drawn (d : Document) (top : Nat) (s : Screen) : Prop where
  cells : ∀ x < 80, ∀ y < 25, s.cell x y = d.cell x (y + top)
  below : ∀ x y, top + 25 ≤ y → d.cell x y = (0x20, 0x0F)
  cursor_x : s.cursor_x = .ofNat d.x
  cursor_y : s.cursor_y = .ofNat (d.y - top)
  first : top ≤ d.y
  last : top = 0 ∨ top + 24 ≤ d.y

/-- The screen shows the window of the document and its cursor. -/
structure Shows (d : Document) (s : Screen) : Prop where
  column : d.x < 80
  cells : ∀ x < 80, ∀ y < 25, s.cell x y = d.cell x (y + d.top)
  cursor_x : s.cursor_x.toInt = d.x
  cursor_y : s.cursor_y.toInt = d.y - d.top
  row : d.y - d.top < 25

/-! ## Accesses -/

theorem load_ok {n : Nat} (inside : n < 4000) (s : Screen) : load (.ofNat n) s = .ok (s.vga n) s := by
  have low : (0 : Int32) ≤ .ofNat n := Int32.zero_le_ofNat_of_lt (by omega)
  have high : Int32.ofNat n < bufferSize := (Int32.ofNat_lt_iff_lt (by omega) (by decide)).mpr inside
  rw [load, if_pos ⟨low, high⟩, Int32.toNatClampNeg_ofNat_of_lt (by omega)]

theorem store_ok {n : Nat} (inside : n < 4000) (b : UInt8) (s : Screen) :
    store (.ofNat n) b s = .ok () { s with vga := Function.update s.vga n b } := by
  have low : (0 : Int32) ≤ .ofNat n := Int32.zero_le_ofNat_of_lt (by omega)
  have high : Int32.ofNat n < bufferSize := (Int32.ofNat_lt_iff_lt (by omega) (by decide)).mpr inside
  rw [store, if_pos ⟨low, high⟩, Int32.toNatClampNeg_ofNat_of_lt (by omega)]

/-- The offset of a cell as `int` arithmetic computes it. -/
theorem offset_eq (x y : Nat) : (Int32.ofNat y * VGA_WIDTH + .ofNat x) * 2 = .ofNat ((y * 80 + x) * 2) := by
  rw [Int32.ofNat_mul, Int32.ofNat_add, Int32.ofNat_mul]
  rfl

theorem offset_succ (n : Nat) : Int32.ofNat n + 1 = .ofNat (n + 1) := by
  rw [Int32.ofNat_add]
  rfl

/-- The buffer with one cell changed. -/
def written (vga : Nat → UInt8) (n : Nat) (c : Cell) : Nat → UInt8 :=
  Function.update (Function.update vga (n * 2) c.1) (n * 2 + 1) c.2

theorem putc_at_ok {x y : Nat} (column : x < 80) (row : y < 25) (c color : UInt8) (s : Screen) :
    putc_at (.ofNat x) (.ofNat y) c color s = .ok () { s with vga := written s.vga (y * 80 + x) (c, color) } := by
  show (store ((Int32.ofNat y * VGA_WIDTH + .ofNat x) * 2) c >>= fun _ =>
    store ((Int32.ofNat y * VGA_WIDTH + .ofNat x) * 2 + 1) color) s = _
  rw [offset_eq, offset_succ, bind_ok (store_ok (by omega) c s), store_ok (by omega)]
  rfl

/-! ## Blank cells -/

/-- The buffer with the cells from `a` up to `b` blank. -/
def blanked (vga : Nat → UInt8) (color : UInt8) (a b : Nat) : Nat → UInt8 :=
  fun i => if a * 2 ≤ i ∧ i < b * 2 then (if i % 2 = 0 then 0x20 else color) else vga i

theorem blanked_none (vga : Nat → UInt8) (color : UInt8) (a : Nat) : blanked vga color a a = vga := by
  funext i
  rw [blanked, if_neg (by omega)]

theorem written_blanked (vga : Nat → UInt8) (color : UInt8) {a b : Nat} (le : a ≤ b) :
    written (blanked vga color a b) b (0x20, color) = blanked vga color a (b + 1) := by
  funext i
  simp only [written, blanked, Function.update_apply]
  by_cases high : i = b * 2 + 1
  · rw [if_pos high, if_pos (by omega), if_neg (by omega)]
  · by_cases low : i = b * 2
    · rw [if_neg high, if_pos low, if_pos (by omega), if_pos (by omega)]
    · have same : (a * 2 ≤ i ∧ i < b * 2) ↔ (a * 2 ≤ i ∧ i < (b + 1) * 2) := by omega
      rw [if_neg high, if_neg low]
      simp only [same]

/-- One row of blanks, continuing those from `a` on. -/
theorem blank_row {a y : Nat} (row : y < 25) (le : a ≤ y * 80) (color : UInt8) (s : Screen) :
    times (fun x => putc_at (.ofNat x) (.ofNat y) 0x20 color) 0 80 { s with vga := blanked s.vga color a (y * 80) } =
      .ok () { s with vga := blanked s.vga color a ((y + 1) * 80) } := by
  have swept := times_ok (fun x => putc_at (.ofNat x) (.ofNat y) 0x20 color)
    (fun x => { s with vga := blanked s.vga color a (y * 80 + x) }) (k := 0) (n := 80)
    (fun x _ column => by
      rw [putc_at_ok (by omega) row]
      dsimp only
      rw [written_blanked _ _ (by omega), Nat.add_assoc])
  rw [Nat.add_zero] at swept
  rw [swept, Nat.add_mul]

theorem clear_screen_ok (color : UInt8) (s : Screen) :
    clear_screen color s = .ok () { vga := blanked s.vga color 0 2000, cursor_x := 0, cursor_y := 0 } := by
  have swept := times_ok (fun y => times (fun x => putc_at (.ofNat x) (.ofNat y) 0x20 color) 0 80)
    (fun y => { s with vga := blanked s.vga color 0 (y * 80) }) (k := 0) (n := 25)
    (fun y _ row => blank_row (by omega) (by omega) color s)
  rw [Nat.zero_mul, blanked_none] at swept
  rw [clear_screen, bind_ok swept]
  rfl

/-! ## The scroll -/

/-- The buffer with the first `n` cells replaced by those one row further. -/
def moved (vga : Nat → UInt8) (n : Nat) : Nat → UInt8 := fun i => if i < n * 2 then vga (i + 160) else vga i

/-- What is copied has not been overwritten: the copy runs upwards, one row behind
    what it reads. -/
theorem written_moved (vga : Nat → UInt8) (n : Nat) :
    written (moved vga n) n (moved vga n ((n + 80) * 2), moved vga n ((n + 80) * 2 + 1)) = moved vga (n + 1) := by
  have even : moved vga n ((n + 80) * 2) = vga (n * 2 + 160) := by
    rw [moved, if_neg (by omega)]
    congr 1
    omega
  have odd : moved vga n ((n + 80) * 2 + 1) = vga (n * 2 + 1 + 160) := by
    rw [moved, if_neg (by omega)]
    congr 1
    omega
  rw [even, odd]
  funext i
  simp only [written, moved, Function.update_apply]
  by_cases high : i = n * 2 + 1
  · rw [if_pos high, if_pos (by omega), high]
  · by_cases low : i = n * 2
    · rw [if_neg high, if_pos low, if_pos (by omega), low]
    · have same : i < n * 2 ↔ i < (n + 1) * 2 := by omega
      rw [if_neg high, if_neg low]
      simp only [same]

theorem scroll_cell_ok {x y : Nat} (column : x < 80) (row : y < 24) (s : Screen) :
    scroll_cell (y + 1) x { s with vga := moved s.vga (y * 80 + x) } =
      .ok () { s with vga := moved s.vga (y * 80 + x + 1) } := by
  have source : (Int32.ofNat (y + 1) * VGA_WIDTH + .ofNat x) * 2 = .ofNat ((y * 80 + x + 80) * 2) := by
    rw [offset_eq]
    congr 1
    omega
  have up : Int32.ofNat (y + 1) - 1 = .ofNat y := by
    rw [Int32.ofNat_add]
    exact Int32.add_sub_cancel _ _
  show (load ((Int32.ofNat (y + 1) * VGA_WIDTH + .ofNat x) * 2) >>= fun first =>
    store (((Int32.ofNat (y + 1) - 1) * VGA_WIDTH + .ofNat x) * 2) first >>= fun _ =>
    load ((Int32.ofNat (y + 1) * VGA_WIDTH + .ofNat x) * 2 + 1) >>= fun second =>
    store (((Int32.ofNat (y + 1) - 1) * VGA_WIDTH + .ofNat x) * 2 + 1) second) _ = _
  rw [source, up, offset_eq, offset_succ, offset_succ, bind_ok (load_ok (by omega) _), bind_ok (store_ok (by omega) _ _),
    bind_ok (load_ok (by omega) _), store_ok (by omega)]
  have later : Function.update (moved s.vga (y * 80 + x)) ((y * 80 + x) * 2) (moved s.vga (y * 80 + x) ((y * 80 + x + 80) * 2))
      ((y * 80 + x + 80) * 2 + 1) = moved s.vga (y * 80 + x) ((y * 80 + x + 80) * 2 + 1) :=
    Function.update_of_ne (by omega) _ _
  dsimp only
  rw [later, ← written_moved s.vga (y * 80 + x)]
  rfl

/-- The buffer after a scroll. -/
def scrolled (vga : Nat → UInt8) : Nat → UInt8 := blanked (moved vga 1920) 0x0F 1920 2000

theorem scroll_ok (s : Screen) : scroll s = .ok () { s with vga := scrolled s.vga, cursor_y := 24 } := by
  have copied := times_ok (fun y => times (scroll_cell y) 0 80)
    (fun y => { s with vga := moved s.vga ((y - 1) * 80) }) (k := 1) (n := 24)
    (fun y low row => by
      obtain ⟨up, rfl⟩ : ∃ up, y = up + 1 := ⟨y - 1, by omega⟩
      have swept := times_ok (scroll_cell (up + 1)) (fun x => { s with vga := moved s.vga (up * 80 + x) })
        (k := 0) (n := 80) (fun x _ column => scroll_cell_ok (by omega) (by omega) s)
      have full : up * 80 + (0 + 80) = (up + 1) * 80 := by omega
      rw [full] at swept
      exact swept)
  have start : moved s.vga ((1 - 1) * 80) = s.vga := by
    funext i
    rw [moved, if_neg (by omega)]
  rw [start] at copied
  have last := blank_row (y := 24) (by decide) le_rfl 0x0F { s with vga := moved s.vga 1920 }
  dsimp only at last
  rw [blanked_none] at last
  rw [scroll, bind_ok copied]
  exact bind_ok last

/-! ## Cells -/

theorem cell_written {n : Nat} (vga : Nat → UInt8) (c : Cell) (i : Nat) :
    (written vga n c (i * 2), written vga n c (i * 2 + 1)) = if i = n then c else (vga (i * 2), vga (i * 2 + 1)) := by
  simp only [written, Function.update_apply]
  by_cases here : i = n
  · rw [if_pos here, if_neg (by omega), if_pos (by omega), if_pos (by omega)]
  · rw [if_neg here, if_neg (by omega), if_neg (by omega), if_neg (by omega), if_neg (by omega)]

theorem cell_blanked (vga : Nat → UInt8) (color : UInt8) {a b : Nat} (i : Nat) :
    (blanked vga color a b (i * 2), blanked vga color a b (i * 2 + 1)) =
      if a ≤ i ∧ i < b then (0x20, color) else (vga (i * 2), vga (i * 2 + 1)) := by
  simp only [blanked]
  by_cases within : a ≤ i ∧ i < b
  · rw [if_pos within, if_pos (by omega), if_pos (by omega), if_pos (by omega), if_neg (by omega)]
  · rw [if_neg within, if_neg (by omega), if_neg (by omega)]

theorem cell_scrolled (vga : Nat → UInt8) {i : Nat} (inside : i < 2000) :
    (scrolled vga (i * 2), scrolled vga (i * 2 + 1)) =
      if i < 1920 then (vga ((i + 80) * 2), vga ((i + 80) * 2 + 1)) else (0x20, 0x0F) := by
  rw [scrolled, cell_blanked]
  by_cases last : i < 1920
  · have even : i * 2 + 160 = (i + 80) * 2 := by omega
    have odd : i * 2 + 1 + 160 = (i + 80) * 2 + 1 := by omega
    rw [if_neg (by omega), if_pos last, moved, moved, if_pos (by omega), if_pos (by omega), even, odd]
  · rw [if_pos (by omega), if_neg last]

theorem Screen.cell_scrolled (s : Screen) (y : Int32) {x row : Nat} (column : x < 80) (inside : row < 25) :
    Screen.cell { s with vga := scrolled s.vga, cursor_y := y } x row =
      if row < 24 then s.cell x (row + 1) else (0x20, 0x0F) := by
  rw [Screen.cell, Console.cell_scrolled s.vga (by omega)]
  by_cases last : row < 24
  · have down : row * 80 + x + 80 = (row + 1) * 80 + x := by omega
    rw [if_pos (by omega), if_pos last, down]
    rfl
  · rw [if_neg (by omega), if_neg last]

/-! ## One step -/

theorem ofNat_room {n : Nat} (small : n < 2 ^ 31) (bound : Nat) (low : bound < 2 ^ 31) :
    Int32.ofNat bound ≤ .ofNat n ↔ bound ≤ n := Int32.ofNat_le_iff_le low small

theorem tab_stop {x : Nat} (column : x < 80) : (Int32.ofNat x + 8) &&& ~~~(8 - 1) = .ofNat ((x / 8 + 1) * 8) := by
  have all : ∀ x < 80, (Int32.ofNat x + 8) &&& ~~~(8 - 1) = .ofNat ((x / 8 + 1) * 8) := by decide
  exact all x column

/-- A character at the cursor. -/
theorem drawn_write {d : Document} {top : Nat} {s : Screen} (drawn : Drawn d top s) (column : d.x < 80)
    (row : d.y < top + 25) (c color : UInt8) :
    ∃ s', putc_at s.cursor_x s.cursor_y c color s = .ok () s' ∧
      Drawn (d.write (c, color)) top { s' with cursor_x := s'.cursor_x + 1 } := by
  have first := drawn.first
  refine ⟨{ s with vga := written s.vga ((d.y - top) * 80 + d.x) (c, color) }, ?_, ?_⟩
  · rw [drawn.cursor_x, drawn.cursor_y, putc_at_ok column (by omega), ← drawn.cursor_x, ← drawn.cursor_y]
  · refine ⟨?_, ?_, ?_, drawn.cursor_y, first, drawn.last⟩
    · intro x inside y within
      have place : y * 80 + x = (d.y - top) * 80 + d.x ↔ x = d.x ∧ y + top = d.y := by omega
      rw [Screen.cell, cell_written]
      simp only [place, Document.write]
      by_cases here : x = d.x ∧ y + top = d.y
      · rw [if_pos here, if_pos here]
      · rw [if_neg here, if_neg here]
        exact drawn.cells x inside y within
    · intro x y low
      have elsewhere : ¬ (x = d.x ∧ y = d.y) := by omega
      simp only [Document.write, if_neg elsewhere]
      exact drawn.below x y low
    · show s.cursor_x + 1 = _
      rw [drawn.cursor_x, offset_succ]
      rfl

/-- A full row ends. -/
theorem drawn_wrap {d : Document} {top : Nat} {s : Screen} (drawn : Drawn d top s) (column : d.x ≤ 80) :
    Drawn d.wrap top (if VGA_WIDTH ≤ s.cursor_x then { s with cursor_x := 0, cursor_y := s.cursor_y + 1 } else s) := by
  have full : VGA_WIDTH ≤ s.cursor_x ↔ 80 ≤ d.x := by
    rw [drawn.cursor_x]
    exact ofNat_room (by omega) 80 (by decide)
  have first := drawn.first
  have last := drawn.last
  by_cases ends : 80 ≤ d.x
  · rw [if_pos (full.mpr ends), Document.wrap, if_pos ends]
    refine ⟨drawn.cells, drawn.below, rfl, ?_, Nat.le_succ_of_le first, by dsimp only; omega⟩
    dsimp only
    rw [drawn.cursor_y, offset_succ]
    congr 1
    omega
  · rw [if_neg (mt full.mp ends), Document.wrap, if_neg ends]
    exact drawn

/-- A window whose cursor has left it moves on by one row. -/
theorem drawn_scroll {d : Document} {top : Nat} {s : Screen} (drawn : Drawn d top s) (room : d.y ≤ top + 25) :
    ∃ s', (if VGA_HEIGHT ≤ s.cursor_y then scroll else pure ()) s = .ok () s' ∧ Drawn d d.top s' := by
  have first := drawn.first
  have last := drawn.last
  have left : VGA_HEIGHT ≤ s.cursor_y ↔ 25 ≤ d.y - top := by
    rw [drawn.cursor_y]
    exact ofNat_room (by omega) 25 (by decide)
  by_cases out : 25 ≤ d.y - top
  · have next : d.top = top + 1 := by
      rw [Document.top]
      omega
    rw [if_pos (left.mpr out), scroll_ok, next]
    refine ⟨_, rfl, ?_, ?_, drawn.cursor_x, ?_, by omega, by omega⟩
    · intro x column y row
      rw [Screen.cell_scrolled s _ column row]
      by_cases shown : y < 24
      · rw [if_pos shown, drawn.cells x column (y + 1) (by omega)]
        congr 1
        omega
      · rw [if_neg shown, drawn.below x _ (by omega)]
    · intro x y low
      exact drawn.below x y (by omega)
    · have bottom : d.y - (top + 1) = 24 := by omega
      rw [bottom]
      rfl
  · have same : d.top = top := by
      rw [Document.top]
      omega
    rw [if_neg (mt left.mp out), same]
    exact ⟨s, rfl, drawn⟩

/-- What `putc` does before the cursor is brought back into the window. -/
def Document.advance (d : Document) (c color : UInt8) : Document :=
  if c = 0x0A then { d with x := 0, y := d.y + 1 }
  else if c = 0x0D then { d with x := 0 }
  else if c = 0x09 then { d with x := (d.x / 8 + 1) * 8 }
  else d.write (c, color)

theorem Document.put_eq (d : Document) (c color : UInt8) : d.put c color = (d.advance c color).wrap := by
  by_cases newline : c = 0x0A
  · simp [put, advance, newline, wrap]
  · by_cases carriage : c = 0x0D
    · simp [put, advance, carriage, wrap]
    · by_cases tab : c = 0x09
      · simp [put, advance, tab]
      · simp [put, advance, newline, carriage, tab]

/-- Only a newline leaves the row, and it leaves the column 0 behind. -/
theorem Document.advance_room {d : Document} (column : d.x < 80) (c color : UInt8) :
    (d.advance c color).x ≤ 80 ∧ (d.advance c color).wrap.x < 80 ∧ d.y ≤ (d.advance c color).y ∧
      (d.advance c color).wrap.y ≤ d.y + 1 := by
  have ends (e : Document) (inside : e.x ≤ 80) (row : e.y ≤ d.y + 1) (stays : e.x = 80 → e.y = d.y) :
      e.wrap.x < 80 ∧ e.wrap.y ≤ d.y + 1 := by
    by_cases full : 80 ≤ e.x
    · have same := stays (by omega)
      rw [wrap, if_pos full]
      exact ⟨Nat.zero_lt_succ 79, by dsimp only; omega⟩
    · rw [wrap, if_neg full]
      exact ⟨by omega, row⟩
  have all : (d.advance c color).x ≤ 80 ∧ d.y ≤ (d.advance c color).y ∧ (d.advance c color).y ≤ d.y + 1 ∧
      ((d.advance c color).x = 80 → (d.advance c color).y = d.y) := by
    by_cases newline : c = 0x0A
    · simp [advance, newline]
    · by_cases carriage : c = 0x0D
      · simp [advance, carriage]
      · by_cases tab : c = 0x09
        · simp only [advance, tab]
          simp
          omega
        · simp only [advance, newline, carriage, tab, if_false, write]
          exact ⟨column, le_rfl, Nat.le_succ d.y, fun _ => trivial⟩
  obtain ⟨inside, later, row, stays⟩ := all
  have ended := ends _ inside row stays
  exact ⟨inside, ended.1, later, ended.2⟩

theorem put_char_drawn {d : Document} {s : Screen} (drawn : Drawn d d.top s) (column : d.x < 80) (c color : UInt8) :
    ∃ s', put_char c color s = .ok () s' ∧ Drawn (d.advance c color) d.top s' := by
  have first := drawn.first
  have last := drawn.last
  have window : d.y < d.top + 25 := by
    rw [Document.top]
    omega
  rw [put_char, Document.advance]
  by_cases newline : c = 0x0A
  · rw [if_pos newline, if_pos newline]
    refine ⟨_, rfl, drawn.cells, drawn.below, rfl, ?_, Nat.le_succ_of_le first, by dsimp only; omega⟩
    dsimp only
    rw [drawn.cursor_y, offset_succ]
    congr 1
    omega
  · rw [if_neg newline, if_neg newline]
    by_cases carriage : c = 0x0D
    · rw [if_pos carriage, if_pos carriage]
      exact ⟨_, rfl, drawn.cells, drawn.below, rfl, drawn.cursor_y, first, last⟩
    · rw [if_neg carriage, if_neg carriage]
      by_cases tab : c = 0x09
      · rw [if_pos tab, if_pos tab]
        refine ⟨_, rfl, drawn.cells, drawn.below, ?_, drawn.cursor_y, first, last⟩
        dsimp only
        rw [drawn.cursor_x, tab_stop column]
      · rw [if_neg tab, if_neg tab]
        obtain ⟨mid, ran, written⟩ := drawn_write drawn column window c color
        exact ⟨_, bind_ok ran, written⟩

/-- `putc` keeps the window on the document. -/
theorem putc_drawn {d : Document} {s : Screen} (drawn : Drawn d d.top s) (column : d.x < 80) (c color : UInt8) :
    ∃ s', putc c color s = .ok () s' ∧ Drawn (d.put c color) (d.put c color).top s' := by
  obtain ⟨inside, ended, later, row⟩ := Document.advance_room column c color
  obtain ⟨mid, sent, advanced⟩ := put_char_drawn drawn column c color
  have wrapped := drawn_wrap advanced inside
  have room : (d.advance c color).wrap.y ≤ d.top + 25 := by
    rw [Document.top]
    omega
  obtain ⟨s', ran, shown⟩ := drawn_scroll wrapped room
  rw [Document.put_eq]
  exact ⟨s', (bind_ok sent).trans ran, shown⟩

theorem clear_screen_drawn (color : UInt8) (s : Screen) :
    ∃ s', clear_screen color s = .ok () s' ∧ Drawn (.blank color) 0 s' := by
  refine ⟨_, clear_screen_ok color s, ?_, ?_, rfl, rfl, le_rfl, .inl rfl⟩
  · intro x column y row
    rw [Screen.cell, cell_blanked, if_pos (by omega), Document.blank]
    dsimp only
    rw [if_pos (by omega)]
  · intro x y low
    rw [Document.blank]
    dsimp only
    rw [if_neg (by omega)]

/-! ## Runs -/

theorem serve_drawn {d : Document} {s : Screen} (drawn : Drawn d d.top s) (column : d.x < 80) (call : Call) :
    ∃ s', serve call s = .ok () s' ∧ Drawn (d.after call) (d.after call).top s' ∧ (d.after call).x < 80 := by
  cases call with
  | clear_screen color =>
    obtain ⟨s', ran, shown⟩ := clear_screen_drawn color s
    exact ⟨s', ran, shown, Nat.zero_lt_succ 79⟩
  | putc c color =>
    obtain ⟨s', ran, shown⟩ := putc_drawn drawn column c color
    refine ⟨s', ran, shown, ?_⟩
    rw [Document.after, Document.put_eq]
    exact (Document.advance_room column c color).2.1

theorem runs_drawn {d : Document} {s : Screen} (drawn : Drawn d d.top s) (column : d.x < 80) (calls : List Call) :
    ∃ s', runs calls s = .ok () s' ∧ Drawn (calls.foldl Document.after d) (calls.foldl Document.after d).top s' ∧
      (calls.foldl Document.after d).x < 80 := by
  induction calls generalizing d s with
  | nil => exact ⟨s, rfl, drawn, column⟩
  | cons call calls ih =>
    obtain ⟨mid, served, shown, inside⟩ := serve_drawn drawn column call
    obtain ⟨s', ran, ends⟩ := ih shown inside
    exact ⟨s', (bind_ok served).trans ran, ends⟩

theorem Drawn.shows {d : Document} {s : Screen} (drawn : Drawn d d.top s) (column : d.x < 80) : Shows d s := by
  have row : d.y - d.top < 25 := by
    rw [Document.top]
    omega
  refine ⟨column, drawn.cells, ?_, ?_, row⟩
  · rw [drawn.cursor_x, Int32.toInt_ofNat_of_lt (by omega)]
  · rw [drawn.cursor_y, Int32.toInt_ofNat_of_lt (by omega), Nat.cast_sub drawn.first]

/-- A screen is the window of its own document. -/
theorem document_drawn {s : Screen} (column : 0 ≤ s.cursor_x ∧ s.cursor_x < VGA_WIDTH)
    (row : 0 ≤ s.cursor_y ∧ s.cursor_y < VGA_HEIGHT) :
    Drawn s.document s.document.top s ∧ s.document.x < 80 := by
  have inside (v : Int32) {n : Nat} (small : n < 2 ^ 31) (bounds : 0 ≤ v ∧ v < .ofNat n) : v.toNatClampNeg < n := by
    have below := Int32.lt_iff_toInt_lt.mp bounds.2
    rw [← Int32.cast_toNatClampNeg v bounds.1, Int32.toInt_ofNat_of_lt small] at below
    omega
  have x := inside s.cursor_x (n := 80) (by decide) column
  have y := inside s.cursor_y (n := 25) (by decide) row
  have top : s.document.top = 0 := by
    have same : s.document.y = s.cursor_y.toNatClampNeg := rfl
    rw [Document.top, same]
    omega
  rw [top]
  refine ⟨⟨?_, ?_, ?_, ?_, Nat.zero_le _, .inl rfl⟩, x⟩
  · intro x _ y row
    simp only [Screen.document, Nat.add_zero, if_pos row]
  · intro x y low
    have beyond : ¬ y < 25 := by omega
    simp only [Screen.document, if_neg beyond]
  · exact (Int32.ofNat_toNatClampNeg s.cursor_x column.1).symm
  · exact (Int32.ofNat_toNatClampNeg s.cursor_y row.1).symm

/-- Whatever the screen holds and wherever the cursor stands in it, every sequence
    of calls stays within the buffer, and the screen shows the window of the
    document that the calls write. -/
theorem console_refines (s : Screen) (column : 0 ≤ s.cursor_x ∧ s.cursor_x < VGA_WIDTH)
    (row : 0 ≤ s.cursor_y ∧ s.cursor_y < VGA_HEIGHT) (calls : List Call) :
    ∃ s', runs calls s = .ok () s' ∧ Shows (calls.foldl Document.after s.document) s' := by
  obtain ⟨drawn, inside⟩ := document_drawn column row
  obtain ⟨s', ran, shown, ends⟩ := runs_drawn drawn inside calls
  exact ⟨s', ran, shown.shows ends⟩

/-- A cursor on the last cell of the screen, where a character and a newline each
    scroll. -/
theorem console_refines_corner :
    ∃ s', runs [.putc 0x41 0x07, .putc 0x0A 0x07, .putc 0x09 0x0F] ⟨fun _ => 0x2A, 79, 24⟩ = .ok () s' ∧
      Shows ([.putc 0x41 0x07, .putc 0x0A 0x07, .putc 0x09 0x0F].foldl Document.after
        (Screen.document ⟨fun _ => 0x2A, 79, 24⟩)) s' :=
  console_refines ⟨fun _ => 0x2A, 79, 24⟩ (by decide) (by decide) _

end Extron.Console
