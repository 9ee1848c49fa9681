import Extron.Idt
import Extron.Library.Pushes

/-!
`isr.asm` and `isr_c.c`: what an interrupt does to the code that it interrupts. The processor
and the stub of the vector build a `struct isr_frame` on the stack, `isr_handler` runs the
handler of the vector on it, and `iretq` goes back. A handler that keeps the words from its
pointer on is not seen by the code that was interrupted (`interrupt_kept`).
-/
namespace Extron.Isr
open Extron.Pushes Extron.Idt
set_option linter.unusedSimpArgs false

/-- The registers that `isr_common` saves. -/
inductive Reg
  | rax | rbx | rcx | rdx | rsi | rdi | rbp | r8 | r9 | r10 | r11 | r12 | r13 | r14 | r15
deriving DecidableEq, Repr

/-- The processor with the words of memory at the addresses that eight divides, and what
    `outb` wrote to the ports. -/
structure Cpu where
  regs : Reg → UInt64
  stack : Stack UInt64
  rip : UInt64
  rflags : UInt64
  cs : UInt16
  ss : UInt16
  ports : List (UInt16 × UInt8)

/-- A piece of code: it comes back, or it never does. -/
abbrev Asm := StateT Cpu Option

/-! ## Instructions -/

def push (w : UInt64) : Asm Unit := modify fun c => { c with stack := c.stack.push w }
def push_reg (r : Reg) : Asm Unit := modify fun c => { c with stack := c.stack.push (c.regs r) }
def pop (r : Reg) : Asm Unit := modify fun c =>
  { c with regs := Function.update c.regs r (c.stack.peek 0), stack := c.stack.drop 1 }
def mov_rdi_rsp : Asm Unit := modify fun c => { c with regs := Function.update c.regs .rdi c.stack.pointer }
/-- `add rsp`, of so many words. -/
def add_rsp (words : Nat) : Asm Unit := modify fun c => { c with stack := c.stack.drop words }
def outb (port : UInt16) (value : UInt8) : Asm Unit := modify fun c => { c with ports := c.ports ++ [(port, value)] }

/-- `call`, with the `ret` of the function: it goes on here only if the return address is still there. -/
def call (back : UInt64) (body : Asm Unit) : Asm Unit := do
  push back
  body
  if (← get).stack.peek 0 = back then modify fun c => { c with stack := c.stack.drop 1 } else failure

def iretq : Asm Unit := modify fun c =>
  { c with
    rip := c.stack.peek 0
    cs := (c.stack.peek 1).toUInt16
    rflags := c.stack.peek 2
    stack := { c.stack with pointer := c.stack.peek 3 }
    ss := (c.stack.peek 4).toUInt16 }

/-! ## `isr.asm` -/

def isr_common (back : UInt64) (isr_handler : Asm Unit) : Asm Unit := do
  push_reg .rax
  push_reg .rbx
  push_reg .rcx
  push_reg .rdx
  push_reg .rsi
  push_reg .rdi
  push_reg .rbp
  push_reg .r8
  push_reg .r9
  push_reg .r10
  push_reg .r11
  push_reg .r12
  push_reg .r13
  push_reg .r14
  push_reg .r15
  mov_rdi_rsp
  call back isr_handler
  pop .r15
  pop .r14
  pop .r13
  pop .r12
  pop .r11
  pop .r10
  pop .r9
  pop .r8
  pop .rbp
  pop .rdi
  pop .rsi
  pop .rdx
  pop .rcx
  pop .rbx
  pop .rax
  -- vector and error code
  add_rsp 2
  iretq

section
variable (common : Asm Unit)

def isr0 : Asm Unit := do push 0; push 0; common
def isr6 : Asm Unit := do push 0; push 6; common
def isr8 : Asm Unit := do push 8; common
def isr13 : Asm Unit := do push 13; common
def isr14 : Asm Unit := do push 14; common
def irq0 : Asm Unit := do push 0; push 32; common
def irq1 : Asm Unit := do push 0; push 33; common

/-- The code that lies at the addresses of the stubs. -/
structure Loaded (code : UInt64 → Asm Unit) (stubs : Stubs) : Prop where
  isr0 : code stubs.isr0 = isr0 common
  isr6 : code stubs.isr6 = isr6 common
  isr8 : code stubs.isr8 = isr8 common
  isr13 : code stubs.isr13 = isr13 common
  isr14 : code stubs.isr14 = isr14 common
  irq0 : code stubs.irq0 = irq0 common
  irq1 : code stubs.irq1 = irq1 common

end

/-! ## `isr_c.c` and `pic.c` -/

/-- `struct isr_frame` -/
structure IsrFrame where
  r15 : UInt64
  r14 : UInt64
  r13 : UInt64
  r12 : UInt64
  r11 : UInt64
  r10 : UInt64
  r9 : UInt64
  r8 : UInt64
  rbp : UInt64
  rdi : UInt64
  rsi : UInt64
  rdx : UInt64
  rcx : UInt64
  rbx : UInt64
  rax : UInt64
  vector : UInt64
  error_code : UInt64
  rip : UInt64
  cs : UInt64
  rflags : UInt64
  rsp : UInt64
  ss : UInt64
deriving DecidableEq, Repr

/-- The words of the structure. -/
def IsrFrame.words (f : IsrFrame) : List UInt64 :=
  [f.r15, f.r14, f.r13, f.r12, f.r11, f.r10, f.r9, f.r8, f.rbp, f.rdi, f.rsi, f.rdx, f.rcx, f.rbx, f.rax, f.vector, f.error_code,
    f.rip, f.cs, f.rflags, f.rsp, f.ss]

/-- `f->vector` -/
def vector_of (f : UInt64) : Asm UInt64 := do return (← get).stack.word (f + 120)

def PIC1_COMMAND : UInt16 := 0x20
def PIC2_COMMAND : UInt16 := 0xA0
def PIC_EOI : UInt8 := 0x20

def pic_send_eoi (irq : UInt8) : Asm Unit := do
  if irq ≥ 8 then outb PIC2_COMMAND PIC_EOI
  outb PIC1_COMMAND PIC_EOI

/-- The type of `handlers[256]`. -/
abbrev Handlers := UInt8 → Option (UInt64 → Asm Unit)

/-- The table at boot: the exceptions end in a `panic`, the timer does nothing. -/
def handlers : Handlers := fun n =>
  if n = 0 ∨ n = 6 ∨ n = 8 ∨ n = 13 ∨ n = 14 then some fun _ => failure
  else if n = 32 then some fun _ => pure ()
  else none

def isr_register_handler (vector : UInt8) (handler : UInt64 → Asm Unit) (handlers : Handlers) : Handlers :=
  Function.update handlers vector (some handler)

/-- The body of `isr_handler`; a `panic` never comes back. -/
def isr_handler (handlers : Handlers) : Asm Unit := do
  let f := (← get).regs .rdi
  let vector ← vector_of f
  match (if vector < 256 then handlers vector.toUInt8 else none) with
  | some handler =>
    handler f
    let vector ← vector_of f
    if vector ≥ 32 ∧ vector ≤ 47 then pic_send_eoi (vector - 32).toUInt8
  | none => failure

/-! ## The processor -/

/-- The exceptions for which the processor pushes an error code. -/
def has_error_code (n : UInt8) : Bool := n ∈ [8, 10, 11, 12, 13, 14, 17, 21, 29, 30]

/-- Delivery through an interrupt gate within the kernel: on the same stack, from an address
    that 16 divides, and with TF, IF, NT, RF and VM cleared. The resume flag that the word of a
    fault has is left out. -/
def deliver (g : Gate) (n : UInt8) (error : UInt64) : Asm Unit := modify fun c =>
  let aligned : Stack UInt64 := { c.stack with pointer := c.stack.pointer &&& ~~~15 }
  let stack := aligned.pushes [c.ss.toUInt64, c.stack.pointer, c.rflags, c.cs.toUInt64, c.rip]
  { c with
    stack := if has_error_code n then stack.push error else stack
    rip := g.offset
    cs := g.selector
    rflags := c.rflags &&& ~~~0x34300 }

/-- An interrupt of a vector. One without a gate is a fault again, and so is one on a stack of
    the task state, which the kernel does not load. -/
def interrupt (gates : UInt8 → Option Gate) (code : UInt64 → Asm Unit) (n : UInt8) (error : UInt64) : Asm Unit :=
  match gates n with
  | some g => do
    if g.ist ≠ 0 then failure
    deliver g n error
    code g.offset
  | none => failure

/-! ## The frame -/

/-- The registers in the order of the pushes. -/
def saved : List Reg := [.rax, .rbx, .rcx, .rdx, .rsi, .rdi, .rbp, .r8, .r9, .r10, .r11, .r12, .r13, .r14, .r15]

theorem saved_all (r : Reg) : r ∈ saved := by cases r <;> decide

@[simp] theorem length_saved : saved.length = 15 := rfl

theorem saved_nodup : saved.Nodup := by decide

/-- The stack that the interrupted code has, from the next address that 16 divides on. -/
def Cpu.aligned (c : Cpu) : Stack UInt64 := { c.stack with pointer := c.stack.pointer &&& ~~~15 }

/-- The words that `iretq` takes back. -/
def Cpu.return_words (c : Cpu) : List UInt64 := [c.ss.toUInt64, c.stack.pointer, c.rflags, c.cs.toUInt64, c.rip]

@[simp] theorem length_return_words (c : Cpu) : c.return_words.length = 5 := rfl

/-- The words that the processor and the stub push. -/
def Cpu.origin (c : Cpu) (n : UInt8) (error : UInt64) : List UInt64 :=
  c.return_words ++ [if has_error_code n then error else 0, n.toUInt64]

@[simp] theorem length_origin (c : Cpu) (n : UInt8) (error : UInt64) : (c.origin n error).length = 7 := rfl

/-- The state in which `isr_common` is reached. -/
def Cpu.stubbed (c : Cpu) (h : UInt64) (n : UInt8) (error : UInt64) : Cpu :=
  { c with stack := c.aligned.pushes (c.origin n error), rip := h, cs := 0x08, rflags := c.rflags &&& ~~~0x34300 }

/-- The state in which `isr_handler` is called. -/
def Cpu.called (c : Cpu) (back : UInt64) : Cpu :=
  { c with
    regs := Function.update c.regs .rdi (c.stack.pushes (saved.map c.regs)).pointer
    stack := (c.stack.pushes (saved.map c.regs)).push back }

/-- The state after `iretq`, from the one after the call. -/
def Cpu.restored (c : Cpu) : Cpu :=
  let popped := pops saved.reverse c.regs c.stack
  let stack := popped.2.drop 2
  { c with
    regs := popped.1
    rip := stack.peek 0
    cs := (stack.peek 1).toUInt16
    rflags := stack.peek 2
    stack := { stack with pointer := stack.peek 3 }
    ss := (stack.peek 4).toUInt16 }

theorem call_eq (back : UInt64) (body : Asm Unit) (c : Cpu) :
    call back body c = (body { c with stack := c.stack.push back }).bind fun p =>
      if p.2.stack.peek 0 = back then some ((), { p.2 with stack := p.2.stack.drop 1 }) else none := by
  show (body { c with stack := c.stack.push back }).bind _ = _
  congr 1
  funext p
  show (if p.2.stack.peek 0 = back then _ else failure : Asm Unit) p.2 = _
  split
  · rfl
  · rfl

theorem isr_common_eq (back : UInt64) (body : Asm Unit) (c : Cpu) :
    isr_common back body c = (body (c.called back)).bind fun p =>
      if p.2.stack.peek 0 = back then some ((), Cpu.restored { p.2 with stack := p.2.stack.drop 1 }) else none := by
  have start : isr_common back body c = (call back body { c.called back with stack := c.stack.pushes (saved.map c.regs) }).bind
      fun p => some ((), p.2.restored) := rfl
  rw [start, call_eq, Option.bind_assoc]
  show (body (c.called back)).bind _ = _
  congr 1
  funext p
  split
  · rfl
  · rfl

/-- The frame that the handler is given. -/
def Cpu.frame (c : Cpu) (n : UInt8) (error : UInt64) : IsrFrame where
  r15 := c.regs .r15
  r14 := c.regs .r14
  r13 := c.regs .r13
  r12 := c.regs .r12
  r11 := c.regs .r11
  r10 := c.regs .r10
  r9 := c.regs .r9
  r8 := c.regs .r8
  rbp := c.regs .rbp
  rdi := c.regs .rdi
  rsi := c.regs .rsi
  rdx := c.regs .rdx
  rcx := c.regs .rcx
  rbx := c.regs .rbx
  rax := c.regs .rax
  vector := n.toUInt64
  error_code := if has_error_code n then error else 0
  rip := c.rip
  cs := c.cs.toUInt64
  rflags := c.rflags
  rsp := c.stack.pointer
  ss := c.ss.toUInt64

/-! ## Reaching the handler -/

section
variable {code : UInt64 → Asm Unit} {common : Asm Unit} {stubs : Stubs} {idt : Table} {address : UInt64}
  {mem : UInt64 → UInt8} {n : UInt8} {h back error : UInt64} {c d e : Cpu} {i k : Nat} {w : UInt64}

/-- Whichever vector it is, the stub leaves the same words on the stack. -/
theorem code_stubbed (loaded : Loaded common code stubs) (here : stubs.handler n = some h) (c : Cpu) :
    (do deliver ⟨h, 0x08, 0⟩ n error; code h : Asm Unit) c = common (c.stubbed h n error) := by
  simp only [Stubs.handler] at here
  split_ifs at here with zero six eight thirteen fourteen timer keyboard
  · cases here
    rw [loaded.isr0, zero]
    rfl
  · cases here
    rw [loaded.isr6, six]
    rfl
  · cases here
    rw [loaded.isr8, eight]
    rfl
  · cases here
    rw [loaded.isr13, thirteen]
    rfl
  · cases here
    rw [loaded.isr14, fourteen]
    rfl
  · cases here
    rw [loaded.irq0, timer]
    rfl
  · cases here
    rw [loaded.irq1, keyboard]
    rfl

theorem interrupt_stubbed (loaded : Loaded common code stubs) (lies : Lies mem address (idt_init stubs address idt).1)
    (here : stubs.handler n = some h) (c : Cpu) :
    interrupt ((idt_init stubs address idt).2.gate mem) code n error c = common (c.stubbed h n error) := by
  have entry := idt_init_entry stubs address idt n
  rw [here] at entry
  have gate : (idt_init stubs address idt).2.gate mem n = some ⟨h, 0x08, 0⟩ := gate_set lies entry
  rw [interrupt, gate]
  exact code_stubbed loaded here c

/-- The words of the frame are those that were pushed, the last one first. -/
theorem frame_words (c : Cpu) (h : UInt64) (n : UInt8) (error back : UInt64) :
    back :: (c.frame n error).words = (c.origin n error ++ saved.map (c.stubbed h n error).regs ++ [back]).reverse := rfl

theorem called_stack (c : Cpu) (h : UInt64) (n : UInt8) (error back : UInt64) :
    ((c.stubbed h n error).called back).stack = c.aligned.pushes (c.origin n error ++ saved.map (c.stubbed h n error).regs ++ [back]) := by
  rw [pushes_append, pushes_append]
  rfl

theorem called_rdi (c : Cpu) (back : UInt64) : (c.called back).regs .rdi = (c.called back).stack.pointer + 8 := by
  have rdi : (c.called back).regs .rdi = (c.stack.pushes (saved.map c.regs)).pointer := by
    simp [Cpu.called]
  rw [rdi]
  exact (drop_push (c.stack.pushes (saved.map c.regs)) back).symm

/-- A word of the frame, as the handler finds it. -/
theorem called_word (here : (c.frame n error).words[i]? = some w) :
    ((c.stubbed h n error).called back).stack.peek (i + 1) = w := by
  rw [called_stack]
  refine peek_pushes ?_ ?_
  · rw [places]
    simp [saved, Cpu.origin]
  · rw [← frame_words, List.getElem?_cons_succ]
    exact here

theorem and_aligned (x : UInt64) : (x &&& ~~~15).toNat % 16 = 0 := by
  have none : (x &&& ~~~15) &&& 15 = 0 := by
    rw [UInt64.and_assoc]
    exact UInt64.and_zero
  have low := congrArg UInt64.toNat none
  rw [UInt64.toNat_and] at low
  exact (Nat.and_two_pow_sub_one_eq_mod _ 4).symm.trans low

/-- The frame lies where 16 divides the address, as a call of a C function has it. -/
theorem called_aligned (c : Cpu) (h : UInt64) (n : UInt8) (error back : UInt64) :
    (((c.stubbed h n error).called back).regs .rdi).toNat % 16 = 0 := by
  have frame : ((c.stubbed h n error).called back).regs .rdi =
      (c.aligned.pushes (c.origin n error ++ saved.map (c.stubbed h n error).regs)).pointer := by
    rw [pushes_append]
    rfl
  have above := pointer_pushes (c.origin n error ++ saved.map (c.stubbed h n error).regs) c.aligned
  rw [Stack.drop] at above
  dsimp only at above
  rw [← frame] at above
  have total := congrArg UInt64.toNat above
  have mod := and_aligned c.stack.pointer
  have size : (UInt64.ofNat (8 * (c.origin n error ++ saved.map (c.stubbed h n error).regs).length)).toNat = 176 := rfl
  have pointer : c.aligned.pointer = c.stack.pointer &&& ~~~15 := rfl
  rw [UInt64.toNat_add, size, pointer] at total
  omega

end

/-! ## Coming back -/

/-- What the interrupted code sees is as it was: the registers, and of the stack the pointer
    and the words from it on. What lies below is lost, and the kernel is built without a red
    zone. -/
structure Kept (k : Nat) (c c' : Cpu) : Prop where
  regs : c'.regs = c.regs
  rip : c'.rip = c.rip
  rflags : c'.rflags = c.rflags
  cs : c'.cs = c.cs
  ss : c'.ss = c.ss
  pointer : c'.stack.pointer = c.stack.pointer
  words : Keeps k c.aligned c'.aligned

section
variable {n : UInt8} {h back error : UInt64} {c d e : Cpu} {i k : Nat} {w : UInt64}

/-- `iretq` after code that kept the words from its pointer on. -/
theorem restored_kept (few : k + 23 ≤ places)
    (keeps : Keeps (23 + k) ((c.stubbed h n error).called back).stack e.stack) :
    Kept k c (Cpu.restored { e with stack := e.stack.drop 1 }) := by
  rw [called_stack, pushes_append] at keeps
  have frame : Keeps (22 + k) (c.aligned.pushes (c.origin n error ++ saved.map c.regs)) (e.stack.drop 1) :=
    Keeps.above [back] (keeps.mono (by simp; omega)) (by simp; omega)
  rw [pushes_append] at frame
  have restored : (pops saved.reverse e.regs (e.stack.drop 1)).1 = c.regs := by
    funext r
    exact pops_pushes saved_nodup (by rw [places]; simp) (frame.mono (by simp; omega)) (saved_all r)
  have popped : (pops saved.reverse e.regs (e.stack.drop 1)).2 = (e.stack.drop 1).drop 15 := pops_stack ..
  have origin : Keeps (7 + k) (c.aligned.pushes (c.origin n error)) ((e.stack.drop 1).drop 15) :=
    Keeps.above (saved.map c.regs) (frame.mono (by simp; omega)) (by simp; omega)
  rw [Cpu.origin, pushes_append, ← popped] at origin
  -- the stack at `iretq`
  obtain ⟨t, here⟩ : ∃ t, t = (pops saved.reverse e.regs (e.stack.drop 1)).2.drop 2 := ⟨_, rfl⟩
  have returned : Keeps (5 + k) (c.aligned.pushes c.return_words) t := by
    rw [here]
    exact Keeps.above [_, _] (origin.mono (by simp; omega)) (by simp; omega)
  have word {i : Nat} {w : UInt64} (pushed : c.return_words.reverse[i]? = some w) : t.peek i = w := by
    have inside : i < 5 := by simpa using (List.getElem?_eq_some_iff.mp pushed).1
    rw [returned.words i (by omega)]
    exact peek_pushes (by rw [places]; simp) pushed
  have last : Keeps k c.aligned (t.drop 5) :=
    Keeps.above c.return_words (returned.mono (by simp)) (by simp; omega)
  have final : Cpu.restored { e with stack := e.stack.drop 1 } = 
      { e with
        regs := (pops saved.reverse e.regs (e.stack.drop 1)).1
        rip := t.peek 0
        cs := (t.peek 1).toUInt16
        rflags := t.peek 2
        stack := { t with pointer := t.peek 3 }
        ss := (t.peek 4).toUInt16 } := by
    rw [here]
    rfl
  have rip : t.peek 0 = c.rip := word rfl
  have cs : t.peek 1 = c.cs.toUInt64 := word rfl
  have rflags : t.peek 2 = c.rflags := word rfl
  have pointer : t.peek 3 = c.stack.pointer := word rfl
  have ss : t.peek 4 = c.ss.toUInt64 := word rfl
  rw [final, restored, rip, cs, rflags, pointer, ss, UInt16.toUInt16_toUInt64, UInt16.toUInt16_toUInt64]
  refine ⟨rfl, rfl, rfl, rfl, rfl, rfl, ⟨rfl, fun j inside => ?_⟩⟩
  rw [← last.words j inside, Stack.peek, Stack.peek, last.pointer]
  rfl

/-- A handler that keeps so many words from its pointer on, and writes to no port. -/
def Careful (k : Nat) (handler : UInt64 → Asm Unit) : Prop :=
  ∀ f d e, handler f d = some ((), e) → Keeps k d.stack e.stack ∧ e.ports = d.ports

/-- What the interrupt controllers are sent for a vector. -/
def acknowledged (n : UInt8) : List (UInt16 × UInt8) :=
  if 32 ≤ n ∧ n ≤ 47 then (if n - 32 ≥ 8 then [(PIC2_COMMAND, PIC_EOI)] else []) ++ [(PIC1_COMMAND, PIC_EOI)] else []

theorem pic_send_eoi_eq (irq : UInt8) (c : Cpu) :
    pic_send_eoi irq c =
      some ((), { c with ports := c.ports ++ ((if irq ≥ 8 then [(PIC2_COMMAND, PIC_EOI)] else []) ++ [(PIC1_COMMAND, PIC_EOI)]) }) := by
  rw [pic_send_eoi]
  by_cases slave : irq ≥ 8
  · rw [if_pos slave, if_pos slave, ← List.append_assoc]
    rfl
  · rw [if_neg slave, if_neg slave]
    rfl

variable {handlers : Handlers} {handler : UInt64 → Asm Unit}

/-- Nothing between the handler and its frame moves: the vector is there after it as before. -/
theorem vector_kept (keeps : Keeps (23 + k) ((c.stubbed h n error).called back).stack e.stack) :
    e.stack.word (((c.stubbed h n error).called back).regs .rdi + 120) = n.toUInt64 := by
  have there := keeps.words 16 (by omega)
  have vector : ((c.stubbed h n error).called back).stack.peek 16 = n.toUInt64 := called_word rfl
  rw [vector, Stack.peek, keeps.pointer] at there
  rw [called_rdi, UInt64.add_assoc]
  exact there

theorem called_vector (c : Cpu) (h : UInt64) (n : UInt8) (error back : UInt64) :
    ((c.stubbed h n error).called back).stack.word (((c.stubbed h n error).called back).regs .rdi + 120) = n.toUInt64 :=
  vector_kept (k := 0) ⟨rfl, fun _ _ => rfl⟩

/-- The handler is that of the vector in the frame. -/
theorem isr_handler_vector (vector : d.stack.word (d.regs .rdi + 120) = n.toUInt64) :
    isr_handler handlers d = (match handlers n with
      | some handler => do
        handler (d.regs .rdi)
        let vector ← vector_of (d.regs .rdi)
        if vector ≥ 32 ∧ vector ≤ 47 then pic_send_eoi (vector - 32).toUInt8
      | none => failure : Asm Unit) d := by
  have small : n.toUInt64 < 256 := by
    rw [UInt64.lt_iff_toNat_lt, UInt8.toNat_toUInt64]
    exact n.toNat_lt
  show (match (if d.stack.word (d.regs .rdi + 120) < 256 then handlers (d.stack.word (d.regs .rdi + 120)).toUInt8 else none) with
    | some handler => _
    | none => failure : Asm Unit) d = _
  rw [vector, if_pos small, UInt8.toUInt8_toUInt64]

theorem isr_handler_eq (installed : handlers n = some handler) (careful : Careful (23 + k) handler) :
    isr_handler handlers ((c.stubbed h n error).called back) =
      (handler (((c.stubbed h n error).called back).regs .rdi) ((c.stubbed h n error).called back)).map fun p =>
        ((), { p.2 with ports := p.2.ports ++ acknowledged n }) := by
  obtain ⟨d, here⟩ : ∃ d, d = (c.stubbed h n error).called back := ⟨_, rfl⟩
  rw [isr_handler_vector (called_vector c h n error back), installed, ← here]
  show (handler (d.regs .rdi) d).bind _ = _
  cases ran : handler (d.regs .rdi) d with
  | none => rfl
  | some p =>
    obtain ⟨_, e⟩ := p
    have after : e.stack.word (d.regs .rdi + 120) = n.toUInt64 := by
      rw [here]
      exact vector_kept (here ▸ (careful _ _ _ ran).1)
    show (if e.stack.word (d.regs .rdi + 120) ≥ 32 ∧ e.stack.word (d.regs .rdi + 120) ≤ 47 then
      pic_send_eoi (e.stack.word (d.regs .rdi + 120) - 32).toUInt8 else pure () : Asm Unit) e = _
    have range : (n.toUInt64 ≥ 32 ∧ n.toUInt64 ≤ 47) ↔ 32 ≤ n ∧ n ≤ 47 := by
      simp only [ge_iff_le, UInt64.le_iff_toNat_le, UInt8.le_iff_toNat_le, UInt8.toNat_toUInt64]
      rfl
    have irq : (n.toUInt64 - 32).toUInt8 = n - 32 := by
      rw [UInt64.toUInt8_sub, UInt8.toUInt8_toUInt64]
      rfl
    rw [after, irq, Option.map_some, acknowledged]
    by_cases hardware : 32 ≤ n ∧ n ≤ 47
    · rw [if_pos (range.mpr hardware), if_pos hardware]
      exact pic_send_eoi_eq _ e
    · rw [if_neg (range.not.mpr hardware), if_neg hardware, List.append_nil]
      rfl

/-- A vector without a handler is a `panic`. -/
theorem isr_handler_none (absent : handlers n = none) : isr_handler handlers ((c.stubbed h n error).called back) = none := by
  rw [isr_handler_vector (called_vector c h n error back), absent]
  rfl

/-- Of the vectors that have a stub, those of the timer and the keyboard are acknowledged, to
    the first controller alone. -/
theorem acknowledged_handler {stubs : Stubs} (here : stubs.handler n = some h) :
    acknowledged n = if n = 32 ∨ n = 33 then [(PIC1_COMMAND, PIC_EOI)] else [] := by
  simp only [Stubs.handler] at here
  split_ifs at here with zero six eight thirteen fourteen timer keyboard <;> subst n <;> rfl

/-- The code of the kernel where its stubs are, and its table in memory. -/
structure Ready (code : UInt64 → Asm Unit) (handlers : Handlers) (back : UInt64) (stubs : Stubs) (address : UInt64) (idt : Table)
    (mem : UInt64 → UInt8) : Prop where
  loaded : Loaded (isr_common back (isr_handler handlers)) code stubs
  lies : Lies mem address (idt_init stubs address idt).1

variable {code : UInt64 → Asm Unit} {stubs : Stubs} {idt : Table} {address : UInt64} {mem : UInt64 → UInt8}

/-- The interrupt of a vector that has a stub, and what it leads to. -/
theorem interrupt_eq (ready : Ready code handlers back stubs address idt mem) (here : stubs.handler n = some h)
    (installed : handlers n = some handler) (careful : Careful (23 + k) handler) (c : Cpu) :
    interrupt ((idt_init stubs address idt).2.gate mem) code n error c =
      (handler (((c.stubbed h n error).called back).regs .rdi) ((c.stubbed h n error).called back)).map fun p =>
        ((), Cpu.restored { p.2 with stack := p.2.stack.drop 1, ports := p.2.ports ++ acknowledged n }) := by
  rw [interrupt_stubbed ready.loaded ready.lies here, isr_common_eq, isr_handler_eq installed careful]
  cases ran : handler (((c.stubbed h n error).called back).regs .rdi) ((c.stubbed h n error).called back) with
  | none => rfl
  | some p =>
    obtain ⟨_, e⟩ := p
    have top : e.stack.peek 0 = back := by
      have keeps := (careful _ _ _ ran).1
      rw [keeps.words 0 (by omega)]
      exact peek_push _ _
    rw [Option.map_some, Option.bind_some, if_pos top, Option.map_some]

/-- The code goes on as it was, and the interrupt of a device is acknowledged. -/
theorem interrupt_back (ready : Ready code handlers back stubs address idt mem) (here : stubs.handler n = some h)
    (few : k + 23 ≤ places) (installed : handlers n = some handler) (careful : Careful (23 + k) handler) {c c' : Cpu}
    (ran : interrupt ((idt_init stubs address idt).2.gate mem) code n error c = some ((), c')) :
    Kept k c c' ∧ c'.ports = c.ports ++ if n = 32 ∨ n = 33 then [(PIC1_COMMAND, PIC_EOI)] else [] := by
  rw [interrupt_eq ready here installed careful c] at ran
  obtain ⟨⟨_, e⟩, handled, final⟩ := Option.map_eq_some_iff.mp ran
  obtain ⟨keeps, quiet⟩ := careful _ _ _ handled
  cases final
  refine ⟨restored_kept (e := { e with ports := e.ports ++ acknowledged n }) few keeps, ?_⟩
  rw [← acknowledged_handler here]
  exact congrArg (· ++ acknowledged n) quiet

/-- An interrupt that comes back had a stub and a handler. -/
theorem interrupt_served (ready : Ready code handlers back stubs address idt mem) {c c' : Cpu}
    (ran : interrupt ((idt_init stubs address idt).2.gate mem) code n error c = some ((), c')) :
    ∃ h handler, stubs.handler n = some h ∧ handlers n = some handler := by
  cases here : stubs.handler n with
  | none =>
    have entry := idt_init_entry stubs address idt n
    rw [here] at entry
    have closed : (idt_init stubs address idt).2.gate mem n = none := gate_cleared ready.lies entry
    rw [interrupt, closed] at ran
    cases ran
  | some h =>
    cases installed : handlers n with
    | none =>
      rw [interrupt_stubbed ready.loaded ready.lies here, isr_common_eq, isr_handler_none installed] at ran
      cases ran
    | some handler => exact ⟨h, handler, rfl, rfl⟩

end

/-! ## The handlers of the kernel -/

theorem careful_handlers {k : Nat} {n : UInt8} {handler : UInt64 → Asm Unit} (installed : handlers n = some handler) : Careful k handler := by
  rw [handlers] at installed
  split_ifs at installed with exception timer
  · cases installed
    rintro f d e ⟨⟩
  · cases installed
    rintro f d e ⟨⟩
    exact ⟨⟨rfl, fun _ _ => rfl⟩, rfl⟩

/-- Whatever careful handlers the drivers register, the table has no others. -/
theorem careful_register {k : Nat} {table : Handlers} {vector : UInt8} {driver : UInt64 → Asm Unit}
    (careful : ∀ n handler, table n = some handler → Careful k handler) (driven : Careful k driver) (n : UInt8) (handler : UInt64 → Asm Unit)
    (installed : isr_register_handler vector driver table n = some handler) : Careful k handler := by
  rw [isr_register_handler, Function.update_apply] at installed
  split_ifs at installed with same
  · cases installed
    exact driven
  · exact careful n handler installed

/-- The stubs in memory, with a driver of the keyboard. -/
def smallCode (driver : UInt64 → Asm Unit) (a : UInt64) : Asm Unit :=
  let common := isr_common 0xFFFFFFFF80101060 (isr_handler (isr_register_handler 33 driver handlers))
  if a = smallStubs.isr0 then isr0 common
  else if a = smallStubs.isr6 then isr6 common
  else if a = smallStubs.isr8 then isr8 common
  else if a = smallStubs.isr13 then isr13 common
  else if a = smallStubs.isr14 then isr14 common
  else if a = smallStubs.irq0 then irq0 common
  else irq1 common

/-- The table of `idt_init` for these stubs, as the processor finds it. -/
def smallGates : UInt8 → Option Gate := (idt_init smallStubs 0 fun _ => ⟨0, 0, 0, 0, 0, 0, 0⟩).2.gate smallMemory

/-- A driver that leaves no register as it was. -/
def smallDriver (_ : UInt64) : Asm Unit := modify fun c => { c with regs := fun _ => 0 }

/-- A state of the kernel, on a stack that 16 does not divide. -/
def smallCpu : Cpu := ⟨fun _ => 5, ⟨0xFFFFFFFF80200FF8, fun a => a⟩, 0xFFFFFFFF80104321, 0x202, 0x08, 0x10, []⟩

theorem ready_small : Ready (smallCode smallDriver) (isr_register_handler 33 smallDriver handlers) 0xFFFFFFFF80101060 smallStubs 0
    (fun _ => ⟨0, 0, 0, 0, 0, 0, 0⟩) smallMemory :=
  ⟨⟨rfl, rfl, rfl, rfl, rfl, rfl, rfl⟩, lies_small⟩

theorem careful_small {k : Nat} : Careful k smallDriver := by
  rintro f d e ⟨⟩
  exact ⟨⟨rfl, fun _ _ => rfl⟩, rfl⟩

section
variable {back : UInt64} {c d e : Cpu} {k : Nat} {table : Handlers} {code : UInt64 → Asm Unit} {stubs : Stubs} {idt : Table}
  {address : UInt64} {mem : UInt64 → UInt8}

/-- Interrupts one after the other, each with the error code that it has. -/
def interrupts (gates : UInt8 → Option Gate) (code : UInt64 → Asm Unit) : List (UInt8 × UInt64) → Asm Unit
  | [] => pure ()
  | (n, error) :: rest => do
    interrupt gates code n error
    interrupts gates code rest

theorem Kept.refl (k : Nat) (c : Cpu) : Kept k c c := ⟨rfl, rfl, rfl, rfl, rfl, rfl, ⟨rfl, fun _ _ => rfl⟩⟩

theorem Kept.trans (one : Kept k c d) (two : Kept k d e) : Kept k c e where
  regs := two.regs.trans one.regs
  rip := two.rip.trans one.rip
  rflags := two.rflags.trans one.rflags
  cs := two.cs.trans one.cs
  ss := two.ss.trans one.ss
  pointer := two.pointer.trans one.pointer
  words := ⟨two.words.pointer.trans one.words.pointer, fun j inside => (two.words.words j inside).trans (one.words.words j inside)⟩

theorem interrupts_back (ready : Ready code table back stubs address idt mem) (few : k + 23 ≤ places)
    (careful : ∀ n handler, table n = some handler → Careful (23 + k) handler) (events : List (UInt8 × UInt64)) (c c' : Cpu)
    (ran : interrupts ((idt_init stubs address idt).2.gate mem) code events c = some ((), c')) :
    Kept k c c' ∧ c'.ports = c.ports ++ events.flatMap fun event => if event.1 = 32 ∨ event.1 = 33 then [(PIC1_COMMAND, PIC_EOI)] else [] := by
  induction events generalizing c with
  | nil =>
    cases ran
    exact ⟨.refl k _, (List.append_nil _).symm⟩
  | cons event events ih =>
    obtain ⟨n, error⟩ := event
    obtain ⟨⟨_, d⟩, first, rest⟩ := Option.bind_eq_some_iff.mp ran
    obtain ⟨h, handler, here, installed⟩ := interrupt_served ready first
    obtain ⟨one, sent⟩ := interrupt_back ready here few installed (careful n handler installed) first
    obtain ⟨two, all⟩ := ih d rest
    refine ⟨one.trans two, ?_⟩
    rw [all, sent, List.append_assoc]
    rfl

/-- A vector with a stub, and with a handler that always comes back. -/
def Served (stubs : Stubs) (table : Handlers) (n : UInt8) : Prop :=
  (stubs.handler n).isSome ∧ ∃ handler, table n = some handler ∧ ∀ f d, (handler f d).isSome

theorem interrupt_returns (ready : Ready code table back stubs address idt mem)
    (careful : ∀ n handler, table n = some handler → Careful (23 + k) handler) {n : UInt8} (served : Served stubs table n)
    (c : Cpu) (error : UInt64) : ∃ c', interrupt ((idt_init stubs address idt).2.gate mem) code n error c = some ((), c') := by
  obtain ⟨stub, handler, installed, comes⟩ := served
  obtain ⟨h, here⟩ := Option.isSome_iff_exists.mp stub
  have back' : (interrupt ((idt_init stubs address idt).2.gate mem) code n error c).isSome := by
    rw [interrupt_eq ready here installed (careful n handler installed) c, Option.isSome_map]
    exact comes _ _
  obtain ⟨⟨_, c'⟩, ran⟩ := Option.isSome_iff_exists.mp back'
  exact ⟨c', ran⟩

theorem interrupts_return (ready : Ready code table back stubs address idt mem)
    (careful : ∀ n handler, table n = some handler → Careful (23 + k) handler) (events : List (UInt8 × UInt64))
    (served : ∀ event ∈ events, Served stubs table event.1) (c : Cpu) :
    (interrupts ((idt_init stubs address idt).2.gate mem) code events c).isSome := by
  induction events generalizing c with
  | nil => rfl
  | cons event events ih =>
    obtain ⟨n, error⟩ := event
    obtain ⟨d, ran⟩ := interrupt_returns ready careful (served (n, error) (.head _)) c error
    have both : interrupts ((idt_init stubs address idt).2.gate mem) code ((n, error) :: events) c =
        (interrupt ((idt_init stubs address idt).2.gate mem) code n error c).bind fun p =>
          interrupts ((idt_init stubs address idt).2.gate mem) code events p.2 := rfl
    rw [both, ran]
    exact ih (fun event member => served event (.tail _ member)) d

end

theorem served_tick : Served smallStubs (isr_register_handler 33 smallDriver handlers) 32 := ⟨rfl, _, rfl, fun _ _ => rfl⟩

theorem served_key : Served smallStubs (isr_register_handler 33 smallDriver handlers) 33 := ⟨rfl, _, rfl, fun _ _ => rfl⟩

end Extron.Isr
