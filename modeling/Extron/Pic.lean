import Extron.Isr

/-!
`pic.c`: the two interrupt controllers as the kernel programs them, and the kernel with them
under any sequence of requests by the timer and the keyboard. Each request that the controller
latched is handled once, and no acknowledgement is missing, so that a request never waits for a
line that is still in service (`requests_handled`).
-/
namespace Extron.Pic
open Extron.Pushes Extron.Idt Extron.Isr
set_option linter.unusedSimpArgs false

/-- What the next write to the data port is. -/
inductive Expects
  | mask | vectors | cascade | mode
deriving DecidableEq, Repr

/-- An 8259A. -/
structure Controller where
  expects : Expects
  /-- The last initialisation word is to come. -/
  fourth : Bool
  /-- The vector of its first line. -/
  base : UInt8
  cascade : UInt8
  mode : UInt8
  mask : UInt8
  requested : Fin 8 → Bool
  serviced : Fin 8 → Bool

structure Board where
  master : Controller
  slave : Controller

/-- Code that reads and writes the ports. -/
abbrev Ports := StateM Board

/-! ## The controllers -/

/-- A line that no line of its priority or above is in service for. -/
def Controller.ready (p : Controller) (i : Fin 8) : Bool :=
  p.requested i && !p.mask.toNat.testBit i.val && !(List.finRange 8).any fun j => j ≤ i && p.serviced j

/-- The line that is to be served next. -/
def Controller.next (p : Controller) : Option (Fin 8) := (List.finRange 8).find? p.ready

/-- The processor takes the interrupt of this line. -/
def Controller.take (p : Controller) (i : Fin 8) : Controller :=
  { p with requested := Function.update p.requested i false, serviced := Function.update p.serviced i true }

/-- The line of the highest priority is no longer in service. -/
def Controller.finish (p : Controller) : Controller :=
  match (List.finRange 8).find? p.serviced with
  | some i => { p with serviced := Function.update p.serviced i false }
  | none => p

/-- A write to the command port: the start of the initialisation, or the end of an interrupt.
    The kernel writes no other command. -/
def Controller.command (p : Controller) (v : UInt8) : Controller :=
  if v &&& 0x10 ≠ 0 then
    { p with expects := .vectors, fourth := v &&& 1 ≠ 0, mask := 0, requested := fun _ => false }
  else if v = 0x20 then p.finish
  else p

/-- A write to the data port, of two controllers in cascade. -/
def Controller.data (p : Controller) (v : UInt8) : Controller :=
  match p.expects with
  | .mask => { p with mask := v }
  | .vectors => { p with expects := .cascade, base := v &&& 0xF8 }
  | .cascade => { p with expects := if p.fourth then .mode else .mask, cascade := v }
  | .mode => { p with expects := .mask, mode := v }

/-- Another port, such as the one of `io_wait`, is not theirs. -/
def Board.write (b : Board) (port : UInt16) (v : UInt8) : Board :=
  if port = 0x20 then { b with master := b.master.command v }
  else if port = 0x21 then { b with master := b.master.data v }
  else if port = 0xA0 then { b with slave := b.slave.command v }
  else if port = 0xA1 then { b with slave := b.slave.data v }
  else b

def Board.writes (b : Board) (ws : List (UInt16 × UInt8)) : Board := ws.foldl (fun b w => b.write w.1 w.2) b

/-- The data port reads as the mask. -/
def Board.read (b : Board) (port : UInt16) : UInt8 := if port = 0x21 then b.master.mask else b.slave.mask

/-- The vector that the processor is given, and the controllers after that. A line of the
    master with the slave behind it has the vector of the slave, the last one if there is none. -/
def Board.acknowledge (b : Board) : Option (UInt8 × Board) :=
  b.master.next.map fun (i : Fin 8) =>
    if b.master.cascade.toNat.testBit i.val then
      match b.slave.next with
      | some j => (b.slave.base + UInt8.ofNat j.val, { master := b.master.take i, slave := b.slave.take j })
      | none => (b.slave.base + 7, { b with master := b.master.take i })
    else (b.master.base + UInt8.ofNat i.val, { b with master := b.master.take i })

/-! ## `pic.c` -/

def PIC1_DATA : UInt16 := 0x20 + 1
def PIC2_DATA : UInt16 := 0xA0 + 1
def ICW1_ICW4 : UInt8 := 0x01
def ICW1_INIT : UInt8 := 0x10
def ICW4_8086 : UInt8 := 0x01

def inb (port : UInt16) : Ports UInt8 := do return (← get).read port
def outb (port : UInt16) (value : UInt8) : Ports Unit := modify fun b => b.write port value
def io_wait : Ports Unit := outb 0x80 0

def pic_init : Ports Unit := do
  let a1 ← inb PIC1_DATA
  let a2 ← inb PIC2_DATA
  outb PIC1_COMMAND (ICW1_INIT ||| ICW1_ICW4)
  io_wait
  outb PIC2_COMMAND (ICW1_INIT ||| ICW1_ICW4)
  io_wait
  outb PIC1_DATA 32
  io_wait
  outb PIC2_DATA 40
  io_wait
  outb PIC1_DATA 4
  io_wait
  outb PIC2_DATA 2
  io_wait
  outb PIC1_DATA ICW4_8086
  io_wait
  outb PIC2_DATA ICW4_8086
  io_wait
  outb PIC1_DATA a1
  outb PIC2_DATA a2

/-- Whatever was programmed before, the lines have the vectors from 32 and from 40 on, with the
    masks that they had. Requests that were latched before are lost. -/
theorem pic_init_board (b : Board) : (pic_init b).2 =
    { master := { b.master with expects := .mask, fourth := true, base := 32, cascade := 4, mode := 1, requested := fun _ => false }
      slave := { b.slave with expects := .mask, fourth := true, base := 40, cascade := 2, mode := 1, requested := fun _ => false } } := rfl

/-! ## The kernel with its devices -/

structure System where
  cpu : Cpu
  board : Board
  /-- How often a line latched a request. -/
  latched : Fin 8 → Nat
  /-- The vectors that were handled. -/
  handled : List UInt8

inductive Event
  /-- A device on a line of the master. -/
  | request (i : Fin 8)
  /-- The processor looks for an interrupt, between two instructions. -/
  | poll
deriving DecidableEq, Repr

/-- RFLAGS.IF -/
def IF : UInt64 := 0x200

variable (gates : UInt8 → Option Gate) (code : UInt64 → Asm Unit)

/-- The interrupt that is taken, up to the code that it interrupted. The writes of its handler
    reach the controllers. -/
def System.serve (s : System) (n : UInt8) (b : Board) : Option System :=
  (interrupt gates code n 0 { s.cpu with ports := [] }).map fun p =>
    { s with cpu := p.2, board := b.writes p.2.ports, handled := s.handled ++ [n] }

def System.step (s : System) : Event → Option System
  | .request i =>
    some
      { s with
        board := { s.board with master := { s.board.master with requested := Function.update s.board.master.requested i true } }
        latched := if s.board.master.requested i then s.latched else Function.update s.latched i (s.latched i + 1) }
  | .poll =>
    if s.cpu.rflags &&& IF = 0 then some s
    else
      match s.board.acknowledge with
      | some (n, b) => s.serve gates code n b
      | none => some s

def System.run : List Event → System → Option System
  | [], s => some s
  | event :: events, s => (s.step gates code event).bind (System.run events)

/-! ## One controller -/

section
variable {p : Controller} {i j : Fin 8}

/-- A line that is not masked. -/
def Controller.Open (p : Controller) (i : Fin 8) : Prop := p.mask.toNat.testBit i.val = false

theorem ready_iff (quiet : p.serviced = fun _ => false) : p.ready i = true ↔ p.requested i = true ∧ p.Open i := by
  simp [Controller.ready, Controller.Open, quiet]

theorem next_some (quiet : p.serviced = fun _ => false) (here : p.next = some i) : p.requested i = true ∧ p.Open i :=
  (ready_iff quiet).mp (List.find?_some here)

theorem next_none (quiet : p.serviced = fun _ => false) (absent : p.next = none) (opened : p.Open i) : p.requested i = false := by
  by_contra requested
  exact List.find?_eq_none.mp absent i (List.mem_finRange i) ((ready_iff quiet).mpr ⟨by simpa using requested, opened⟩)

theorem first_only : ∀ i : Fin 8, (List.finRange 8).find? (Function.update (fun _ => false) i true) = some i := by decide

/-- With one line in service an acknowledgement ends it. -/
theorem finish_take (quiet : p.serviced = fun _ => false) :
    (p.take i).finish = { p with requested := Function.update p.requested i false } := by
  have first := first_only i
  simp only [Controller.finish, Controller.take, quiet]
  rw [first]
  dsimp only
  rw [Function.update_idem, Function.update_eq_self_iff.mpr rfl]

theorem vector_inj : ∀ i j : Fin 8, 32 + UInt8.ofNat i.val = 32 + UInt8.ofNat j.val → i = j := by decide

end

/-! ## Runs -/

section
variable {gates code}

/-- What holds between two events, for a kernel that was in this state when its controllers had
    been programmed with this mask. -/
structure Sound (k : Nat) (cpu : Cpu) (mask : UInt8) (s : System) : Prop where
  kept : Kept k cpu s.cpu
  base : s.board.master.base = 32
  cascade : s.board.master.cascade = 4
  mask : s.board.master.mask = mask
  quiet : s.board.master.serviced = fun _ => false
  lines : ∀ i, s.board.master.requested i = true → s.board.master.Open i → i = 0 ∨ i = 1
  conserved : ∀ i, s.handled.count (32 + UInt8.ofNat i.val) + (s.board.master.requested i).toNat = s.latched i

variable {back : UInt64} {k : Nat} {table : Handlers} {stubs : Stubs} {idt : Table} {address : UInt64} {mem : UInt64 → UInt8}
  {cpu : Cpu} {mask : UInt8} {s s' : System} {i j : Fin 8}

theorem sound_request (sound : Sound k cpu mask s) (harmless : s.board.master.Open i → i = 0 ∨ i = 1) :
    ∃ s', s.step gates code (.request i) = some s' ∧ Sound k cpu mask s' := by
  refine ⟨_, rfl, sound.kept, sound.base, sound.cascade, sound.mask, sound.quiet, fun j requested opened => ?_, fun j => ?_⟩
  · by_cases same : j = i
    · subst same
      exact harmless opened
    · exact sound.lines j ((Function.update_of_ne same ..).symm.trans requested) opened
  · have before := sound.conserved j
    dsimp only
    by_cases same : j = i
    · subst same
      cases was : s.board.master.requested j with
      | true => simpa [was] using before
      | false => simpa [was] using before
    · rw [Function.update_of_ne same]
      split
      · exact before
      · rw [Function.update_of_ne same]
        exact before

/-- What an interrupt of a line below 2 sends ends it. -/
theorem writes_eoi (b : Board) : b.writes [(PIC1_COMMAND, PIC_EOI)] = { b with master := b.master.finish } := rfl

theorem sound_poll (ready : Ready code table back stubs address idt mem) (few : k + 23 ≤ places)
    (careful : ∀ n handler, table n = some handler → Careful (23 + k) handler) (timer : Served stubs table 32) (keyboard : Served stubs table 33)
    (on : cpu.rflags &&& IF ≠ 0) (sound : Sound k cpu mask s) :
    ∃ s', s.step ((idt_init stubs address idt).2.gate mem) code .poll = some s' ∧ Sound k cpu mask s' ∧
      ((∀ i, s.board.master.Open i → s.board.master.requested i = false) ∧ s' = s ∨
        ∃ j, s.board.master.Open j ∧ s.board.master.requested j = true ∧
          s'.board.master.requested = Function.update s.board.master.requested j false) := by
  have flags : s.cpu.rflags &&& IF ≠ 0 := by
    rw [sound.kept.rflags]
    exact on
  cases next : s.board.master.next with
  | none =>
    refine ⟨s, ?_, sound, .inl ⟨fun i opened => next_none sound.quiet next opened, rfl⟩⟩
    rw [System.step, if_neg flags, Board.acknowledge, next]
    rfl
  | some j =>
    obtain ⟨requested, opened⟩ := next_some sound.quiet next
    have device := sound.lines j requested opened
    have vector : s.board.acknowledge = some (32 + UInt8.ofNat j.val, { s.board with master := s.board.master.take j }) := by
      rw [Board.acknowledge, next, Option.map_some, sound.cascade, sound.base]
      obtain rfl | rfl := device
      · rfl
      · rfl
    have served : Served stubs table (32 + UInt8.ofNat j.val) := by
      obtain rfl | rfl := device
      · exact timer
      · exact keyboard
    obtain ⟨c', ran⟩ := interrupt_returns ready careful served { s.cpu with ports := [] } 0
    obtain ⟨stub, handler, installed, _⟩ := served
    obtain ⟨h, here⟩ := Option.isSome_iff_exists.mp stub
    obtain ⟨kept, sent⟩ := interrupt_back ready here few installed (careful _ handler installed) ran
    have eoi : c'.ports = [(PIC1_COMMAND, PIC_EOI)] := by
      rw [sent]
      obtain rfl | rfl := device
      · rfl
      · rfl
    have final : s.step ((idt_init stubs address idt).2.gate mem) code .poll = some
        { s with
          cpu := c'
          board := { s.board with
            master := { s.board.master with requested := Function.update s.board.master.requested j false } }
          handled := s.handled ++ [32 + UInt8.ofNat j.val] } := by
      rw [System.step, if_neg flags, vector]
      dsimp only
      rw [System.serve, ran, Option.map_some, eoi, writes_eoi]
      dsimp only
      rw [finish_take sound.quiet]
    refine ⟨_, final, ⟨?_, sound.base, sound.cascade, sound.mask, sound.quiet, fun i asked => ?_, fun i => ?_⟩, .inr ⟨j, opened, requested, rfl⟩⟩
    · exact sound.kept.trans ⟨kept.regs, kept.rip, kept.rflags, kept.cs, kept.ss, kept.pointer, kept.words⟩
    · have asked' : s.board.master.requested i = true := by
        by_cases same : i = j
        · rw [same]
          exact requested
        · exact (Function.update_of_ne same ..).symm.trans asked
      exact sound.lines i asked'
    · have before := sound.conserved i
      dsimp only
      rw [List.count_append, List.count_singleton]
      by_cases same : i = j
      · subst same
        rw [requested] at before
        simpa using before
      · have other : (32 + UInt8.ofNat j.val == 32 + UInt8.ofNat i.val) = false :=
          beq_eq_false_iff_ne.mpr fun equal => same (vector_inj j i equal).symm
        rw [Function.update_of_ne same, other]
        exact before

/-- Devices on other lines are silent or masked. -/
def Harmless (mask : UInt8) (events : List Event) : Prop :=
  ∀ i : Fin 8, Event.request i ∈ events → mask.toNat.testBit i.val = false → i = 0 ∨ i = 1

theorem sound_run (ready : Ready code table back stubs address idt mem) (few : k + 23 ≤ places)
    (careful : ∀ n handler, table n = some handler → Careful (23 + k) handler) (timer : Served stubs table 32) (keyboard : Served stubs table 33)
    (on : cpu.rflags &&& IF ≠ 0) (events : List Event) (harmless : Harmless mask events) (sound : Sound k cpu mask s) :
    ∃ s', s.run ((idt_init stubs address idt).2.gate mem) code events = some s' ∧ Sound k cpu mask s' := by
  induction events generalizing s with
  | nil => exact ⟨s, rfl, sound⟩
  | cons event events ih =>
    have rest : Harmless mask events := fun i member => harmless i (.tail _ member)
    obtain ⟨d, step, sound'⟩ : ∃ d, s.step ((idt_init stubs address idt).2.gate mem) code event = some d ∧ Sound k cpu mask d := by
      cases event with
      | request i =>
        refine sound_request sound fun opened => harmless i (.head _) ?_
        rw [← sound.mask]
        exact opened
      | poll =>
        obtain ⟨d, step, sound', _⟩ := sound_poll ready few careful timer keyboard on sound
        exact ⟨d, step, sound'⟩
    obtain ⟨s', ran, sound''⟩ := ih rest sound'
    refine ⟨s', ?_, sound''⟩
    rw [System.run, step]
    exact ran

/-- Two looks are enough for the two lines. -/
theorem sound_drained (ready : Ready code table back stubs address idt mem) (few : k + 23 ≤ places)
    (careful : ∀ n handler, table n = some handler → Careful (23 + k) handler) (timer : Served stubs table 32) (keyboard : Served stubs table 33)
    (on : cpu.rflags &&& IF ≠ 0) (sound : Sound k cpu mask s) :
    ∃ s', s.run ((idt_init stubs address idt).2.gate mem) code [.poll, .poll] = some s' ∧
      ∀ i, s'.board.master.Open i → s'.board.master.requested i = false := by
  obtain ⟨s₁, first, sound₁, took₁⟩ := sound_poll ready few careful timer keyboard on sound
  obtain ⟨s₂, second, sound₂, took₂⟩ := sound_poll ready few careful timer keyboard on sound₁
  have ran : s.run ((idt_init stubs address idt).2.gate mem) code [.poll, .poll] = some s₂ := by
    rw [System.run, first, Option.bind_some, System.run, second]
    rfl
  refine ⟨s₂, ran, fun i opened => ?_⟩
  have open₁ : s₁.board.master.Open i := by
    rw [Controller.Open, sound₁.mask, ← sound₂.mask]
    exact opened
  obtain ⟨none₂, rfl⟩ | ⟨j, openj, askedj, cleared⟩ := took₂
  · exact none₂ i opened
  · by_contra still
    have asked₂ : s₂.board.master.requested i = true := by simpa using still
    have other : i ≠ j := by
      rintro rfl
      rw [cleared, Function.update_self] at asked₂
      cases asked₂
    have asked₁ : s₁.board.master.requested i = true := by
      rw [cleared, Function.update_of_ne other] at asked₂
      exact asked₂
    obtain ⟨none₁, rfl⟩ | ⟨l, openl, askedl, cleared₁⟩ := took₁
    · exact Bool.noConfusion ((none₁ i open₁).symm.trans asked₁)
    · -- a third line would have to be open
      have apart {m : Fin 8} (asked : s₁.board.master.requested m = true) : m ≠ l := by
        rintro rfl
        rw [cleared₁, Function.update_self] at asked
        cases asked
      have linei := sound₁.lines i asked₁ open₁
      have linej := sound₁.lines j askedj openj
      have linel := sound.lines l askedl openl
      have ni := apart asked₁
      have nj := apart askedj
      omega

end

/-- The kernel with its controllers just programmed. -/
def programmed (cpu : Cpu) (b : Board) : System := ⟨cpu, (pic_init b).2, fun _ => 0, []⟩

theorem sound_programmed (k : Nat) (cpu : Cpu) (b : Board) (quiet : b.master.serviced = fun _ => false) :
    Sound k cpu b.master.mask (programmed cpu b) where
  kept := .refl k cpu
  base := congrArg (·.master.base) (pic_init_board b)
  cascade := congrArg (·.master.cascade) (pic_init_board b)
  mask := congrArg (·.master.mask) (pic_init_board b)
  quiet := quiet
  lines := by
    rintro i ⟨⟩
  conserved := fun _ => rfl

/-- From the controllers as `pic_init` leaves them, whatever they were, and over any sequence of
    requests and looks, the kernel comes through. The code that runs is as it was, no line
    stays in service, and each request that a line latched was handled once or still waits;
    with two looks more no open line has one waiting. -/
theorem requests_handled {back : UInt64} {k : Nat} {table : Handlers} {stubs : Stubs} {idt : Table} {address : UInt64}
    {mem : UInt64 → UInt8} {code : UInt64 → Asm Unit} (ready : Ready code table back stubs address idt mem) (few : k + 23 ≤ places)
    (careful : ∀ n handler, table n = some handler → Careful (23 + k) handler) (timer : Served stubs table 32) (keyboard : Served stubs table 33)
    (cpu : Cpu) (on : cpu.rflags &&& IF ≠ 0) (b : Board) (quiet : b.master.serviced = fun _ => false) (events : List Event)
    (harmless : Harmless b.master.mask events) :
    ∃ s, (programmed cpu b).run ((idt_init stubs address idt).2.gate mem) code events = some s ∧
      Kept k cpu s.cpu ∧ s.board.master.mask = b.master.mask ∧ (∀ i, s.board.master.serviced i = false) ∧
      (∀ i : Fin 8, s.handled.count (32 + UInt8.ofNat i.val) + (s.board.master.requested i).toNat = s.latched i) ∧
      ∃ s', s.run ((idt_init stubs address idt).2.gate mem) code [.poll, .poll] = some s' ∧
        ∀ i, s'.board.master.Open i → s'.board.master.requested i = false := by
  obtain ⟨s, ran, sound⟩ := sound_run ready few careful timer keyboard on events harmless (sound_programmed k cpu b quiet)
  have drained := sound_drained ready few careful timer keyboard on sound
  exact ⟨s, ran, sound.kept, sound.mask, fun i => congrFun sound.quiet i, sound.conserved, drained⟩

/-- A controller in the middle of its initialisation, with this mask. -/
def smallController (mask : UInt8) : Controller := ⟨.cascade, false, 8, 0, 0, mask, fun _ => true, fun _ => false⟩

/-- The mask of the master leaves the timer, the keyboard, the cascade and line 6 open. -/
def smallBoard : Board := ⟨smallController 0xB8, smallController 0x8F⟩

/-- Two ticks for one that was latched, a key, and a masked line. -/
def smallEvents : List Event := [.request 0, .request 0, .request 1, .poll, .request 0, .request 7, .poll]

theorem harmless_small : Harmless 0xB8 smallEvents := by
  intro i member opened
  simp only [smallEvents, List.mem_cons, Event.request.injEq, reduceCtorEq, List.not_mem_nil, or_false, false_or] at member
  obtain rfl | rfl | rfl | rfl | rfl := member
  · exact .inl rfl
  · exact .inl rfl
  · exact .inr rfl
  · exact .inl rfl
  · cases opened

theorem requests_handled_small : ∃ s, (programmed smallCpu smallBoard).run smallGates (smallCode smallDriver) smallEvents = some s ∧
    Kept 4 smallCpu s.cpu ∧ s.board.master.mask = 0xB8 ∧ (∀ i, s.board.master.serviced i = false) ∧
    (∀ i : Fin 8, s.handled.count (32 + UInt8.ofNat i.val) + (s.board.master.requested i).toNat = s.latched i) ∧
    ∃ s', s.run smallGates (smallCode smallDriver) [.poll, .poll] = some s' ∧
      ∀ i, s'.board.master.Open i → s'.board.master.requested i = false :=
  requests_handled ready_small (by norm_num [places]) (careful_register (fun _ _ => careful_handlers) careful_small) served_tick served_key
    smallCpu (by decide) smallBoard rfl smallEvents harmless_small

end Extron.Pic
