import MegaOS.Boot.Start
import MegaOS.Interrupts.Eoi
import MegaOS.Interrupts.Idt

/-!
# The whole kernel

`_start` to its last loop, step by step, with the interrupt controllers beside it:
each access of their ports is a step, and so are `serial::init` as a whole and each
character that is sent. The controllers request an interrupt when a line is raised
that is neither masked nor held back by one in service; the processor takes it when
its interrupt flag is set. Exceptions come at any point at which the kernel's table
of gates is in force.

Every gate is an interrupt gate: a handler starts with the flag clear, and the
return restores the flag of the code that was interrupted.
-/

namespace MegaOS.Kernel

open MegaOS.Memory MegaOS.Log MegaOS.Assembly MegaOS.Pic8259 MegaOS.Pic MegaOS.Interrupts MegaOS.Boot
  MegaOS.Runs

/-! ### The program -/

inductive Step
  /-- A step of `_start` or a handler that leaves the controllers alone. -/
  | plain (st : Boot.Step)
  /-- `cpu::io::inb`, into a local byte. -/
  | inb (port : BitVec 16)
  /-- `cpu::io::outb`, of a value computed from that byte. -/
  | outb (port : BitVec 16) (value : Byte → Byte)
  /-- `interrupts::enable` -/
  | sti

def plain (steps : List Boot.Step) : List Step := steps.map .plain

/-- Steps of the log. -/
def ops (os : List Op) : List Step := plain (os.map .op)

/-- `cpu::io::wait` -/
def waitStep : Step := .outb 0x80 fun _ => 0

/-- `pic::remap_pic`; the mask is the local byte. -/
def remapPicSteps (commandPort dataPort : BitVec 16) (picOffset : Byte) : List Step :=
  let icw3 : Byte := if commandPort = mpicCommand then 0x4 else 0x2
  [.inb dataPort, .outb commandPort fun _ => cmdInit ||| cmdIcw4, waitStep,
    .outb dataPort fun _ => picOffset, waitStep,
    .outb dataPort fun _ => icw3, waitStep,
    .outb dataPort fun _ => 0x1, waitStep,
    .outb dataPort fun imr => imr]

/-- `pic::remap` -/
def remapSteps (mpicOffset spicOffset : Byte) : List Step :=
  remapPicSteps mpicCommand mpicData mpicOffset ++ (remapPicSteps spicCommand spicData spicOffset ++
    plain (remapMessage mpicOffset spicOffset))

/-- `pic::clear_irq_mask` -/
def clearIrqMaskSteps (irq : Byte) : List Step :=
  [.inb (dataPort irq), .outb (dataPort irq) fun b => (b.setWidth 32 &&& ~~~bitOf irq).setWidth 8]

/-- `_start` from the remapping of the controllers on. -/
def enableSteps : List Step :=
  remapSteps 32 40 ++ (clearIrqMaskSteps 1 ++
    .sti :: plain (logged ((dputs (some (cstr "Interrupts enabled"))).map Prod.snd) ++ [.forever]))

/-- `_start` -/
def startProgram (m : Mem) (bootInfo : Addr) (extent : ℕ) (gdtTable idtTable : Addr) : List Step :=
  plain (assertBootInfo bootInfo) ++ .plain .initOrHalt :: (plain (printBanner m bootInfo extent) ++
    (plain (gdtInstall gdtTable) ++ (plain (idtInstallSteps idtTable) ++ enableSteps)))

/-- The steps of one effect of a dispatcher, the port writes of an end of interrupt included. -/
def effectProgram (c : Callee) (keyUp code : Byte) : Effect Handler → Option (Byte × List Step)
  | .sendEoi irqNo => some (keyUp, (sendEoi irqNo).map fun w => .outb w.1 fun _ => w.2)
  | e => (effectSteps c keyUp code e).map fun r => (r.1, ops r.2)

def effectsProgram (c : Callee) (code : Byte) :
    Byte → List (Effect Handler) → Option (Byte × List Step)
  | keyUp, [] => some (keyUp, [])
  | keyUp, e :: es => do
    let (keyUp, steps) ← effectProgram c keyUp code e
    let (keyUp, steps') ← effectsProgram c code keyUp es
    some (keyUp, steps ++ steps')

/-- A C++ handler called with the frame `f`. -/
def handlerProgram (beyond : ℕ → Option Handler) (c : Callee) (f : InterruptFrame)
    (keyUp code : Byte) : Option (Byte × List Step) :=
  effectsProgram c code keyUp (dispatch (installedHandlers beyond) (fun _ => true) c (some f))

/-! ### Interrupt requests -/

/-- What the controllers pass on: a line, or a spurious interrupt of one of the chips, which comes
on the vector of the chip's last input and puts nothing in service there. -/
inductive Request
  | line (k : Fin 16)
  | spuriousMaster
  | spuriousSlave
  deriving DecidableEq

/-- The line whose vector is delivered. -/
def Request.vectorLine : Request → Fin 16
  | .line k => k
  | .spuriousMaster => 7
  | .spuriousSlave => 15

/-- A line's own mask bit is clear, and for the second chip that of the cascade. -/
def Unmasked (p : Pair) (k : Fin 16) : Bool :=
  if k.val < 8 then !p.master.imr.getLsbD k
  else !p.slave.imr.getLsbD (k - 8) && !p.master.imr.getLsbD 2

/-- The controllers may pass the request on. The second chip is heard through input 2 of the
first. -/
def Request.Possible (p : Pair) : Request → Prop
  | .line k => Unmasked p k = true ∧ p.Accepts k
  | .spuriousMaster => True
  | .spuriousSlave => p.master.imr.getLsbD 2 = false ∧ ∀ j, j ≤ 2 → p.master.isr.getLsbD j = false

instance (p : Pair) (r : Request) : Decidable (r.Possible p) :=
  match r with
  | .line k => inferInstanceAs (Decidable (_ ∧ p.Accepts k))
  | .spuriousMaster => isTrue trivial
  | .spuriousSlave => decidable_of_iff
      (p.master.imr.getLsbD 2 = false ∧ ∀ j, j < 2 + 1 → p.master.isr.getLsbD j = false)
      (by simp only [Request.Possible, Nat.lt_succ_iff])

/-- The in-service bits the acknowledge sets. -/
def Request.acknowledge (p : Pair) : Request → Pair
  | .line k => p.acknowledge k
  | .spuriousMaster => p
  | .spuriousSlave => { p with master := { p.master with isr := p.master.isr ||| masterBits 15 } }

/-! ### The machine -/

/-- A handler in progress: what it was entered for, its frame, and what it has still to do. -/
structure Active where
  request : Option Request
  frame : InterruptFrame
  steps : List Step

/-- `lost` is set when control leaves the kernel: an interrupt taken through a table of gates that
is not the kernel's, or through a gate that is not an IRQ's. -/
structure State where
  console : Console
  keyUp : Byte
  pics : Pair
  idtInForce : Bool
  interruptFlag : Bool
  lost : Bool
  /-- What `_start` has still to do. -/
  thread : List Step
  /-- The byte its last port read returned. -/
  byte : Byte
  /-- The innermost first. -/
  handlers : List Active

inductive Event
  /-- The running code does its next step. -/
  | resume
  /-- The processor takes an interrupt request in the state `cpu`; the keyboard's data port holds
  `code`. -/
  | irq (r : Request) (cpu : Cpu) (code : Byte)
  /-- An exception on vector `v`, with the error code `e` if the vector has one. -/
  | exception (v : Fin 32) (e : Word) (cpu : Cpu)
  /-- The innermost handler returns. -/
  | finish

/-- IF, bit 9 of RFLAGS. -/
def interruptFlagOf (rflags : Word) : Bool := rflags.getLsbD 9

section System

variable (b : BootMemory) (serialInit : Bool) (beyond : ℕ → Option Handler) (addr : Label → Addr)

/-- One step: the state after it, and what is to be done before the rest. A halted processor stays
so, with interrupts off. -/
def perform (s : State) : Step → Option (State × List Step)
  | .plain (.op .halt) =>
    some ({ s with console := s.console.exec .halt, interruptFlag := false }, ops [.halt])
  | .plain (.op o) => some ({ s with console := s.console.exec o }, [])
  | .plain .initOrHalt =>
    (init serialInit b.mem b.bootInfo (b.tags.length + 1) s.console.write).map fun r =>
      ({ s with console := { s.console with write := r.2 } }, if r.1 then [] else ops [.halt])
  | .plain .loadIdt => some ({ s with idtInForce := true }, [])
  | .plain .forever => some (s, plain [.forever])
  | .inb port => some ({ s with byte := s.pics.inb port }, [])
  | .outb port value => some ({ s with pics := s.pics.outb port (value s.byte) }, [])
  | .sti => some ({ s with interruptFlag := true }, [])

/-- The stub of vector `v` calls its handler. -/
def enter (s : State) (request : Option Request) (v : ℕ) (e : Word) (cpu : Cpu) (code : Byte) :
    Option State := do
  let (c, frame) ← frameAtCall cpu (kernelCs.setWidth 64) (addr (stubOf v)) v e
  let (keyUp, steps) ← handlerProgram beyond c frame s.keyUp code
  some { s with
    keyUp := keyUp
    interruptFlag := false
    handlers := ⟨request, frame, steps⟩ :: s.handlers }

def step (s : State) : Event → Option State
  | .resume =>
    match s.handlers with
    | a :: outer =>
      match a.steps with
      | [] => none
      | st :: rest => (perform b serialInit s st).map fun r =>
          { r.1 with handlers := { a with steps := r.2 ++ rest } :: outer }
    | [] =>
      match s.thread with
      | [] => none
      | st :: rest => (perform b serialInit s st).map fun r => { r.1 with thread := r.2 ++ rest }
  | .irq r cpu code =>
    if s.interruptFlag ∧ interruptFlagOf cpu.rflags = true ∧ r.Possible s.pics then
      let v := (s.pics.vectorOf r.vectorLine).toNat
      if s.idtInForce ∧ 32 ≤ v ∧ v < 255 then
        enter beyond addr { s with pics := r.acknowledge s.pics } (some r) v 0 cpu code
      else some { s with lost := true }
    else none
  | .exception v e cpu =>
    if s.idtInForce ∧ interruptFlagOf cpu.rflags = s.interruptFlag then
      enter beyond addr s none v e cpu 0
    else none
  | .finish =>
    match s.handlers with
    | a :: outer =>
      if a.steps.isEmpty then
        some { s with interruptFlag := interruptFlagOf a.frame.rflags, handlers := outer }
      else none
    | [] => none

def machine : Machine State Event := ⟨step b serialInit beyond addr⟩

end System

/-- The controllers as a boot loader may leave them: operational, with nothing in service. -/
structure BootPics where
  pair : Pair
  operational : pair.Operational
  masterIdle : pair.master.isr = 0
  slaveIdle : pair.slave.isr = 0

/-- All lines masked. -/
def maskedPics : BootPics :=
  ⟨⟨⟨0xFF, 0, 0, 0, 0, 0, .ready⟩, ⟨0xFF, 0, 0, 0, 0, 0, .ready⟩⟩, ⟨rfl, rfl⟩, rfl, rfl⟩

/-- Where `_start` begins, with interrupts off. -/
def start (b : BootMemory) (pics : BootPics) (keyUp byte : Byte) (extent : ℕ)
    (gdtTable idtTable : Addr) : State where
  console := ⟨0, false, false, []⟩
  keyUp := keyUp
  pics := pics.pair
  idtInForce := false
  interruptFlag := false
  lost := false
  thread := startProgram b.mem b.bootInfo extent gdtTable idtTable
  byte := byte
  handlers := []

/-! ### Handlers -/

/-- The port writes of an end of interrupt. -/
def eoiSteps (irqNo : Byte) : List Step := (sendEoi irqNo).map fun w => .outb w.1 fun _ => w.2

theorem ops_append (os os' : List Op) : ops (os ++ os') = ops os ++ ops os' := by
  rw [ops, List.map_append, plain, List.map_append]
  rfl

theorem effectProgram_of_no_eoi {e : Effect Handler} (he : ∀ b, e ≠ .sendEoi b) (c : Callee)
    (keyUp code : Byte) :
    effectProgram c keyUp code e =
      (effectSteps c keyUp code e).map fun r => (r.1, ops r.2) := by
  cases e with
  | sendEoi b => exact absurd rfl (he b)
  | _ => rfl

/-- Without an end of interrupt, a handler's program is the log's steps. -/
theorem effectsProgram_of_no_eoi {c : Callee} {code : Byte} {es : List (Effect Handler)}
    (hes : ∀ b, Effect.sendEoi b ∉ es) (keyUp : Byte) :
    effectsProgram c code keyUp es =
      (effectsSteps c code keyUp es).map fun r => (r.1, ops r.2) := by
  induction es generalizing keyUp with
  | nil => rfl
  | cons e es ih =>
    have hone := effectProgram_of_no_eoi (fun b h => hes b (h ▸ List.mem_cons_self)) c keyUp code
    have hrest := ih fun b hb => hes b (List.mem_cons_of_mem e hb)
    rw [effectsProgram, effectsSteps, hone]
    cases effectSteps c keyUp code e with
    | none => rfl
    | some r =>
      simp only [Option.map_some, Option.bind_eq_bind, Option.bind_some, hrest r.1]
      cases effectsSteps c code r.1 es with
      | none => rfl
      | some r' => exact congrArg (fun l => some (r'.1, l)) (ops_append r.2 r'.2).symm

/-- **An exception's handler** logs, and halts. -/
theorem handlerProgram_exception (beyond : ℕ → Option Handler) (f : InterruptFrame)
    (keyUp code : Byte) : ∃ dump ms, handlerProgram beyond .cpuExceptionHandler f keyUp code =
      some (keyUp, ops (messages ((.host, dump) :: ms) ++ [.halt])) := by
  obtain ⟨dump, ms, h⟩ :=
    interruptSteps_halts beyond (f := f) (c := .cpuExceptionHandler) keyUp code (.inl rfl)
  have hno : ∀ b, Effect.sendEoi b ∉
      dispatch (installedHandlers beyond) (fun _ => true) .cpuExceptionHandler (some f) := by
    intro b hb
    simp only [dispatch, cpuExceptionHandler, kpanicEffects] at hb
    repeat' split at hb
    all_goals simp at hb
  refine ⟨dump, ms, ?_⟩
  rw [handlerProgram, effectsProgram_of_no_eoi hno]
  rw [interruptSteps] at h
  rw [h]
  rfl

/-- **An IRQ's handler** logs what the interrupt logs, and ends the interrupt. -/
theorem handlerProgram_irq (beyond : ℕ → Option Handler) {f : InterruptFrame}
    (hf : isIrqInterrupt f.intNo = true) (keyUp code : Byte) :
    handlerProgram beyond .irqInterruptHandler f keyUp code =
      (interruptSteps beyond .irqInterruptHandler f keyUp code).map fun r =>
        (r.1, ops r.2 ++ eoiSteps (f.intNo.setWidth 8)) := by
  cases hread : (installedHandlers beyond).read f.intNo.toNat with
  | none =>
    simp only [handlerProgram, interruptSteps, dispatch, irqInterruptHandler, hf, hread,
      not_true_eq_false, if_false, effectsProgram, effectProgram, effectsSteps, effectSteps,
      Option.map_some, Option.map_map, Option.bind_eq_bind, Option.bind_some]
    cases dprintf (cstr "IRQ %d received but has no handler\n") [⟨f.intNo, []⟩] with
    | none => rfl
    | some r => simp [ops, plain, eoiSteps]
  | some h =>
    cases h with
    | keyboard =>
      simp only [handlerProgram, interruptSteps, dispatch, irqInterruptHandler, hf, hread,
        not_true_eq_false, if_false, if_true, effectsProgram, effectProgram, effectsSteps,
        effectSteps, Option.map_some, Option.bind_eq_bind, Option.bind_some]
      cases Keyboard.irqHandler keyUp code with
      | none => rfl
      | some r => simp [ops, plain, eoiSteps]

end MegaOS.Kernel
