import MegaOS.Devices.Keyboard
import MegaOS.Interrupts.Dispatch
import MegaOS.Log.Directive

/-!
# What interrupts log

The steps of the log an interrupt takes, from the dispatcher to the last
function it calls: the keyboard's handler, the message about an IRQ without
handler, a failed assertion, a panic with its dumps.

`isr::install` clears the handler table and enters the keyboard's handler for
vector 33.
-/

namespace MegaOS.Interrupts

open MegaOS.Memory MegaOS.Log MegaOS.Keyboard

/-- The functions the kernel enters in the table. -/
inductive Handler
  /-- `ps2::keyboard::controller::irq_handler` -/
  | keyboard
  deriving DecidableEq

/-- `handlers` after `isr::install`. -/
def installedHandlers (beyond : ℕ → Option Handler) : HandlerTable Handler :=
  ⟨fun i => if i.val = 33 then some .keyboard else none, beyond⟩

/-! ### `assertion_failed` and `kpanic` -/

/-- `RED` -/
def red : String := "\x1b[31m"

def str (s : String) : Arg := ⟨0, cstr s⟩

/-- `assertion_failed(expr_string, file, line)` -/
def assertionFailed (expr file : String) (line : Word) : Option (List Op) := do
  let r ← dprintf (cstr (red ++ "Assertion failed: %s at %s, line %d"))
    [str expr, str file, ⟨line, []⟩]
  some (r.2 ++ [.halt])

/-- `kpanic(cause)` -/
def kpanicCause (cause : String) : Option (List Op) := do
  let screen ← kputs (some (cstr (red ++ "KERNEL PANIC OCCURED, CHECK LOGS ON HOST MACHINE !")))
  let last ← dprintf (cstr (red ++ "KERNEL PANIC: %s\n")) [str cause]
  some (screen.2 ++ (last.2 ++ [.halt]))

def registersFormat : String :=
  "General Purpose Registers:\n" ++
  "\t- rax = %#lX\n" ++
  "\t- rbx = %#lX\n" ++
  "\t- rcx = %#lX\n" ++
  "\t- rdx = %#lX\n" ++
  "\t- rbp = %#lX\n" ++
  "\t- rdi = %#lX\n" ++
  "\t- rsi = %#lX\n" ++
  "\t- r8  = %#lX\n" ++
  "\t- r9  = %#lX\n" ++
  "\t- r10 = %#lX\n" ++
  "\t- r11 = %#lX\n" ++
  "\t- r12 = %#lX\n" ++
  "\t- r13 = %#lX\n" ++
  "\t- r14 = %#lX\n" ++
  "\t- r15 = %#lX\n\n"

def registersArgs (r : Registers) : List Arg :=
  [r.rax, r.rbx, r.rcx, r.rdx, r.rbp, r.rdi, r.rsi, r.r8, r.r9, r.r10, r.r11, r.r12, r.r13, r.r14,
    r.r15].map fun w => ⟨w, []⟩

/-- `kpanic(cause, registers*)` -/
def kpanicRegisters (cause : String) : Option Registers → Option (List Op)
  | none => kpanicCause cause
  | some r => do
    let dump ← dprintf (cstr registersFormat) (registersArgs r)
    let rest ← kpanicCause cause
    some (dump.2 ++ rest)

def frameFormat : String :=
  "Interrupt Stack Frame:\n" ++
  "\t- err_code = %d\n" ++
  "\t- int_no   = %d\n" ++
  "\t- rip      = %#lX\n" ++
  "\t- cs       = %#lX\n" ++
  "\t- rflags   = %#lX\n" ++
  "\t- rsp      = %#lX\n" ++
  "\t- ss       = %#lX\n\n"

def frameArgs (f : InterruptFrame) : List Arg :=
  [f.errCode, f.intNo, f.rip, f.cs, f.rflags, f.rsp, f.ss].map fun w => ⟨w, []⟩

/-- "Interrupt description", for exceptions. -/
def describe (f : InterruptFrame) : Option (List Op) :=
  if isCpuException f.intNo then
    (dprintf (cstr "Interrupt description: %s\n") [str (exceptionDesc.getD f.intNo.toNat "")]).map
      Prod.snd
  else some []

/-- `kpanic(cause, interrupt_frame*)` -/
def kpanicFrame (cause : String) : Option InterruptFrame → Option (List Op)
  | none => kpanicRegisters cause none
  | some f => do
    let dump ← dprintf (cstr frameFormat) (frameArgs f)
    let description ← describe f
    let rest ← kpanicRegisters cause (some f.gprs)
    some (dump.2 ++ (description ++ rest))

/-! ### An interrupt -/

/-- `__LINE__` of an assertion of the dispatchers. -/
def assertLine : Callee → String → Word
  | .cpuExceptionHandler, expr => if expr = "frame" then 125 else 126
  | .irqInterruptHandler, expr => if expr = "frame" then 144 else 145

/-- The steps of one effect of a dispatcher. `keyUp` is the keyboard's `key_up`, `code` what its
data port holds. -/
def effectSteps (c : Callee) (keyUp code : Byte) : Effect Handler → Option (Byte × List Op)
  | .access _ _ => some (keyUp, [])
  | .assertionFailed expr =>
    (assertionFailed expr "./arch/x86_64/interrupts.cpp" (assertLine c expr)).map (keyUp, ·)
  | .kpanic cause f => (kpanicFrame cause (some f)).map (keyUp, ·)
  | .callHandler .keyboard _ => irqHandler keyUp code
  | .logUnhandled intNo =>
    (dprintf (cstr "IRQ %d received but has no handler\n") [⟨intNo, []⟩]).map fun r => (keyUp, r.2)
  | .sendEoi _ => some (keyUp, [])

def effectsSteps (c : Callee) (code : Byte) : Byte → List (Effect Handler) → Option (Byte × List Op)
  | keyUp, [] => some (keyUp, [])
  | keyUp, e :: es => do
    let (keyUp, ops) ← effectSteps c keyUp code e
    let (keyUp, ops') ← effectsSteps c code keyUp es
    some (keyUp, ops ++ ops')

/-- The steps of the log in an interrupt whose stub calls `c` with the frame `f`. -/
def interruptSteps (beyond : ℕ → Option Handler) (c : Callee) (f : InterruptFrame)
    (keyUp code : Byte) : Option (Byte × List Op) :=
  effectsSteps c code keyUp (dispatch (installedHandlers beyond) (fun _ => true) c (some f))

/-! ### The messages are well formed -/

/-- A message to the host on a complete format with matching arguments. -/
theorem dprintf_of_matches {items : List Item} {va : List Arg} (h : Matches items va) :
    ∃ r text, dprintf (formatBytes items) va = some (r, callShape .host text) := by
  obtain ⟨r, hr⟩ := internalVsnprintf_of_matches
    (outChar fun c ops => ops ++ [Op.putchar .host c]) sizeMax h []
  have hcall : dprintf (formatBytes items) va =
      some (r.1, .setSerial true :: (r.2 ++ [.setSerial false])) := by
    rw [dprintf, printfFor, hr]
    rfl
  obtain ⟨text, htext⟩ := printfFor_chars hr
  exact ⟨r.1, text, by rw [hcall, htext]; rfl⟩

def stringItem : Item := .directive { specifier := .string }

/-- A line that ends with a string. -/
def stringLine (heading : String) : List Item := literals heading ++ stringItem :: literals "\n"

def decimal : Directive := { specifier := .integer .d }

def hexadecimal : Directive := { flags := [.hash], length := .l, specifier := .integer .X }

/-- A line of a dump, with a directive for the value. -/
def dumpLine (value : Directive) (name : String) : List Item :=
  literals ("\t- " ++ name ++ " = ") ++ .directive value :: literals "\n"

def assertionItems : List Item :=
  literals (red ++ "Assertion failed: ") ++ stringItem :: (literals " at " ++ stringItem ::
    (literals ", line " ++ [.directive decimal]))

def registersItems : List Item :=
  literals "General Purpose Registers:\n" ++
    (["rax", "rbx", "rcx", "rdx", "rbp", "rdi", "rsi", "r8 ", "r9 ", "r10", "r11", "r12", "r13",
      "r14", "r15"].flatMap (dumpLine hexadecimal) ++ literals "\n")

def frameItems : List Item :=
  literals "Interrupt Stack Frame:\n" ++
    (["err_code", "int_no  "].flatMap (dumpLine decimal) ++
      (["rip     ", "cs      ", "rflags  ", "rsp     ", "ss      "].flatMap
        (dumpLine hexadecimal) ++ literals "\n"))

theorem assertionItems_bytes :
    cstr (red ++ "Assertion failed: %s at %s, line %d") = formatBytes assertionItems := by
  decide

-- line by line: taking a long literal apart costs the square of its length
theorem registersItems_bytes : cstr registersFormat = formatBytes registersItems := by
  unfold registersFormat
  simp only [String.append_assoc, cstr_append, -String.reduceAppend]
  decide +kernel

theorem frameItems_bytes : cstr frameFormat = formatBytes frameItems := by
  unfold frameFormat
  simp only [String.append_assoc, cstr_append, -String.reduceAppend]
  decide +kernel

theorem causeLine_bytes :
    cstr (red ++ "KERNEL PANIC: %s\n") = formatBytes (stringLine (red ++ "KERNEL PANIC: ")) := by
  decide

theorem descriptionLine_bytes :
    cstr "Interrupt description: %s\n" = formatBytes (stringLine "Interrupt description: ") := by
  decide

/-- Literals take no arguments. -/
theorem kinds_literals (s : String) : (literals s).flatMap Item.kinds = [] := by
  rw [List.flatMap_eq_nil_iff]
  intro item hitem
  obtain ⟨c, -, hc⟩ := List.mem_filterMap.mp hitem
  split at hc
  · obtain rfl := Option.some.inj hc
    rfl
  · exact absurd hc.symm (Option.some_ne_none _)

theorem matches_registers (r : Registers) : Matches registersItems (registersArgs r) := by
  have hkinds : registersItems.flatMap Item.kinds = List.replicate 15 .word := by decide
  rw [Matches, hkinds]
  exact fits_words (Nat.le_refl _)

theorem matches_frame (f : InterruptFrame) : Matches frameItems (frameArgs f) := by
  have hkinds : frameItems.flatMap Item.kinds = List.replicate 7 .word := by decide
  rw [Matches, hkinds]
  exact fits_words (Nat.le_refl _)

theorem matches_stringLine (heading s : String) : Matches (stringLine heading) [str s] := by
  have hkinds : (stringLine heading).flatMap Item.kinds = [.string] := by
    rw [stringLine, List.flatMap_append, List.flatMap_cons, kinds_literals, kinds_literals]
    rfl
  rw [Matches, hkinds]
  exact ⟨zero_mem_cstr s, trivial⟩

/-! ### The shape of what is logged -/

/-- An assertion: a message to the host, and the halt. -/
theorem assertionFailed_eq (expr file : String) (line : Word) :
    ∃ text, assertionFailed expr file line = some (messages [(.host, text)] ++ [.halt]) := by
  have hmatch : Matches assertionItems [str expr, str file, ⟨line, []⟩] := by
    have hkinds : assertionItems.flatMap Item.kinds = [.string, .string, .word] := by
      simp only [assertionItems, List.flatMap_append, List.flatMap_cons, kinds_literals]
      rfl
    rw [Matches, hkinds]
    exact ⟨zero_mem_cstr expr, zero_mem_cstr file, trivial, trivial⟩
  obtain ⟨r, text, h⟩ := dprintf_of_matches hmatch
  refine ⟨text, ?_⟩
  rw [assertionFailed, assertionItems_bytes, h]
  simp [messages]

/-- A panic's last words: the terminal, the host, and the halt. -/
theorem kpanicCause_eq (cause : String) :
    ∃ ms, kpanicCause cause = some (messages ms ++ [.halt]) := by
  obtain ⟨screen, hscreen⟩ := kputs_cstr (red ++ "KERNEL PANIC OCCURED, CHECK LOGS ON HOST MACHINE !")
  obtain ⟨r, last, hlast⟩ :=
    dprintf_of_matches (matches_stringLine (red ++ "KERNEL PANIC: ") cause)
  refine ⟨[(.kernel, screen), (.host, last)], ?_⟩
  rw [kpanicCause, hscreen, causeLine_bytes, hlast]
  simp [messages, callShape]

theorem kpanicRegisters_eq (cause : String) (r : Registers) :
    ∃ ms, kpanicRegisters cause (some r) = some (messages ms ++ [.halt]) := by
  obtain ⟨n, dump, hdump⟩ := dprintf_of_matches (matches_registers r)
  obtain ⟨ms, hrest⟩ := kpanicCause_eq cause
  refine ⟨(.host, dump) :: ms, ?_⟩
  rw [kpanicRegisters, registersItems_bytes, hdump, hrest]
  simp [messages]

theorem describe_eq (f : InterruptFrame) : ∃ ms, describe f = some (messages ms) := by
  by_cases hexc : isCpuException f.intNo = true
  · obtain ⟨r, text, h⟩ := dprintf_of_matches
      (matches_stringLine "Interrupt description: " (exceptionDesc.getD f.intNo.toNat ""))
    refine ⟨[(.host, text)], ?_⟩
    rw [describe, if_pos hexc, descriptionLine_bytes, h]
    simp [messages]
  · exact ⟨[], by rw [describe, if_neg hexc]; rfl⟩

/-- **A panic on a frame** starts with a message to the host, and ends in the halt. -/
theorem kpanicFrame_eq (cause : String) (f : InterruptFrame) :
    ∃ dump ms, kpanicFrame cause (some f) = some (messages ((.host, dump) :: ms) ++ [.halt]) := by
  obtain ⟨n, dump, hdump⟩ := dprintf_of_matches (matches_frame f)
  obtain ⟨ms₁, hdesc⟩ := describe_eq f
  obtain ⟨ms₂, hrest⟩ := kpanicRegisters_eq cause f.gprs
  refine ⟨dump, ms₁ ++ ms₂, ?_⟩
  rw [kpanicFrame, frameItems_bytes, hdump, hdesc, hrest]
  simp [messages]

def unhandledItems : List Item :=
  literals "IRQ " ++ .directive decimal :: literals " received but has no handler\n"

/-- The message about an IRQ without handler. -/
theorem logUnhandled_eq (intNo : Word) :
    ∃ r text, dprintf (cstr "IRQ %d received but has no handler\n") [⟨intNo, []⟩] =
      some (r, callShape .host text) := by
  have hbytes : cstr "IRQ %d received but has no handler\n" = formatBytes unhandledItems := by
    decide
  have hkinds : unhandledItems.flatMap Item.kinds = [.word] := by
    rw [unhandledItems, List.flatMap_append, List.flatMap_cons, kinds_literals, kinds_literals]
    rfl
  rw [hbytes]
  apply dprintf_of_matches
  rw [Matches, hkinds]
  exact ⟨trivial, trivial⟩

/-! ### The three kinds of interrupts -/

section Kinds

variable (beyond : ℕ → Option Handler) {f : InterruptFrame}

/-- Reading a table logs nothing. -/
theorem effectsSteps_access (c : Callee) (keyUp code : Byte) (t : Table) (i : ℕ)
    (es : List (Effect Handler)) :
    effectsSteps c code keyUp (.access t i :: es) = effectsSteps c code keyUp es := by
  show (effectsSteps c code keyUp es).bind (fun r => some (r.1, [] ++ r.2)) = _
  cases effectsSteps c code keyUp es <;> rfl

theorem effectsSteps_kpanic (c : Callee) (keyUp code : Byte) (cause : String)
    (f : InterruptFrame) : ∃ dump ms, effectsSteps c code keyUp (kpanicEffects cause f) =
      some (keyUp, messages ((.host, dump) :: ms) ++ [.halt]) := by
  obtain ⟨dump, ms, h⟩ := kpanicFrame_eq cause f
  have hlast : effectsSteps c code keyUp [.kpanic cause f] =
      some (keyUp, messages ((.host, dump) :: ms) ++ [.halt]) := by
    simp [effectsSteps, effectSteps, h]
  refine ⟨dump, ms, ?_⟩
  rw [kpanicEffects]
  split
  · rw [effectsSteps_access]
    exact hlast
  · exact hlast

/-- An exception panics or fails an assertion; so does an IRQ whose number is not one. -/
theorem interruptSteps_halts {c : Callee} (keyUp code : Byte)
    (h : c = .cpuExceptionHandler ∨ isIrqInterrupt f.intNo = false) :
    ∃ dump ms, interruptSteps beyond c f keyUp code =
      some (keyUp, messages ((.host, dump) :: ms) ++ [.halt]) := by
  have hassert : ∀ expr, dispatch (installedHandlers beyond) (fun _ => true) c (some f) =
      [.assertionFailed expr] → ∃ dump ms, interruptSteps beyond c f keyUp code =
        some (keyUp, messages ((.host, dump) :: ms) ++ [.halt]) := by
    intro expr hd
    obtain ⟨text, htext⟩ :=
      assertionFailed_eq expr "./arch/x86_64/interrupts.cpp" (assertLine c expr)
    refine ⟨text, [], ?_⟩
    rw [interruptSteps, hd]
    simp [effectsSteps, effectSteps, htext]
  cases c with
  | irqInterruptHandler =>
    have hno : isIrqInterrupt f.intNo = false := h.resolve_left nofun
    exact hassert _ (if_pos (by simp [hno]))
  | cpuExceptionHandler =>
    by_cases hexc : isCpuException f.intNo = true
    · -- no exception has a handler
      have hread : (installedHandlers beyond).read f.intNo.toNat = none := by
        have hlt := isCpuException_iff.mp hexc
        rw [HandlerTable.read, dif_pos (Nat.lt_trans hlt (by decide))]
        exact if_neg (by show f.intNo.toNat ≠ 33; omega)
      simp only [interruptSteps, dispatch, cpuExceptionHandler, hexc, not_true_eq_false, if_false,
        effectsSteps_access, hread]
      split
      · exact effectsSteps_kpanic ..
      · rw [effectsSteps_access]
        exact effectsSteps_kpanic ..
    · exact hassert _ (if_pos hexc)

/-- The keyboard's interrupt runs its handler. -/
theorem interruptSteps_keyboard (keyUp code : Byte) (hf : isIrqInterrupt f.intNo = true)
    (hread : (installedHandlers beyond).read f.intNo.toNat = some .keyboard) :
    interruptSteps beyond .irqInterruptHandler f keyUp code =
      some (keyUpAfter keyUp code, keySteps (keyUp ≠ 0) code) := by
  simp [interruptSteps, dispatch, irqInterruptHandler, hf, hread, effectsSteps, effectSteps,
    irqHandler_eq]

/-- Any other IRQ logs one message to the host. -/
theorem interruptSteps_unhandled (keyUp code : Byte) (hf : isIrqInterrupt f.intNo = true)
    (hread : (installedHandlers beyond).read f.intNo.toNat = none) :
    ∃ text, interruptSteps beyond .irqInterruptHandler f keyUp code =
      some (keyUp, messages [(.host, text)]) := by
  obtain ⟨r, text, h⟩ := logUnhandled_eq f.intNo
  refine ⟨text, ?_⟩
  simp [interruptSteps, dispatch, irqInterruptHandler, hf, hread, effectsSteps, effectSteps, h,
    messages]

end Kinds

end MegaOS.Interrupts
