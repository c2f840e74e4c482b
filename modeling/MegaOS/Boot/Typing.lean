import MegaOS.Boot.Output
import MegaOS.Devices.Modifiers

/-!
# From the keyboard to the screen

Once `_start` is in its last loop, the kernel is what its interrupts make of it.
The desk is that kernel seen from outside: an interrupt is served at once, a key
shows on the terminal what the scancodes before it make of it, and any other line
is reported to the host.

The kernel refines the desk. A handler takes many steps, and what it has still to
do is in its list of steps; the output the desk shows already is what the log has
output, and will have when these steps are done.
-/

namespace MegaOS.Kernel

open MegaOS.Memory MegaOS.Log MegaOS.Assembly MegaOS.Pic8259 MegaOS.Pic MegaOS.Interrupts MegaOS.Boot
  MegaOS.Keyboard MegaOS.Modifiers MegaOS.Runs

/-! ### The desk -/

/-- The message about a line without a handler. -/
def unhandledText (k : Fin 16) : List Byte :=
  bytes "IRQ " ++ (decimalText (BitVec.ofNat 64 (32 + k.val)) ++
    bytes " received but has no handler\n")

/-- The scancodes so far, and what was output since. -/
structure Desk where
  history : List Byte
  output : List Emission

def Desk.serve (write : Word) (d : Desk) (k : Fin 16) (code : Byte) : Desk :=
  if k.val = 1 then
    ⟨d.history ++ [code], d.output ++ (keyText (shiftHeld d.history || capsLockOn d.history)
      code).map fun c => ⟨.kernel, .terminal write, c⟩⟩
  else ⟨d.history, d.output ++ (unhandledText k).flatMap (dputc .host)⟩

/-- An interrupt is its line, and what the keyboard's data port holds. -/
def desk (write : Word) : Machine Desk (Fin 16 × Byte) := ⟨fun d i => some (d.serve write i.1 i.2)⟩

/-- The interrupts among the events. -/
def taken : Event → Option (Fin 16 × Byte)
  | .irq r _ code => some (r.vectorLine, code)
  | _ => none

def Event.isException : Event → Bool
  | .exception .. => true
  | _ => false

/-- The scancodes of some interrupts. -/
def scancodes (irqs : List (Fin 16 × Byte)) : List Byte :=
  irqs.filterMap fun i => if i.1.val = 1 then some i.2 else none

/-- The lines of the others. -/
def otherLines (irqs : List (Fin 16 × Byte)) : List (Fin 16) :=
  irqs.filterMap fun i => if i.1.val = 1 then none else some i.1

/-- The bytes on the terminal. -/
def terminalBytes (trace : List Emission) : List Byte :=
  (trace.filter (·.device ≠ .serial)).map (·.byte)

theorem terminalBytes_append (x y : List Emission) :
    terminalBytes (x ++ y) = terminalBytes x ++ terminalBytes y := by
  rw [terminalBytes, List.filter_append, List.map_append]
  rfl

/-- A text on the terminal. -/
theorem bytes_terminal (write : Word) (text : List Byte) :
    terminalBytes (text.map fun c => ⟨.kernel, .terminal write, c⟩) = text ∧
      serialBytes (text.map fun c => ⟨.kernel, .terminal write, c⟩) = [] := by
  constructor
  · rw [terminalBytes, List.filter_eq_self.mpr, List.map_map]
    · exact List.map_id'' (fun _ => rfl) text
    · intro x hx
      obtain ⟨c, -, rfl⟩ := List.mem_map.mp hx
      rfl
  · rw [serialBytes, List.filter_eq_nil_iff.mpr, List.map_nil]
    intro x hx
    obtain ⟨c, -, rfl⟩ := List.mem_map.mp hx
    exact Bool.false_ne_true

/-- A message to the host. -/
theorem bytes_host (text : List Byte) :
    terminalBytes (text.flatMap (dputc .host)) = [] ∧
      serialBytes (text.flatMap (dputc .host)) = toWire text := by
  refine ⟨?_, serialBytes_dputc text⟩
  rw [terminalBytes, List.filter_eq_nil_iff.mpr, List.map_nil]
  intro x hx
  obtain ⟨c, -, hc⟩ := List.mem_flatMap.mp hx
  simp [(mem_dputc hc).2]

/-- **The desk** shows what is typed, and reports the rest. -/
theorem desk_run (write : Word) (d : Desk) (irqs : List (Fin 16 × Byte)) :
    ∃ d', (desk write).run d irqs = some d' ∧ d'.history = d.history ++ scancodes irqs ∧
      terminalBytes d'.output = terminalBytes d.output ++ typedAfter d.history (scancodes irqs) ∧
      serialBytes d'.output =
        serialBytes d.output ++ toWire ((otherLines irqs).flatMap unhandledText) := by
  induction irqs generalizing d with
  | nil =>
    exact ⟨d, rfl, (List.append_nil _).symm, (List.append_nil _).symm, (List.append_nil _).symm⟩
  | cons i irqs ih =>
    obtain ⟨k, code⟩ := i
    obtain ⟨d', hrun, hhistory, hterminal, hhost⟩ := ih (d.serve write k code)
    refine ⟨d', (Machine.run_cons rfl).trans hrun, ?_⟩
    rw [hhistory, hterminal, hhost, Desk.serve]
    by_cases hk : k.val = 1
    · obtain ⟨hshown, hnone⟩ :=
        bytes_terminal write (keyText (shiftHeld d.history || capsLockOn d.history) code)
      have hcodes : scancodes ((k, code) :: irqs) = code :: scancodes irqs :=
        List.filterMap_cons_some (if_pos hk)
      have hlines : otherLines ((k, code) :: irqs) = otherLines irqs :=
        List.filterMap_cons_none (if_pos hk)
      simp only [if_pos hk, hcodes, hlines, terminalBytes_append, serialBytes_append, hshown, hnone,
        typedAfter, List.append_assoc, List.nil_append, List.singleton_append, and_self]
    · obtain ⟨hnone, hsent⟩ := bytes_host (unhandledText k)
      have hcodes : scancodes ((k, code) :: irqs) = scancodes irqs :=
        List.filterMap_cons_none (if_neg hk)
      have hlines : otherLines ((k, code) :: irqs) = k :: otherLines irqs :=
        List.filterMap_cons_some (if_neg hk)
      simp only [if_neg hk, hcodes, hlines, terminalBytes_append, serialBytes_append, hnone, hsent,
        List.flatMap_cons, toWire_append, List.append_assoc, List.nil_append, and_self]

/-! ### Handlers -/

/-- What a list of steps has still to do for the log. -/
def opsOf (steps : List Step) : List Op :=
  steps.filterMap fun
    | .plain (.op o) => some o
    | _ => none

/-- The port writes of the end of interrupt do not log. -/
theorem opsOf_handler (os : List Op) (irqNo : Byte) : opsOf (ops os ++ eoiSteps irqNo) = os := by
  have heoi : opsOf (eoiSteps irqNo) = [] := by
    rw [opsOf, List.filterMap_eq_nil_iff]
    intro st hst
    obtain ⟨w, -, rfl⟩ := List.mem_map.mp hst
    rfl
  have hops : opsOf (ops os) = os := by
    induction os with
    | nil => rfl
    | cons o os ih => exact congrArg (o :: ·) ih
  rw [opsOf, List.filterMap_append]
  exact (congrArg₂ (· ++ ·) hops heoi).trans (List.append_nil os)

theorem unhandled_prints (k : Fin 16) :
    ∃ r, dprintf (cstr "IRQ %d received but has no handler\n") [⟨BitVec.ofNat 64 (32 + k.val), []⟩] =
      some (r, callShape .host (unhandledText k)) := by
  have hbytes : cstr "IRQ %d received but has no handler\n" = formatBytes unhandledItems := by
    decide
  have hfirst : literalBytes "IRQ " = bytes "IRQ " := by decide
  have hlast : formatText (literals " received but has no handler\n") [] =
      some (bytes " received but has no handler\n") := by decide
  have htext : formatText unhandledItems [⟨BitVec.ofNat 64 (32 + k.val), []⟩] =
      some (unhandledText k) := by
    rw [unhandledItems, formatText_literals, formatText, decimal_text]
    simp only [Option.bind_eq_bind, Option.bind_some, hlast, Option.map_some, hfirst]
    rfl
  have hnul : 0 ∉ unhandledText k := by
    have hbefore : (0 : Byte) ∉ bytes "IRQ " := by decide
    have hafter : (0 : Byte) ∉ bytes " received but has no handler\n" := by decide
    simp only [unhandledText, List.mem_append, not_or]
    exact ⟨hbefore, (inline_integerText .d _ _).1, hafter⟩
  obtain ⟨r, hr⟩ := dprintf_text htext
  rw [filter_nul hnul] at hr
  exact ⟨r, by rw [hbytes, hr]⟩

/-- What the handler of line `k` does for the log. -/
def lineOps (keyUp : Byte) (k : Fin 16) (code : Byte) : List Op :=
  if k.val = 1 then keySteps (keyUp ≠ 0) code else callShape .host (unhandledText k)

/-- A line without a handler is reported. -/
theorem interruptSteps_report (beyond : ℕ → Option Handler) {f : InterruptFrame} {k : Fin 16}
    (hk : k.val ≠ 1) (hf : f.intNo = BitVec.ofNat 64 (32 + k.val)) (keyUp code : Byte) :
    interruptSteps beyond .irqInterruptHandler f keyUp code =
      some (keyUp, callShape .host (unhandledText k)) := by
  have hnum : f.intNo.toNat = 32 + k.val := by
    rw [hf, BitVec.toNat_ofNat]
    omega
  have hirq : isIrqInterrupt f.intNo = true := by
    rw [isIrqInterrupt_iff]
    omega
  have hread : (installedHandlers beyond).read f.intNo.toNat = none := by
    rw [hnum, HandlerTable.read, dif_pos (Nat.lt_trans (by omega : 32 + k.val < 48) (by decide))]
    exact if_neg (by show 32 + k.val ≠ 33; omega)
  obtain ⟨r, hr⟩ := unhandled_prints k
  rw [← hf] at hr
  simp [interruptSteps, dispatch, irqInterruptHandler, hirq, hread, effectsSteps, effectSteps, hr]

theorem handlerProgram_line (beyond : ℕ → Option Handler) (cpu : Cpu) (k : Fin 16)
    (keyUp code : Byte) :
    handlerProgram beyond .irqInterruptHandler (builtFrame cpu (32 + k.val) 0) keyUp code =
      some (if k.val = 1 then keyUpAfter keyUp code else keyUp, ops (lineOps keyUp k code) ++
        eoiSteps ((BitVec.ofNat 64 (32 + k.val)).setWidth 8)) := by
  by_cases hk : k.val = 1
  · obtain rfl : k = 1 := Fin.ext hk
    exact handlerProgram_keyboard beyond cpu keyUp code
  · have hno := builtFrame_intNo cpu k 0
    rw [handlerProgram_irq beyond (isIrqInterrupt_builtFrame cpu k 0),
      interruptSteps_report beyond hk hno, hno, lineOps, if_neg hk, if_neg hk]
    rfl

/-! ### The refinement -/

/-- The kernel serves what the desk has served: `_start` is at rest, or one handler runs, which will
leave the console as it should be. -/
structure Shows (target : Pair) (base : Console) (s : State) (d : Desk) : Prop where
  keys : s.keyUp = bits (shiftHeld d.history) (capsLockOn d.history)
  running : s.console.halted = false
  console : s.console.execAll (s.handlers.flatMap fun a => opsOf a.steps) =
    { base with trace := base.trace ++ d.output }
  mode : AtRest target s ∨ (∃ a, Handling target s a) ∧ s.thread = plain [.forever] ∧
    s.idtInForce = true ∧ s.lost = false

section System

variable {b : BootMemory} {serialInit : Bool} {beyond : ℕ → Option Handler} {addr : Label → Addr}
variable {target : Pair} {base : Console} {s s' : State} {d : Desk}

theorem AtRest.inv (h : AtRest target s) : Inv target s := by
  refine ⟨h.found, .inl ⟨h.handlers, ?_⟩⟩
  rw [h.table, h.flag, h.thread]
  exact ⟨fun _ => ⟨rfl, h.pics⟩, trivial⟩

/-- The console after an interrupt was served. -/
theorem execAll_lineOps (hbase : Idle base) (k : Fin 16) (code : Byte) (d : Desk) :
    ({ base with trace := base.trace ++ d.output } : Console).execAll
        (lineOps (bits (shiftHeld d.history) (capsLockOn d.history)) k code) =
      { base with trace := base.trace ++ (d.serve base.write k code).output } := by
  obtain ⟨write, useSerial, halted, trace⟩ := base
  obtain rfl : useSerial = false := hbase.useSerial
  obtain rfl : halted = false := hbase.halted
  rw [lineOps, Desk.serve]
  by_cases hk : k.val = 1
  · have hkeys := execAll_keySteps (shiftHeld d.history || capsLockOn d.history) code
      (s := ⟨write, false, false, trace ++ d.output⟩) rfl rfl
    rw [if_pos hk, if_pos hk, bits_ne_zero, hkeys, List.append_assoc]
  · have hreport := execAll_callShape_host (unhandledText k)
      (s := ⟨write, false, false, trace ++ d.output⟩) rfl
    rw [if_neg hk, if_neg hk, hreport, List.append_assoc]

theorem keyUp_serve (write : Word) (k : Fin 16) (code : Byte) (d : Desk) :
    (if k.val = 1 then keyUpAfter (bits (shiftHeld d.history) (capsLockOn d.history)) code
      else bits (shiftHeld d.history) (capsLockOn d.history)) =
      bits (shiftHeld (d.serve write k code).history)
        (capsLockOn (d.serve write k code).history) := by
  rw [Desk.serve]
  by_cases hk : k.val = 1
  · rw [if_pos hk, if_pos hk, keyUpAfter_bits, ← shiftHeld_concat, ← capsLockOn_concat]
  · rw [if_neg hk, if_neg hk]

/-- A step of a handler that returns takes its share of what was still to do for the log. -/
structure HandlerStep (s : State) (st : Step) (rest : List Step) (r : State × List Step) : Prop where
  left : r.2 = []
  running : r.1.console.halted = false
  console : r.1.console.execAll (opsOf rest) = s.console.execAll (opsOf (st :: rest))
  keys : r.1.keyUp = s.keyUp
  thread : r.1.thread = s.thread
  table : r.1.idtInForce = s.idtInForce

theorem handlerStep_of_leads {st : Step} {rest : List Step} {r : State × List Step} {q : Pair}
    (hhalted : s.console.halted = false) (hleads : Leads (st :: rest) s.pics q)
    (hperform : perform b serialInit s st = some r) : HandlerStep s st rest r := by
  cases st with
  | plain st =>
    cases st with
    | op o =>
      have hexec : s.console.execAll (o :: opsOf rest) = (s.console.exec o).execAll (opsOf rest) :=
        execAll_cons _ _ hhalted
      cases o with
      | halt => exact absurd rfl hleads.1
      | _ =>
        obtain rfl := Option.some.inj hperform
        exact ⟨rfl, hhalted, hexec.symm, rfl, rfl, rfl⟩
    | _ => exact hleads.elim
  | outb port value =>
    obtain rfl := Option.some.inj hperform
    exact ⟨rfl, hhalted, rfl, rfl, rfl, rfl⟩
  | _ => exact hleads.elim

/-- A step of the running code. -/
theorem shows_resume (hs : Shows target base s d)
    (hstep : step b serialInit beyond addr s .resume = some s') : Shows target base s' d := by
  rcases step_resume hstep with ⟨a, outer, st, rest, r, hhandlers, hsteps, hperform, rfl⟩ |
    ⟨st, rest, r, hhandlers, hthread, hperform, rfl⟩
  · rcases hs.mode with hrest | ⟨⟨a', hhand⟩, hloop, htable, hfound⟩
    · exact absurd (hhandlers.symm.trans hrest.handlers) (List.cons_ne_nil _ _)
    · obtain ⟨rfl, rfl⟩ := List.cons.inj (hhandlers.symm.trans hhand.handlers)
      obtain ⟨hhand', hlost⟩ := handling_resume hhand hsteps hperform
      have hleads := hhand.leads
      have hconsole := hs.console
      rw [hsteps] at hleads
      rw [hhandlers, List.flatMap_singleton, hsteps] at hconsole
      have hdone := handlerStep_of_leads hs.running hleads hperform
      refine ⟨hdone.keys.trans hs.keys, hdone.running, ?_, .inr ⟨⟨_, hhand'⟩,
        hdone.thread.trans hloop, hdone.table.trans htable, hlost.trans hfound⟩⟩
      show r.1.console.execAll ([{ a with steps := r.2 ++ rest }].flatMap fun a => opsOf a.steps) = _
      rw [List.flatMap_singleton, hdone.left, List.nil_append, hdone.console]
      exact hconsole
  · -- the loop of `_start`
    rcases hs.mode with hrest | ⟨⟨a', hhand⟩, -⟩
    · obtain ⟨rfl, rfl⟩ := List.cons.inj (hthread.symm.trans hrest.thread)
      obtain rfl := Option.some.inj hperform
      refine ⟨hs.keys, hs.running, hs.console, .inl ?_⟩
      exact ⟨hrest.log, hrest.pics, hrest.table, hrest.flag, hrest.found, rfl, hrest.handlers⟩
    · exact absurd (hhandlers.symm.trans hhand.handlers) (List.cons_ne_nil _ _).symm

/-- An interrupt is taken. -/
theorem shows_irq (htarget : Programmed target) (hbase : Idle base) (hs : Shows target base s d)
    {r : Request} {cpu : Cpu} {code : Byte}
    (hstep : step b serialInit beyond addr s (.irq r cpu code) = some s') :
    Shows target base s' (d.serve base.write r.vectorLine code) := by
  rcases hs.mode with hrest | ⟨⟨a, hhand⟩, -⟩
  · obtain ⟨hflag, hcpu, -, keyUp, os, hprog, hhalt, rfl⟩ := step_irq htarget hrest.inv hstep
    obtain ⟨hrun, -, -⟩ := hrest.inv.ready hflag
    have hconsole := hs.console
    rw [hrest.handlers] at hconsole
    have hconsole' : s.console = { base with trace := base.trace ++ d.output } := hconsole
    -- the handler's steps are known
    rw [handlerProgram_line] at hprog
    obtain ⟨hkeyUp, hprogram⟩ := Prod.mk.inj (Option.some.inj hprog)
    have hos := congrArg opsOf hprogram
    rw [opsOf_handler, opsOf_handler] at hos
    refine ⟨?_, hs.running, ?_, .inr ⟨⟨_, handling_entered htarget hrun hflag r hcpu hhalt keyUp⟩,
      hrest.thread, hrest.table, hrest.found⟩⟩
    · show keyUp = _
      rw [← hkeyUp, hs.keys]
      exact keyUp_serve base.write r.vectorLine code d
    · rw [List.flatMap_singleton, opsOf_handler, ← hos, hs.keys, hconsole']
      exact execAll_lineOps hbase r.vectorLine code d
  · rw [step, if_neg (fun h => Bool.false_ne_true (hhand.masked.symm.trans h.1))] at hstep
    exact absurd hstep (Option.some_ne_none _).symm

/-- The handler returns to the loop. -/
theorem shows_finish (hbase : Idle base) (hs : Shows target base s d)
    (hstep : step b serialInit beyond addr s .finish = some s') :
    Shows target base s' d ∧ AtRest target s' := by
  obtain ⟨a, outer, hhandlers, hsteps, rfl⟩ := step_finish hstep
  rcases hs.mode with hrest | ⟨⟨a', hhand⟩, hloop, htable, hfound⟩
  · exact absurd (hhandlers.symm.trans hrest.handlers) (List.cons_ne_nil _ _)
  · obtain ⟨rfl, rfl⟩ := List.cons.inj (hhandlers.symm.trans hhand.handlers)
    have hleads := hhand.leads
    have hconsole := hs.console
    rw [hsteps] at hleads
    rw [hhandlers, List.flatMap_singleton, hsteps] at hconsole
    have hpics : s.pics = target := hleads
    have hlog : Idle s.console := by
      have hsame : s.console = { base with trace := base.trace ++ d.output } := hconsole
      rw [hsame]
      exact ⟨hbase.halted, hbase.useSerial⟩
    have hrest : AtRest target
        { s with interruptFlag := interruptFlagOf a.frame.rflags, handlers := [] } :=
      ⟨hlog, hpics, htable, hhand.flag, hfound, hloop, rfl⟩
    exact ⟨⟨hs.keys, hs.running, hconsole, .inl hrest⟩, hrest⟩

/-- **The kernel refines the desk**, as long as there is no exception. -/
theorem shows_step (htarget : Programmed target) (hbase : Idle base) (hs : Shows target base s d)
    {e : Event} (he : e.isException = false)
    (hstep : step b serialInit beyond addr s e = some s') :
    ∃ d', (desk base.write).run d (taken e).toList = some d' ∧ Shows target base s' d' := by
  cases e with
  | resume => exact ⟨d, rfl, shows_resume hs hstep⟩
  | irq r cpu code => exact ⟨_, rfl, shows_irq htarget hbase hs hstep⟩
  | exception => exact absurd he.symm Bool.false_ne_true
  | finish => exact ⟨d, rfl, (shows_finish hbase hs hstep).1⟩

/-- So every run without exceptions is one of the desk. -/
theorem shows_run (htarget : Programmed target) (hbase : Idle base) (hs : Shows target base s d)
    {es : List Event} (hes : ∀ e ∈ es, e.isException = false)
    (hrun : (machine b serialInit beyond addr).run s es = some s') :
    ∃ d', (desk base.write).run d (es.filterMap taken) = some d' ∧ Shows target base s' d' := by
  apply Machine.run_simulation (R := Shows target base) (P := fun e => e.isException = false) taken
    _ hes hs hrun
  intro s d e s' hs he hstep
  exact shows_step htarget hbase hs he hstep

/-! ### Handlers return -/

/-- By induction on the steps left: nothing can stop the handler, and its last step is to return. -/
theorem handler_returns {steps : List Step} {a : Active} (hhand : Handling target s a)
    (hsteps : a.steps = steps) (hhalted : s.console.halted = false) : ∃ n u,
    (machine b serialInit beyond addr).run s (List.replicate n .resume ++ [.finish]) = some u ∧
      u.handlers = [] := by
  induction steps generalizing s a with
  | nil =>
    have hstep : step b serialInit beyond addr s .finish =
        some { s with interruptFlag := interruptFlagOf a.frame.rflags, handlers := [] } := by
      rw [step, hhand.handlers]
      simp [hsteps]
    exact ⟨0, _, Machine.run_cons hstep, rfl⟩
  | cons st rest ih =>
    have hleads := hhand.leads
    rw [hsteps] at hleads
    obtain ⟨r, hperform⟩ : ∃ r, perform b serialInit s st = some r := by
      cases st with
      | plain st =>
        cases st with
        | op o => cases o <;> exact ⟨_, rfl⟩
        | _ => exact hleads.elim
      | outb port value => exact ⟨_, rfl⟩
      | _ => exact hleads.elim
    have hdone := handlerStep_of_leads hhalted hleads hperform
    obtain ⟨hhand', -⟩ := handling_resume hhand hsteps hperform
    have hstep : step b serialInit beyond addr s .resume =
        some { r.1 with handlers := [{ a with steps := r.2 ++ rest }] } := by
      rw [step, hhand.handlers]
      simp only [hsteps, hperform, Option.map_some]
    obtain ⟨n, u, hrun, hu⟩ := ih hhand' (by rw [hdone.left]; rfl) hdone.running
    exact ⟨n + 1, u, (Machine.run_cons hstep).trans hrun, hu⟩

/-- What is still to be done until the kernel is at rest. -/
theorem shows_settles (htarget : Programmed target) (hbase : Idle base)
    (hs : Shows target base s d) : ∃ rest u, (s.handlers = [] → rest = []) ∧
      (∀ e ∈ rest, e.isException = false ∧ taken e = none) ∧
      (machine b serialInit beyond addr).run s rest = some u ∧ AtRest target u ∧
      Shows target base u d := by
  rcases hs.mode with hrest | ⟨⟨a, hhand⟩, -⟩
  · exact ⟨[], s, fun _ => rfl, fun e he => absurd he List.not_mem_nil, rfl, hrest, hs⟩
  · obtain ⟨n, u, hrun, hu⟩ := handler_returns hhand rfl hs.running
    have hquiet : ∀ e ∈ List.replicate n Event.resume ++ [Event.finish],
        e.isException = false ∧ taken e = none := by
      intro e he
      rcases List.mem_append.mp he with he | he
      · rw [List.eq_of_mem_replicate he]
        exact ⟨rfl, rfl⟩
      · rw [List.mem_singleton.mp he]
        exact ⟨rfl, rfl⟩
    obtain ⟨d', hdesk, hu'⟩ := shows_run htarget hbase hs (fun e he => (hquiet e he).1) hrun
    rw [List.filterMap_eq_nil_iff.mpr fun e he => (hquiet e he).2] at hdesk
    obtain rfl := Option.some.inj hdesk
    refine ⟨_, u, fun h => absurd (h.symm.trans hhand.handlers) (List.cons_ne_nil _ _).symm, hquiet,
      hrun, ?_, hu'⟩
    rcases hu'.mode with hrest | ⟨⟨a', hhand'⟩, -⟩
    · exact hrest
    · exact absurd (hu.symm.trans hhand'.handlers) (List.cons_ne_nil _ _).symm

/-! ### Requests are served -/

/-- At rest, the request of a line that is not masked is taken. -/
theorem irq_taken (htarget : Programmed target) (hrest : AtRest target s) {k : Fin 16}
    (hk : Unmasked target k = true) {cpu : Cpu} (hcpu : interruptFlagOf cpu.rflags = true)
    (code : Byte) : ∃ s', step b serialInit beyond addr s (.irq (.line k) cpu code) = some s' := by
  have haccepts : target.Accepts k := by
    rw [Pair.Accepts, htarget.masterIdle, htarget.slaveIdle]
    exact ⟨fun j _ => BitVec.getLsbD_zero, fun _ j _ => BitVec.getLsbD_zero⟩
  have hguard : s.interruptFlag = true ∧ interruptFlagOf cpu.rflags = true ∧
      (Request.line k).Possible s.pics := by
    rw [hrest.pics]
    exact ⟨hrest.flag, hcpu, hk, haccepts⟩
  have hvector : (s.pics.vectorOf k).toNat = 32 + k.val := by
    rw [hrest.pics]
    exact htarget.vectors k
  have hgate : s.idtInForce = true ∧ 32 ≤ 32 + k.val ∧ 32 + k.val < 255 :=
    ⟨hrest.table, by omega, by omega⟩
  obtain ⟨keyUp, os, -, -, henter⟩ := enter_irq beyond addr
    { s with pics := (Request.line k).acknowledge s.pics } (.line k) cpu code
  have hstep : step b serialInit beyond addr s (.irq (.line k) cpu code) =
      enter beyond addr { s with pics := (Request.line k).acknowledge s.pics } (some (.line k))
        (32 + k.val) 0 cpu code := by
    rw [step, if_pos hguard]
    simp only [Request.vectorLine, hvector, if_pos hgate]
  exact ⟨_, hstep.trans henter⟩

/-- By induction on the requests: one is taken, its handler returns, and the kernel is at rest. -/
theorem requests_served (htarget : Programmed target) (hbase : Idle base)
    (hs : Shows target base s d) (hrest : AtRest target s) (irqs : List (Fin 16 × Byte))
    (hirqs : ∀ i ∈ irqs, Unmasked target i.1 = true) {cpu : Cpu}
    (hcpu : interruptFlagOf cpu.rflags = true) : ∃ es t, (∀ e ∈ es, e.isException = false) ∧
      es.filterMap taken = irqs ∧ (machine b serialInit beyond addr).run s es = some t ∧
      AtRest target t := by
  induction irqs generalizing s d with
  | nil => exact ⟨[], s, fun e he => absurd he List.not_mem_nil, rfl, rfl, hrest⟩
  | cons i irqs ih =>
    obtain ⟨k, code⟩ := i
    obtain ⟨s₁, hstep⟩ : ∃ s₁, step b serialInit beyond addr s (.irq (.line k) cpu code) = some s₁ :=
      irq_taken htarget hrest (hirqs _ List.mem_cons_self) hcpu code
    have hs₁ := shows_irq htarget hbase hs hstep
    obtain ⟨rest, s₂, -, hquiet, hrun, hrest₂, hs₂⟩ := shows_settles htarget hbase hs₁
    obtain ⟨es, t, hes, htaken, hrun', ht⟩ :=
      ih hs₂ hrest₂ fun j hj => hirqs j (List.mem_cons_of_mem _ hj)
    refine ⟨.irq (.line k) cpu code :: (rest ++ es), t, ?_, ?_, ?_, ht⟩
    · intro e he
      rcases List.mem_cons.mp he with rfl | he
      · rfl
      · exact (List.mem_append.mp he).elim (fun h => (hquiet e h).1) (hes e)
    · have hnone := List.filterMap_eq_nil_iff.mpr fun e he => (hquiet e he).2
      rw [List.filterMap_cons_some (by rfl), List.filterMap_append, hnone, htaken]
      rfl
    · have hfirst : (machine b serialInit beyond addr).run s
          (.irq (.line k) cpu code :: (rest ++ es)) = (machine b serialInit beyond addr).run s₁
            (rest ++ es) := Machine.run_cons hstep
      rw [hfirst, Machine.run_append, hrun, Option.bind_some, hrun']

/-- At rest the kernel shows an empty desk. -/
theorem AtRest.shows (hrest : AtRest target s) {history : List Byte}
    (hkeys : s.keyUp = bits (shiftHeld history) (capsLockOn history)) :
    Shows target s.console s ⟨history, []⟩ := by
  refine ⟨hkeys, hrest.log.halted, ?_, .inl hrest⟩
  rw [hrest.handlers]
  show s.console = { s.console with trace := s.console.trace ++ [] }
  rw [List.append_nil]

end System

/-- After `_start` a line of the first controller is open if it was open before, or is the
keyboard's. -/
theorem unmasked_start (pics : BootPics) {k : Fin 16} (hk : k.val < 8)
    (hopen : pics.pair.mask.getLsbD k = false ∨ k.val = 1) :
    Unmasked (execCalls startCalls pics.pair) k = true := by
  have hmask : (execCalls startCalls pics.pair).mask.getLsbD k = false := by
    rw [startCalls_mask pics.pair pics.operational k]
    rcases hopen with h | h
    · rw [h, Bool.false_and]
    · rw [h]
      exact Bool.and_false _
  rw [unmasked_eq, hmask, decide_eq_true hk]
  rfl

theorem unmasked_keyboard (pics : BootPics) :
    Unmasked (execCalls startCalls pics.pair) 1 = true :=
  unmasked_start pics (by decide) (.inr rfl)

/-- The kernel at rest after a boot. -/
def restingState (pics : BootPics) : State :=
  calm 0x1000 0 (execCalls startCalls pics.pair) true true 0 [] (plain [.forever])

theorem atRest_restingState (pics : BootPics) :
    AtRest (execCalls startCalls pics.pair) (restingState pics) :=
  ⟨⟨rfl, rfl⟩, rfl, rfl, rfl, rfl, rfl, rfl⟩

/-- The controllers of a boot loader that keeps the timer running. -/
def timerPics : BootPics :=
  ⟨⟨⟨0xFE, 0, 0, 0, 0, 0, .ready⟩, ⟨0xFF, 0, 0, 0, 0, 0, .ready⟩⟩, ⟨rfl, rfl⟩, rfl, rfl⟩

/-- The processor in the kernel's code, with interrupts on. -/
def interruptedCpu : Cpu := ⟨fun _ => 0, 0x8000, 0x1000, 0x202, fun _ => 0, fun _ => 0⟩

theorem interrupted : interruptFlagOf interruptedCpu.rflags = true := by decide

/-- **From the keyboard to the screen.** Take any run without exceptions from the kernel at rest,
after some history of scancodes. Wherever it stops, the handler in progress, if there is one, still
returns, with no further interrupt. Then the terminal has received just what is typed by the
scancodes of the keyboard's interrupts, each printed with the modifiers of the whole history before
it; the host was told of every other interrupt, in order; and the kernel is at rest again. -/
theorem typing_reaches_screen (b : BootMemory) (serialInit : Bool) (beyond : ℕ → Option Handler)
    (addr : Label → Addr) (pics : BootPics) (before : List Byte) {s t : State} {es : List Event}
    (hrest : AtRest (execCalls startCalls pics.pair) s)
    (hkeys : s.keyUp = bits (shiftHeld before) (capsLockOn before))
    (hes : ∀ e ∈ es, e.isException = false)
    (hrun : (machine b serialInit beyond addr).run s es = some t) :
    ∃ rest u, (t.handlers = [] → rest = []) ∧
      (∀ e ∈ rest, e.isException = false ∧ taken e = none) ∧
      (machine b serialInit beyond addr).run t rest = some u ∧
      AtRest (execCalls startCalls pics.pair) u ∧
      u.keyUp = bits (shiftHeld (before ++ scancodes (es.filterMap taken)))
        (capsLockOn (before ++ scancodes (es.filterMap taken))) ∧
      terminalBytes u.console.trace =
        terminalBytes s.console.trace ++ typedAfter before (scancodes (es.filterMap taken)) ∧
      serialBytes u.console.trace = serialBytes s.console.trace ++
        toWire ((otherLines (es.filterMap taken)).flatMap unhandledText) := by
  have htarget := programmed_start pics
  obtain ⟨d, hdesk, ht⟩ := shows_run htarget hrest.log (hrest.shows hkeys) hes hrun
  obtain ⟨d', hdesk', hhistory, hterminal, hhost⟩ :=
    desk_run s.console.write ⟨before, []⟩ (es.filterMap taken)
  obtain rfl := Option.some.inj (hdesk.symm.trans hdesk')
  obtain ⟨rest, u, hnone, hquiet, hrest', hu, hshows⟩ := shows_settles htarget hrest.log ht
  have hconsole := hshows.console
  rw [hu.handlers] at hconsole
  have htrace : u.console.trace = s.console.trace ++ d.output := congrArg Console.trace hconsole
  refine ⟨rest, u, hnone, hquiet, hrest', hu, ?_, ?_, ?_⟩
  · rw [hshows.keys, hhistory]
  · rw [htrace, terminalBytes_append, hterminal]
    rfl
  · rw [htrace, serialBytes_append, hhost]
    rfl

/-- Shift is pressed, the timer interrupts, which has no handler, and a letter is being handled when
the run stops. -/
theorem typing_reaches_screen_shift : ∃ es t rest u,
    es.filterMap taken = [(1, 0x2A), (0, 0), (1, 0x1E)] ∧
      (machine terminalOnly true (fun _ => none) fun _ => 0).run (restingState timerPics) es =
        some t ∧ t.handlers ≠ [] ∧
      (machine terminalOnly true (fun _ => none) fun _ => 0).run t rest = some u ∧
      AtRest (execCalls startCalls timerPics.pair) u ∧
      terminalBytes u.console.trace = bytes "Q" ∧
      serialBytes u.console.trace = toWire (bytes "IRQ 32 received but has no handler\n") := by
  have htarget := programmed_start timerPics
  have hrest := atRest_restingState timerPics
  have hlines : ∀ i ∈ [((1 : Fin 16), (0x2A : Byte)), (0, 0)],
      Unmasked (execCalls startCalls timerPics.pair) i.1 = true := by
    have htimer : timerPics.pair.mask.getLsbD 0 = false := by decide
    exact List.forall_mem_cons.mpr ⟨unmasked_keyboard timerPics,
      List.forall_mem_singleton.mpr (unmasked_start timerPics (by decide) (.inl htimer))⟩
  have hshows : Shows (execCalls startCalls timerPics.pair) (restingState timerPics).console
      (restingState timerPics) ⟨[], []⟩ := hrest.shows rfl
  obtain ⟨es, s, hes, htaken, hrun, hs⟩ : ∃ es s, (∀ e ∈ es, e.isException = false) ∧
      es.filterMap taken = [(1, 0x2A), (0, 0)] ∧
      (machine terminalOnly true (fun _ => none) fun _ => 0).run (restingState timerPics) es =
        some s ∧ AtRest (execCalls startCalls timerPics.pair) s :=
    requests_served htarget hrest.log hshows hrest _ hlines interrupted
  obtain ⟨t, hstep⟩ : ∃ t, step terminalOnly true (fun _ => none) (fun _ => 0) s
      (.irq (.line 1) interruptedCpu 0x1E) = some t :=
    irq_taken htarget hs (unmasked_keyboard timerPics) interrupted 0x1E
  have hrun' : (machine terminalOnly true (fun _ => none) fun _ => 0).run (restingState timerPics)
      (es ++ [.irq (.line 1) interruptedCpu 0x1E]) = some t := by
    rw [Machine.run_append, hrun]
    exact Machine.run_cons hstep
  have hes' : ∀ e ∈ es ++ [.irq (.line 1) interruptedCpu 0x1E], e.isException = false := by
    intro e he
    rcases List.mem_append.mp he with he | he
    · exact hes e he
    · rw [List.mem_singleton.mp he]
      rfl
  have htaken' : (es ++ [Event.irq (.line 1) interruptedCpu 0x1E]).filterMap taken =
      [(1, 0x2A), (0, 0), (1, 0x1E)] := by
    rw [List.filterMap_append, htaken]
    rfl
  have hbusy : t.handlers ≠ [] := by
    obtain ⟨-, -, -, keyUp, os, -, -, rfl⟩ := step_irq htarget hs.inv hstep
    exact List.cons_ne_nil _ _
  obtain ⟨rest, u, -, -, hrun'', hu, -, hterminal, hhost⟩ := typing_reaches_screen terminalOnly true
    (fun _ => none) (fun _ => 0) timerPics [] hrest rfl hes' hrun'
  rw [htaken'] at hterminal hhost
  refine ⟨_, t, rest, u, htaken', hrun', hbusy, hrun'', hu, hterminal.trans ?_, hhost.trans ?_⟩
  · decide
  · decide

/-- **Every key can be typed.** From the kernel at rest and for any scancodes there is a run, without
exceptions, in which the keyboard interrupts once with each of them in turn and the kernel comes to
rest again. -/
theorem every_key_served (b : BootMemory) (serialInit : Bool) (beyond : ℕ → Option Handler)
    (addr : Label → Addr) (pics : BootPics) (before : List Byte) {s : State}
    (hrest : AtRest (execCalls startCalls pics.pair) s)
    (hkeys : s.keyUp = bits (shiftHeld before) (capsLockOn before)) (codes : List Byte)
    {cpu : Cpu} (hcpu : interruptFlagOf cpu.rflags = true) :
    ∃ es t, (∀ e ∈ es, e.isException = false) ∧
      es.filterMap taken = codes.map (fun code => (1, code)) ∧
      (machine b serialInit beyond addr).run s es = some t ∧
      AtRest (execCalls startCalls pics.pair) t := by
  apply requests_served (programmed_start pics) hrest.log (hrest.shows hkeys) hrest _ _ hcpu
  intro i hi
  obtain ⟨code, -, rfl⟩ := List.mem_map.mp hi
  exact unmasked_keyboard pics

/-- Shift and `a` are typed. -/
theorem every_key_served_capital : ∃ es t, (∀ e ∈ es, e.isException = false) ∧
    es.filterMap taken = [0x2A, 0x1E].map (fun code => (1, code)) ∧
    (machine terminalOnly true (fun _ => none) fun _ => 0).run (restingState maskedPics) es = some t ∧
    AtRest (execCalls startCalls maskedPics.pair) t :=
  every_key_served terminalOnly true (fun _ => none) (fun _ => 0) maskedPics []
    (atRest_restingState maskedPics) rfl [0x2A, 0x1E] interrupted

end MegaOS.Kernel
