import MegaOS.Boot.Kernel

/-!
# Runs of the kernel

A run is in one of three modes. `_start` runs alone, and wherever its interrupt
flag may be set the controllers are as it programmed them; or one IRQ handler runs
on top of it, whose end of interrupt will bring the controllers back to that state;
or an exception was taken, and its handler halts the processor.

So IRQs never nest, and the end of interrupt that `irq_interrupt_handler` sends to
both chips for every line retires nothing that is still in service.
-/

namespace MegaOS.Kernel

open MegaOS.Memory MegaOS.Log MegaOS.Assembly MegaOS.Pic8259 MegaOS.Pic MegaOS.Interrupts MegaOS.Boot
  MegaOS.Runs

/-! ### What is left to do -/

/-- From these controllers on, whenever the steps have the interrupt flag set, the table of gates is
in force and the controllers are `target`. -/
def Safe (target : Pair) : Bool → Bool → Pair → Byte → List Step → Prop
  | idt, flag, p, _, [] => flag = true → idt = true ∧ p = target
  | idt, flag, p, x, st :: rest => (flag = true → idt = true ∧ p = target) ∧
    match st with
    | .plain (.op .halt) => True
    | .plain .loadIdt => Safe target true flag p x rest
    | .plain .forever => True
    | .plain _ => Safe target idt flag p x rest
    | .inb port => Safe target idt flag p (p.inb port) rest
    | .outb port value => Safe target idt flag (p.outb port (value x)) x rest
    | .sti => Safe target idt true p x rest

/-- The steps of a handler that returns: they log, and their port writes lead from `p` to `q`. -/
def Leads : List Step → Pair → Pair → Prop
  | [], p, q => p = q
  | .plain (.op o) :: rest, p, q => o ≠ .halt ∧ Leads rest p q
  | .outb port value :: rest, p, q =>
    (∀ x, value x = value 0) ∧ Leads rest (p.outb port (value 0)) q
  | _ :: _, _, _ => False

/-- The steps of a handler that halts: they log before. -/
def Halts : List Step → Prop
  | .plain (.op .halt) :: _ => True
  | .plain (.op _) :: rest => Halts rest
  | _ => False

theorem Safe.ready {target p : Pair} {idt flag : Bool} {x : Byte} {steps : List Step}
    (h : Safe target idt flag p x steps) (hflag : flag = true) : idt = true ∧ p = target := by
  cases steps with
  | nil => exact h hflag
  | cons st rest => exact h.1 hflag

/-- Logging does not touch the controllers. -/
theorem safe_ops {target p : Pair} {idt flag : Bool} {x : Byte} (os : List Op) {rest : List Step}
    (h : Safe target idt flag p x rest) : Safe target idt flag p x (ops os ++ rest) := by
  induction os with
  | nil => exact h
  | cons o os ih =>
    refine ⟨fun hflag => h.ready hflag, ?_⟩
    cases o with
    | halt => exact trivial
    | _ => exact ih

theorem safe_logged {target p : Pair} {idt flag : Bool} {x : Byte} (r : Option (List Op))
    {rest : List Step} (h : Safe target idt flag p x rest) :
    Safe target idt flag p x (plain (logged r) ++ rest) := by
  cases r with
  | none => exact ⟨fun hflag => h.ready hflag, trivial⟩
  | some os => exact safe_ops os h

theorem leads_ops {os : List Op} (hos : .halt ∉ os) {rest : List Step} {p q : Pair}
    (h : Leads rest p q) : Leads (ops os ++ rest) p q := by
  induction os with
  | nil => exact h
  | cons o os ih =>
    rw [List.mem_cons, not_or] at hos
    exact ⟨Ne.symm hos.1, ih hos.2⟩

theorem leads_writes (ws : List (BitVec 16 × Byte)) (p : Pair) :
    Leads (ws.map fun w => .outb w.1 fun _ => w.2) p (writes ws p) := by
  induction ws generalizing p with
  | nil => exact rfl
  | cons w ws ih => exact ⟨fun _ => rfl, ih (p.outb w.1 w.2)⟩

theorem halts_ops (os : List Op) : Halts (ops (os ++ [.halt])) := by
  induction os with
  | nil => exact trivial
  | cons o os ih =>
    cases o with
    | halt => exact trivial
    | _ => exact ih

/-- Messages do not halt. -/
theorem halt_notMem_messages (ms : List (Family × List Byte)) : Op.halt ∉ messages ms := by
  intro h
  obtain ⟨⟨f, text⟩, -, hm⟩ := List.mem_flatMap.mp h
  cases f <;> simp [callShape, chars] at hm

/-! ### `_start` programs the controllers -/

section Start

variable {target : Pair} {idt : Bool} {x : Byte} {rest : List Step}

/-- The last value a chip's mask was read as is still in the local byte when it is written back. -/
theorem safe_remap (p : Pair) (m s : Byte)
    (h : ∀ y, Safe target idt false (Pic.remap m s p) y rest) :
    Safe target idt false p x (remapSteps m s ++ rest) := by
  have hmaster : remapPicSteps mpicCommand mpicData m ++ (remapPicSteps spicCommand spicData s ++
      plain (remapMessage m s)) ++ rest =
        remapPicSteps mpicCommand mpicData m ++ (remapPicSteps spicCommand spicData s ++
          (plain (remapMessage m s) ++ rest)) := by
    simp only [List.append_assoc]
  rw [remapSteps, hmaster]
  have hoff : ∀ q : Pair, false = true → idt = true ∧ q = target :=
    fun _ h => absurd h Bool.false_ne_true
  refine ⟨hoff _, hoff _, hoff _, hoff _, hoff _, hoff _, hoff _, hoff _, hoff _, hoff _, ?_⟩
  refine ⟨hoff _, hoff _, hoff _, hoff _, hoff _, hoff _, hoff _, hoff _, hoff _, hoff _, ?_⟩
  exact safe_logged _ (h _)

theorem safe_clearIrqMask (p : Pair) (irq : Byte)
    (h : ∀ y, Safe target idt false (Pic.clearIrqMask irq p) y rest) :
    Safe target idt false p x (clearIrqMaskSteps irq ++ rest) := by
  have hoff : ∀ q : Pair, false = true → idt = true ∧ q = target :=
    fun _ h => absurd h Bool.false_ne_true
  exact ⟨hoff _, hoff _, h _⟩

/-- **`_start` is safe**: it enables interrupts after `lidt` and with the controllers programmed. -/
theorem safe_startProgram (p : Pair) (m : Mem) (bootInfo : Addr) (extent : ℕ)
    (gdtTable idtTable : Addr) :
    Safe (execCalls startCalls p) false false p x
      (startProgram m bootInfo extent gdtTable idtTable) := by
  have hoff : false = true → false = true ∧ p = execCalls startCalls p :=
    fun h => absurd h Bool.false_ne_true
  have hend : ∀ y, Safe (execCalls startCalls p) true false p y enableSteps := by
    intro y
    apply safe_remap
    intro y
    apply safe_clearIrqMask
    intro y
    refine ⟨fun h => absurd h Bool.false_ne_true, ?_⟩
    rw [plain, List.map_append]
    exact safe_logged _ ⟨fun _ => ⟨rfl, rfl⟩, trivial⟩
  have hidt : Safe (execCalls startCalls p) false false p x
      (plain (idtInstallSteps idtTable) ++ enableSteps) := by
    have hsplit : plain (idtInstallSteps idtTable) ++ enableSteps =
        plain isrInstall ++ (.plain .loadIdt :: (plain (logged ((dprintf
          (cstr "IDT successfully installed: %#lX %#lX\n")
          [⟨idtTable, []⟩, ⟨256 * 16 - 1, []⟩]).map Prod.snd)) ++ enableSteps)) := by
      simp [plain, idtInstallSteps]
    rw [hsplit]
    refine safe_logged _ ⟨hoff, ?_⟩
    exact safe_logged _ (hend x)
  have hinit : Safe (execCalls startCalls p) false false p x (.plain .initOrHalt ::
      (plain (printBanner m bootInfo extent) ++ (plain (gdtInstall gdtTable) ++
        (plain (idtInstallSteps idtTable) ++ enableSteps)))) :=
    ⟨hoff, safe_logged _ (safe_logged _ hidt)⟩
  rw [startProgram, assertBootInfo]
  split
  · exact safe_logged _ hinit
  · exact hinit

end Start

/-! ### Entering a handler -/

/-- Controllers that deliver line `k` on vector `32 + k` and have nothing in service. -/
structure Programmed (target : Pair) : Prop where
  vectors : ∀ k, (target.vectorOf k).toNat = 32 + k.val
  masterIdle : target.master.isr = 0
  slaveIdle : target.slave.isr = 0

theorem programmed_start (pics : BootPics) : Programmed (execCalls startCalls pics.pair) := by
  have h1 := exec_isr (.remap 32 40) pics.pair
  have h2 := exec_isr (.clearIrqMask 1) ((Call.remap 32 40).exec pics.pair)
  refine ⟨?_, (h2.1.trans h1.1).trans pics.masterIdle, (h2.2.trans h1.2).trans pics.slaveIdle⟩
  intro k
  rw [startCalls_vectorOf pics.pair pics.operational k, BitVec.toNat_ofNat]
  omega

/-- **The end of interrupt** goes to both chips for every line, and from idle controllers it takes
back just what the acknowledge has set. -/
theorem eoi_returns {target : Pair} (h : Programmed target) (r : Request) :
    writes (sendEoi ((BitVec.ofNat 64 (32 + r.vectorLine.val)).setWidth 8)) (r.acknowledge target) =
      target := by
  have hmaster : ∀ k : Fin 16, retire (0 ||| masterBits k) = 0 := by decide
  have hslave : ∀ k : Fin 16, retire (0 ||| slaveBits k) = 0 := by decide
  have hzero : retire 0 = 0 := by decide
  obtain ⟨⟨mimr, misr, m1, m2, m3, m4, mp⟩, ⟨simr, sisr, s1, s2, s3, s4, sp⟩⟩ := target
  obtain rfl : misr = 0 := h.masterIdle
  obtain rfl : sisr = 0 := h.slaveIdle
  rw [Eoi.sendEoi_vector, Eoi.writes_eoi]
  cases r with
  | line k => simp only [Request.acknowledge, Pair.acknowledge, hmaster, hslave]
  | spuriousMaster => simp only [Request.acknowledge, hzero]
  | spuriousSlave => simp only [Request.acknowledge, hmaster, hzero]

theorem halt_notMem_keySteps (upper : Bool) (code : Byte) :
    Op.halt ∉ Keyboard.keySteps upper code := by
  rw [Keyboard.keySteps]
  repeat' split
  all_goals simp [chars]

/-- An IRQ's handler returns. -/
theorem interruptSteps_returns (beyond : ℕ → Option Handler) {f : InterruptFrame}
    (hf : isIrqInterrupt f.intNo = true) (keyUp code : Byte) :
    ∃ r, interruptSteps beyond .irqInterruptHandler f keyUp code = some r ∧ Op.halt ∉ r.2 := by
  cases hread : (installedHandlers beyond).read f.intNo.toNat with
  | none =>
    obtain ⟨text, h⟩ := interruptSteps_unhandled beyond keyUp code hf hread
    exact ⟨_, h, halt_notMem_messages _⟩
  | some handler =>
    cases handler with
    | keyboard =>
      exact ⟨_, interruptSteps_keyboard beyond keyUp code hf hread, halt_notMem_keySteps _ _⟩

/-- An IRQ's frame carries its vector. -/
theorem builtFrame_intNo (cpu : Cpu) (k : Fin 16) (e : Word) :
    (builtFrame cpu (32 + k.val) e).intNo = BitVec.ofNat 64 (32 + k.val) :=
  if_neg (by omega)

theorem isIrqInterrupt_builtFrame (cpu : Cpu) (k : Fin 16) (e : Word) :
    isIrqInterrupt (builtFrame cpu (32 + k.val) e).intNo = true := by
  rw [isIrqInterrupt_iff, builtFrame_intNo, BitVec.toNat_ofNat]
  omega

section System

variable (b : BootMemory) (serialInit : Bool) (beyond : ℕ → Option Handler) (addr : Label → Addr)

/-- **Entering an IRQ's handler** on the vector of a line. -/
theorem enter_irq (s : State) (r : Request) (cpu : Cpu) (code : Byte) :
    ∃ keyUp os, handlerProgram beyond .irqInterruptHandler
        (builtFrame cpu (32 + r.vectorLine.val) 0) s.keyUp code =
          some (keyUp, ops os ++ eoiSteps ((BitVec.ofNat 64 (32 + r.vectorLine.val)).setWidth 8)) ∧
      Op.halt ∉ os ∧
      enter beyond addr s (some r) (32 + r.vectorLine.val) 0 cpu code = some { s with
        keyUp := keyUp
        interruptFlag := false
        handlers := ⟨some r, builtFrame cpu (32 + r.vectorLine.val) 0,
          ops os ++ eoiSteps ((BitVec.ofNat 64 (32 + r.vectorLine.val)).setWidth 8)⟩ ::
            s.handlers } := by
  have hf := isIrqInterrupt_builtFrame cpu r.vectorLine 0
  obtain ⟨q, hq, hhalt⟩ := interruptSteps_returns beyond hf s.keyUp code
  have hprog := handlerProgram_irq beyond hf s.keyUp code
  rw [hq, builtFrame_intNo] at hprog
  refine ⟨q.1, q.2, hprog, hhalt, ?_⟩
  have hcallee : calleeOf (32 + r.vectorLine.val) = .irqInterruptHandler := by
    rw [calleeOf, if_neg (by omega)]
  rw [enter, frameAtCall_eq _ _ _ _ _ (by omega), hcallee]
  simp only [Option.bind_eq_bind, Option.bind_some, hprog, Option.map_some]

/-- **Entering an exception's handler**: its program logs and halts. -/
theorem enter_exception (s : State) (v : Fin 32) (e : Word) (cpu : Cpu) :
    ∃ os, handlerProgram beyond .cpuExceptionHandler (builtFrame cpu v.val e) s.keyUp 0 =
        some (s.keyUp, ops (os ++ [.halt])) ∧
      enter beyond addr s none v.val e cpu 0 = some { s with
        interruptFlag := false
        handlers := ⟨none, builtFrame cpu v.val e, ops (os ++ [.halt])⟩ :: s.handlers } := by
  obtain ⟨dump, ms, h⟩ := handlerProgram_exception beyond (builtFrame cpu v.val e) s.keyUp 0
  refine ⟨_, h, ?_⟩
  have hcallee : calleeOf v.val = .cpuExceptionHandler := by rw [calleeOf, if_pos v.isLt]
  rw [enter, frameAtCall_eq _ _ _ _ _ (by omega), hcallee]
  simp only [Option.bind_eq_bind, Option.bind_some, h]

end System

/-! ### The modes of a run -/

/-- `_start` runs alone. -/
structure Running (target : Pair) (s : State) : Prop where
  handlers : s.handlers = []
  thread : Safe target s.idtInForce s.interruptFlag s.pics s.byte s.thread

/-- One IRQ handler runs on top of `_start`. -/
structure Handling (target : Pair) (s : State) (a : Active) : Prop where
  handlers : s.handlers = [a]
  masked : s.interruptFlag = false
  request : a.request ≠ none
  flag : interruptFlagOf a.frame.rflags = true
  leads : Leads a.steps s.pics target
  thread : Safe target s.idtInForce true target s.byte s.thread

/-- An exception's handler runs on top of whatever ran. -/
structure Stopped (s : State) (a : Active) (outer : List Active) : Prop where
  handlers : s.handlers = a :: outer
  masked : s.interruptFlag = false
  request : a.request = none
  halts : Halts a.steps

structure Inv (target : Pair) (s : State) : Prop where
  found : s.lost = false
  mode : Running target s ∨ (∃ a, Handling target s a) ∨ ∃ a outer, Stopped s a outer

/-- The flag is set in `_start` only, and then the controllers are `target`. -/
theorem Inv.ready {target : Pair} {s : State} (h : Inv target s) (hflag : s.interruptFlag = true) :
    Running target s ∧ s.idtInForce = true ∧ s.pics = target := by
  rcases h.mode with hrun | ⟨a, hhand⟩ | ⟨a, outer, hstop⟩
  · exact ⟨hrun, hrun.thread.ready hflag⟩
  · exact absurd (hhand.masked.symm.trans hflag) Bool.false_ne_true
  · exact absurd (hstop.masked.symm.trans hflag) Bool.false_ne_true

/-! ### Steps keep the modes -/

section System

variable {b : BootMemory} {serialInit : Bool} {beyond : ℕ → Option Handler} {addr : Label → Addr}
variable {target : Pair} {s s' : State}

/-- A step of `_start`. -/
theorem running_resume {st : Step} {rest : List Step} {r : State × List Step}
    (hs : Running target s) (hthread : s.thread = st :: rest)
    (hperform : perform b serialInit s st = some r) :
    Running target { r.1 with thread := r.2 ++ rest } ∧ r.1.lost = s.lost := by
  have hsafe := hs.thread
  rw [hthread] at hsafe
  cases st with
  | plain st =>
    cases st with
    | op o =>
      cases o with
      | halt =>
        obtain rfl := Option.some.inj hperform
        exact ⟨⟨hs.handlers, fun h => absurd h Bool.false_ne_true, trivial⟩, rfl⟩
      | _ =>
        obtain rfl := Option.some.inj hperform
        exact ⟨⟨hs.handlers, hsafe.2⟩, rfl⟩
    | initOrHalt =>
      obtain ⟨q, -, rfl⟩ := Option.map_eq_some_iff.mp hperform
      refine ⟨⟨hs.handlers, ?_⟩, rfl⟩
      cases q.1 with
      | true => exact hsafe.2
      | false => exact ⟨hsafe.1, trivial⟩
    | loadIdt =>
      obtain rfl := Option.some.inj hperform
      exact ⟨⟨hs.handlers, hsafe.2⟩, rfl⟩
    | forever =>
      obtain rfl := Option.some.inj hperform
      exact ⟨⟨hs.handlers, hsafe.1, trivial⟩, rfl⟩
  | _ =>
    obtain rfl := Option.some.inj hperform
    exact ⟨⟨hs.handlers, hsafe.2⟩, rfl⟩

/-- A step of an IRQ's handler. -/
theorem handling_resume {a : Active} {st : Step} {rest : List Step} {r : State × List Step}
    (hs : Handling target s a) (hsteps : a.steps = st :: rest)
    (hperform : perform b serialInit s st = some r) :
    Handling target { r.1 with handlers := [{ a with steps := r.2 ++ rest }] }
      { a with steps := r.2 ++ rest } ∧ r.1.lost = s.lost := by
  have hleads := hs.leads
  rw [hsteps] at hleads
  cases st with
  | plain st =>
    cases st with
    | op o =>
      cases o with
      | halt => exact absurd rfl hleads.1
      | _ =>
        obtain rfl := Option.some.inj hperform
        exact ⟨⟨rfl, hs.masked, hs.request, hs.flag, hleads.2, hs.thread⟩, rfl⟩
    | _ => exact hleads.elim
  | outb port value =>
    obtain rfl := Option.some.inj hperform
    refine ⟨⟨rfl, hs.masked, hs.request, hs.flag, ?_, hs.thread⟩, rfl⟩
    show Leads rest (s.pics.outb port (value s.byte)) target
    rw [hleads.1 s.byte]
    exact hleads.2
  | _ => exact hleads.elim

/-- A step of an exception's handler. -/
theorem stopped_resume {a : Active} {outer : List Active} {st : Step} {rest : List Step}
    {r : State × List Step} (hs : Stopped s a outer) (hsteps : a.steps = st :: rest)
    (hperform : perform b serialInit s st = some r) :
    Stopped { r.1 with handlers := { a with steps := r.2 ++ rest } :: outer }
      { a with steps := r.2 ++ rest } outer ∧
      r.1.lost = s.lost ∧ r.1.pics = s.pics ∧ r.1.thread = s.thread := by
  have hhalts := hs.halts
  rw [hsteps] at hhalts
  cases st with
  | plain st =>
    cases st with
    | op o =>
      cases o with
      | halt =>
        obtain rfl := Option.some.inj hperform
        exact ⟨⟨rfl, rfl, hs.request, trivial⟩, rfl, rfl, rfl⟩
      | _ =>
        obtain rfl := Option.some.inj hperform
        exact ⟨⟨rfl, hs.masked, hs.request, hhalts⟩, rfl, rfl, rfl⟩
    | _ => exact hhalts.elim
  | _ => exact hhalts.elim

/-- What the processor's next step is. -/
theorem step_resume (hstep : step b serialInit beyond addr s .resume = some s') :
    (∃ a outer st rest r, s.handlers = a :: outer ∧ a.steps = st :: rest ∧
      perform b serialInit s st = some r ∧
      s' = { r.1 with handlers := { a with steps := r.2 ++ rest } :: outer }) ∨
    ∃ st rest r, s.handlers = [] ∧ s.thread = st :: rest ∧
      perform b serialInit s st = some r ∧ s' = { r.1 with thread := r.2 ++ rest } := by
  rw [step] at hstep
  split at hstep
  · rename_i a outer hhandlers
    split at hstep
    · exact absurd hstep (Option.some_ne_none _).symm
    · rename_i st rest hsteps
      obtain ⟨r, hr, rfl⟩ := Option.map_eq_some_iff.mp hstep
      exact .inl ⟨a, outer, st, rest, r, hhandlers, hsteps, hr, rfl⟩
  · rename_i hhandlers
    split at hstep
    · exact absurd hstep (Option.some_ne_none _).symm
    · rename_i st rest hthread
      obtain ⟨r, hr, rfl⟩ := Option.map_eq_some_iff.mp hstep
      exact .inr ⟨st, rest, r, hhandlers, hthread, hr, rfl⟩

/-- A handler logs. -/
theorem step_handler_op {request : Option Request} {frame : InterruptFrame} {o : Op}
    {rest : List Step} {outer : List Active}
    (hs : s.handlers = ⟨request, frame, .plain (.op o) :: rest⟩ :: outer) (ho : o ≠ .halt) :
    step b serialInit beyond addr s .resume = some { s with
      console := s.console.exec o
      handlers := ⟨request, frame, rest⟩ :: outer } := by
  rw [step, hs]
  cases o with
  | halt => exact absurd rfl ho
  | _ => rfl

/-- A handler halts the processor. -/
theorem step_handler_halt {request : Option Request} {frame : InterruptFrame} {rest : List Step}
    {outer : List Active}
    (hs : s.handlers = ⟨request, frame, .plain (.op .halt) :: rest⟩ :: outer) :
    step b serialInit beyond addr s .resume = some { s with
      console := s.console.exec .halt
      interruptFlag := false
      handlers := ⟨request, frame, .plain (.op .halt) :: rest⟩ :: outer } := by
  rw [step, hs]
  rfl

/-- A handler returns when it has nothing left to do. -/
theorem step_finish (hstep : step b serialInit beyond addr s .finish = some s') :
    ∃ a outer, s.handlers = a :: outer ∧ a.steps = [] ∧
      s' = { s with interruptFlag := interruptFlagOf a.frame.rflags, handlers := outer } := by
  rw [step] at hstep
  split at hstep
  · rename_i a outer hhandlers
    split at hstep
    · rename_i hempty
      exact ⟨a, outer, hhandlers, List.isEmpty_iff.mp hempty, (Option.some.inj hstep).symm⟩
    · exact absurd hstep (Option.some_ne_none _).symm
  · exact absurd hstep (Option.some_ne_none _).symm

/-- An interrupt is requested and taken. -/
theorem step_irq (htarget : Programmed target) (hs : Inv target s) {r : Request} {cpu : Cpu}
    {code : Byte} (hstep : step b serialInit beyond addr s (.irq r cpu code) = some s') :
    s.interruptFlag = true ∧ interruptFlagOf cpu.rflags = true ∧ r.Possible s.pics ∧
      ∃ keyUp os, handlerProgram beyond .irqInterruptHandler
          (builtFrame cpu (32 + r.vectorLine.val) 0) s.keyUp code =
            some (keyUp, ops os ++ eoiSteps ((BitVec.ofNat 64 (32 + r.vectorLine.val)).setWidth 8)) ∧
        Op.halt ∉ os ∧ s' = { s with
          pics := r.acknowledge s.pics
          keyUp := keyUp
          interruptFlag := false
          handlers := [⟨some r, builtFrame cpu (32 + r.vectorLine.val) 0,
            ops os ++ eoiSteps ((BitVec.ofNat 64 (32 + r.vectorLine.val)).setWidth 8)⟩] } := by
  rw [step] at hstep
  split at hstep
  · rename_i hguard
    obtain ⟨hflag, hcpu, hpossible⟩ := hguard
    obtain ⟨hrun, hidt, hpics⟩ := hs.ready hflag
    refine ⟨hflag, hcpu, hpossible, ?_⟩
    have hvector : (s.pics.vectorOf r.vectorLine).toNat = 32 + r.vectorLine.val := by
      rw [hpics]
      exact htarget.vectors r.vectorLine
    have hgate : s.idtInForce = true ∧ 32 ≤ 32 + r.vectorLine.val ∧ 32 + r.vectorLine.val < 255 :=
      ⟨hidt, by omega, by omega⟩
    obtain ⟨keyUp, os, hprog, hhalt, henter⟩ :=
      enter_irq beyond addr { s with pics := r.acknowledge s.pics } r cpu code
    refine ⟨keyUp, os, hprog, hhalt, ?_⟩
    simp only [hvector, if_pos hgate, henter] at hstep
    rw [← Option.some.inj hstep]
    simp only [hrun.handlers]
  · exact absurd hstep (Option.some_ne_none _).symm

/-- An exception is raised. -/
theorem step_exception {v : Fin 32} {e : Word} {cpu : Cpu}
    (hstep : step b serialInit beyond addr s (.exception v e cpu) = some s') :
    s.idtInForce = true ∧ ∃ os, handlerProgram beyond .cpuExceptionHandler
        (builtFrame cpu v.val e) s.keyUp 0 = some (s.keyUp, ops (os ++ [.halt])) ∧
      s' = { s with
        interruptFlag := false
        handlers := ⟨none, builtFrame cpu v.val e, ops (os ++ [.halt])⟩ :: s.handlers } := by
  rw [step] at hstep
  split at hstep
  · rename_i hguard
    obtain ⟨os, hprog, henter⟩ := enter_exception beyond addr s v e cpu
    exact ⟨hguard.1, os, hprog, (Option.some.inj (henter.symm.trans hstep)).symm⟩
  · exact absurd hstep (Option.some_ne_none _).symm

/-- The acknowledged controllers come back to `target` at the end of the handler. -/
theorem handling_entered (htarget : Programmed target) (hrun : Running target s)
    (hflag : s.interruptFlag = true) (r : Request) {cpu : Cpu}
    (hcpu : interruptFlagOf cpu.rflags = true) {os : List Op} (hhalt : Op.halt ∉ os)
    (keyUp : Byte) :
    Handling target { s with
        pics := r.acknowledge s.pics
        keyUp := keyUp
        interruptFlag := false
        handlers := [⟨some r, builtFrame cpu (32 + r.vectorLine.val) 0,
          ops os ++ eoiSteps ((BitVec.ofNat 64 (32 + r.vectorLine.val)).setWidth 8)⟩] }
      ⟨some r, builtFrame cpu (32 + r.vectorLine.val) 0,
        ops os ++ eoiSteps ((BitVec.ofNat 64 (32 + r.vectorLine.val)).setWidth 8)⟩ := by
  have hthread := hrun.thread
  have hpics := (hthread.ready hflag).2
  rw [hflag, hpics] at hthread
  refine ⟨rfl, rfl, Option.some_ne_none _, hcpu, leads_ops hhalt ?_, hthread⟩
  have hleads := leads_writes
    (sendEoi ((BitVec.ofNat 64 (32 + r.vectorLine.val)).setWidth 8)) (r.acknowledge target)
  rw [eoi_returns htarget r] at hleads
  rw [hpics]
  exact hleads

/-- Every step keeps the invariant. -/
theorem step_inv (htarget : Programmed target) (hs : Inv target s) {e : Event}
    (hstep : step b serialInit beyond addr s e = some s') : Inv target s' := by
  cases e with
  | resume =>
    rcases step_resume hstep with ⟨a, outer, st, rest, r, hhandlers, hsteps, hperform, rfl⟩ |
      ⟨st, rest, r, hhandlers, hthread, hperform, rfl⟩
    · rcases hs.mode with hrun | ⟨a', hhand⟩ | ⟨a', outer', hstop⟩
      · exact absurd (hhandlers.symm.trans hrun.handlers) (List.cons_ne_nil _ _)
      · obtain ⟨rfl, rfl⟩ := List.cons.inj (hhandlers.symm.trans hhand.handlers)
        obtain ⟨hhand', hlost⟩ := handling_resume hhand hsteps hperform
        exact ⟨hlost.trans hs.found, .inr (.inl ⟨_, hhand'⟩)⟩
      · obtain ⟨rfl, rfl⟩ := List.cons.inj (hhandlers.symm.trans hstop.handlers)
        obtain ⟨hstop', hlost, -⟩ := stopped_resume hstop hsteps hperform
        exact ⟨hlost.trans hs.found, .inr (.inr ⟨_, _, hstop'⟩)⟩
    · rcases hs.mode with hrun | ⟨a', hhand⟩ | ⟨a', outer', hstop⟩
      · obtain ⟨hrun', hlost⟩ := running_resume hrun hthread hperform
        exact ⟨hlost.trans hs.found, .inl hrun'⟩
      · exact absurd (hhandlers.symm.trans hhand.handlers) (List.cons_ne_nil _ _).symm
      · exact absurd (hhandlers.symm.trans hstop.handlers) (List.cons_ne_nil _ _).symm
  | irq r cpu code =>
    obtain ⟨hflag, hcpu, -, keyUp, os, -, hhalt, rfl⟩ := step_irq htarget hs hstep
    obtain ⟨hrun, -, -⟩ := hs.ready hflag
    exact ⟨hs.found, .inr (.inl ⟨_, handling_entered htarget hrun hflag r hcpu hhalt keyUp⟩)⟩
  | exception v e cpu =>
    obtain ⟨-, os, -, rfl⟩ := step_exception hstep
    exact ⟨hs.found, .inr (.inr ⟨_, _, rfl, rfl, rfl, halts_ops os⟩)⟩
  | finish =>
    obtain ⟨a, outer, hhandlers, hsteps, rfl⟩ := step_finish hstep
    rcases hs.mode with hrun | ⟨a', hhand⟩ | ⟨a', outer', hstop⟩
    · exact absurd (hhandlers.symm.trans hrun.handlers) (List.cons_ne_nil _ _)
    · obtain ⟨rfl, rfl⟩ := List.cons.inj (hhandlers.symm.trans hhand.handlers)
      have hleads := hhand.leads
      rw [hsteps] at hleads
      have hpics : s.pics = target := hleads
      refine ⟨hs.found, .inl ⟨rfl, ?_⟩⟩
      show Safe target s.idtInForce (interruptFlagOf a.frame.rflags) s.pics s.byte s.thread
      rw [hhand.flag, hpics]
      exact hhand.thread
    · -- a handler that halts always has a step left
      obtain ⟨rfl, -⟩ := List.cons.inj (hhandlers.symm.trans hstop.handlers)
      have hhalts := hstop.halts
      rw [hsteps] at hhalts
      exact hhalts.elim

end System

theorem start_inv (b : BootMemory) (pics : BootPics) (keyUp byte : Byte) (extent : ℕ)
    (gdtTable idtTable : Addr) : Inv (execCalls startCalls pics.pair)
      (start b pics keyUp byte extent gdtTable idtTable) :=
  ⟨rfl, .inl ⟨rfl, safe_startProgram ..⟩⟩

/-! ### What holds in every run -/

/-- An interrupt was taken in `_start` itself, through the kernel's table, into
`irq_interrupt_handler` with the frame of the line's vector. -/
structure IrqTaken (beyond : ℕ → Option Handler) (r : Request) (cpu : Cpu) (code : Byte)
    (s s' : State) : Prop where
  alone : s.handlers = []
  table : s.idtInForce = true
  handler : ∃ steps,
    s'.handlers = [⟨some r, builtFrame cpu (32 + r.vectorLine.val) 0, steps⟩] ∧
      handlerProgram beyond .irqInterruptHandler (builtFrame cpu (32 + r.vectorLine.val) 0) s.keyUp
        code = some (s'.keyUp, steps)

/-- A line that is masked cannot be taken. -/
theorem unmasked_eq (p : Pair) (k : Fin 16) :
    Unmasked p k = (!p.mask.getLsbD k && (decide (k.val < 8) || !p.mask.getLsbD 2)) := by
  have hlow : ∀ i < 8, p.mask.getLsbD i = p.master.imr.getLsbD i := by
    intro i hi
    rw [Pair.mask, BitVec.getLsbD_append, if_pos hi]
  have htwo := hlow 2 (by decide)
  rw [Unmasked]
  by_cases hk : k.val < 8
  · rw [if_pos hk, hlow k.val hk, decide_eq_true hk, Bool.true_or, Bool.and_true]
  · have hhigh : p.mask.getLsbD k = p.slave.imr.getLsbD (k - 8) := by
      rw [Pair.mask, BitVec.getLsbD_append, if_neg hk]
    rw [if_neg hk, hhigh, htwo, decide_eq_false hk, Bool.false_or]

/-- The lines that can interrupt: the keyboard's, and those the boot loader left unmasked. -/
def CanInterrupt (mask : BitVec 16) : Request → Prop
  | .line k => k.val = 1 ∨ mask.getLsbD k = false ∧ (k.val < 8 ∨ mask.getLsbD 2 = false)
  | .spuriousMaster => True
  | .spuriousSlave => mask.getLsbD 2 = false

/-- `_start` unmasks line 1, and no other. -/
theorem canInterrupt_of_possible (pics : BootPics) {r : Request}
    (h : r.Possible (execCalls startCalls pics.pair)) : CanInterrupt pics.pair.mask r := by
  have hmask := startCalls_mask pics.pair pics.operational
  cases r with
  | line k =>
    have hopen := h.1
    rw [unmasked_eq, hmask, hmask] at hopen
    by_cases hk : k.val = 1
    · exact .inl hk
    · simp only [hk, ne_eq, not_false_eq_true, decide_true, Bool.and_true, Bool.and_eq_true,
        Bool.not_eq_true', Bool.or_eq_true, decide_eq_true_eq, OfNat.ofNat_ne_one] at hopen
      exact .inr hopen
  | spuriousMaster => trivial
  | spuriousSlave =>
    have hbit := hmask 2
    rw [Pair.mask, BitVec.getLsbD_append, if_pos (by decide), h.1] at hbit
    exact (hbit.trans (Bool.and_true _)).symm

/-- The handler of line 1 is the keyboard's. -/
theorem handlerProgram_keyboard (beyond : ℕ → Option Handler) (cpu : Cpu) (keyUp code : Byte) :
    handlerProgram beyond .irqInterruptHandler (builtFrame cpu 33 0) keyUp code =
      some (Keyboard.keyUpAfter keyUp code,
        ops (Keyboard.keySteps (keyUp ≠ 0) code) ++ eoiSteps 33) := by
  have hf : isIrqInterrupt (builtFrame cpu 33 0).intNo = true := isIrqInterrupt_builtFrame cpu 1 0
  have hread : (installedHandlers beyond).read (builtFrame cpu 33 0).intNo.toNat =
      some .keyboard := rfl
  rw [handlerProgram_irq beyond hf, interruptSteps_keyboard beyond keyUp code hf hread]
  rfl

section Runs

variable (b : BootMemory) (serialInit : Bool) (beyond : ℕ → Option Handler) (addr : Label → Addr)
variable (pics : BootPics) (keyUp byte : Byte) (extent : ℕ) (gdtTable idtTable : Addr)

/-- **Interrupts arrive right.** In every run of the kernel control never leaves it; an IRQ is taken
only when no handler runs, and enters `irq_interrupt_handler` with the frame of vector `32 + k`; and
it is the keyboard's, one of a line the boot loader had left unmasked, or spurious. -/
theorem irq_delivery (es : List Event) :
    (machine b serialInit beyond addr).Along (fun s e s' => s'.lost = false ∧
        ∀ r cpu code, e = .irq r cpu code →
          IrqTaken beyond r cpu code s s' ∧ CanInterrupt pics.pair.mask r)
      (start b pics keyUp byte extent gdtTable idtTable) es := by
  have htarget := programmed_start pics
  refine Machine.along_of_invariant (I := Inv (execCalls startCalls pics.pair)) ?_
    (start_inv b pics keyUp byte extent gdtTable idtTable) es
  intro s e s' hs hstep
  have hs' := step_inv htarget hs hstep
  refine ⟨hs', hs'.found, ?_⟩
  rintro r cpu code rfl
  have hirq : step b serialInit beyond addr s (.irq r cpu code) = some s' := hstep
  obtain ⟨hflag, -, hpossible, keyUp', os, hprog, -, rfl⟩ := step_irq htarget hs hirq
  obtain ⟨hrun, hidt, hpics⟩ := hs.ready hflag
  rw [hpics] at hpossible
  exact ⟨⟨hrun.handlers, hidt, _, rfl, hprog⟩, canInterrupt_of_possible pics hpossible⟩

/-- **The controllers come back.** In every run, whenever the interrupt flag is set, no handler runs
and the controllers are exactly as `_start` has programmed them, with nothing in service, so every
line is accepted again; and a handler that returns leaves the flag set. -/
theorem controllers_restored (es : List Event) :
    (machine b serialInit beyond addr).Along (fun _ e s' =>
        (s'.interruptFlag = true → s'.handlers = [] ∧
          s'.pics = execCalls startCalls pics.pair ∧ ∀ k, s'.pics.Accepts k) ∧
        (e = .finish → s'.interruptFlag = true))
      (start b pics keyUp byte extent gdtTable idtTable) es := by
  have htarget := programmed_start pics
  refine Machine.along_of_invariant (I := Inv (execCalls startCalls pics.pair)) ?_
    (start_inv b pics keyUp byte extent gdtTable idtTable) es
  intro s e s' hs hstep
  have hs' := step_inv htarget hs hstep
  refine ⟨hs', ?_, ?_⟩
  · intro hflag
    obtain ⟨hrun, -, hpics⟩ := hs'.ready hflag
    refine ⟨hrun.handlers, hpics, ?_⟩
    intro k
    rw [hpics, Pair.Accepts, htarget.masterIdle, htarget.slaveIdle]
    exact ⟨fun j _ => BitVec.getLsbD_zero, fun _ j _ => BitVec.getLsbD_zero⟩
  · rintro rfl
    have hfinish : step b serialInit beyond addr s .finish = some s' := hstep
    obtain ⟨a, outer, hhandlers, hsteps, rfl⟩ := step_finish hfinish
    rcases hs.mode with hrun | ⟨a', hhand⟩ | ⟨a', outer', hstop⟩
    · exact absurd (hhandlers.symm.trans hrun.handlers) (List.cons_ne_nil _ _)
    · obtain ⟨rfl, -⟩ := List.cons.inj (hhandlers.symm.trans hhand.handlers)
      exact hhand.flag
    · obtain ⟨rfl, -⟩ := List.cons.inj (hhandlers.symm.trans hstop.handlers)
      have hhalts := hstop.halts
      rw [hsteps] at hhalts
      exact hhalts.elim

end Runs

end MegaOS.Kernel
