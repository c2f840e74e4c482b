import MegaOS.Interrupts.FrameFidelity

/-!
# Dispatch of interrupts

The two C++ handlers the stubs call, with assertions on. What they do is
recorded as a list of effects, in order: the elements of the tables they read,
the panic or handler they reach, the end-of-interrupt command. An effect that
does not return ends the list.

Four tables are indexed by the one number in the frame. The guard of the IRQ
handler admits 255, and `handlers` has 255 elements.
-/

namespace MegaOS.Interrupts

open MegaOS.Memory

/-- `EXCEPTION_COUNT`. -/
def exceptionCount : ℕ := 32

inductive ClassType
  | fault
  | trap
  | abort
  | interrupt
  | reserved
  deriving DecidableEq, Repr

/-- `int_type_lut`. -/
def intTypeLut : List ClassType :=
  [.fault, .fault, .interrupt, .trap, .trap, .fault, .fault, .fault, .abort, .fault, .fault, .fault,
    .fault, .fault, .fault, .reserved, .fault, .fault, .abort, .fault, .fault, .fault, .reserved,
    .reserved, .reserved, .reserved, .reserved, .reserved, .reserved, .reserved, .reserved,
    .reserved]

/-- `exception_desc`. -/
def exceptionDesc : List String :=
  ["Divide Error", "Debug Exception", "NMI Interrupt", "Breakpoint", "Overflow",
    "BOUND Range Exceeded", "Invalid Opcode", "Device Not Available", "Double Fault",
    "Coprocessor Segment Overrun", "Invalid TSS", "Segment Not Present", "Stack-Segment-Fault",
    "General Protection", "Page Fault", "Intel Reserved (15)", "x87 FPU Floating-Point Error",
    "Alignment Check", "Machine Check", "SIMD Floating-Point Exception", "Virtualization Exception",
    "Control Protection Exception", "Intel Reserved (22)", "Intel Reserved (23)",
    "Intel Reserved (24)", "Intel Reserved (25)", "Intel Reserved (26)", "Intel Reserved (27)",
    "Intel Reserved (28)", "Intel Reserved (29)", "Intel Reserved (30)", "Intel Reserved (31)"]

/-- The tables indexed by `int_no`. -/
inductive Table
  | intTypeLut
  | handlers
  | exceptionDesc
  deriving DecidableEq, Repr

/-- The declared number of elements. -/
def Table.size : Table → ℕ
  | .intTypeLut => exceptionCount
  | .handlers => 255
  | .exceptionDesc => exceptionCount

theorem intTypeLut_length : intTypeLut.length = Table.size .intTypeLut := rfl

theorem exceptionDesc_length : exceptionDesc.length = Table.size .exceptionDesc := rfl

/-- `handlers`, an array of function pointers that may be null, and the words that happen to lie
behind it in memory. -/
structure HandlerTable (H : Type*) where
  cells : Fin (Table.size .handlers) → Option H
  beyond : ℕ → Option H

/-- `operator[]` of `mkl::array`: no bound check. -/
def HandlerTable.read {H : Type*} (t : HandlerTable H) (i : ℕ) : Option H :=
  if h : i < Table.size .handlers then t.cells ⟨i, h⟩ else t.beyond i

/-- What a dispatcher does, step by step. -/
inductive Effect (H : Type*)
  /-- An element of a table is read. -/
  | access (t : Table) (i : ℕ)
  /-- `assertion_failed`: logs and halts. -/
  | assertionFailed (expr : String)
  /-- `kpanic(cause, frame)`: dumps the frame and halts. -/
  | kpanic (cause : String) (frame : InterruptFrame)
  /-- `handlers[int_no](frame)`. -/
  | callHandler (h : H) (frame : InterruptFrame)
  /-- The log message for an IRQ without a handler. -/
  | logUnhandled (intNo : Word)
  /-- `pic::send_eoi`, with its argument narrowed to a byte. -/
  | sendEoi (irqNo : Byte)

/-- `is_cpu_exception`. -/
def isCpuException (intNo : Word) : Bool := intNo.toNat < exceptionCount

/-- `is_irq_interrupt`. -/
def isIrqInterrupt (intNo : Word) : Bool := exceptionCount ≤ intNo.toNat ∧ intNo.toNat < 256

theorem isCpuException_iff {n : Word} : isCpuException n = true ↔ n.toNat < 32 := decide_eq_true_iff

theorem isIrqInterrupt_iff {n : Word} : isIrqInterrupt n = true ↔ 32 ≤ n.toNat ∧ n.toNat < 256 :=
  decide_eq_true_iff

/-- `get_class_type`; the guard before its only call keeps the index inside the table. -/
def getClassType (intNo : Word) : ClassType := intTypeLut.getD intNo.toNat .reserved

section Dispatchers

variable {H : Type*} (handlers : HandlerTable H)

/-- `kpanic(cause, frame)` reads the description of an exception for its dump. -/
def kpanicEffects (cause : String) (f : InterruptFrame) : List (Effect H) :=
  if isCpuException f.intNo then [.access .exceptionDesc f.intNo.toNat, .kpanic cause f]
  else [.kpanic cause f]

/-- `cpu_exception_handler`. -/
def cpuExceptionHandler : Option InterruptFrame → List (Effect H)
  | none => [.assertionFailed "frame"]
  | some f =>
    if ¬isCpuException f.intNo then [.assertionFailed "is_cpu_exception(frame->int_no)"]
    else
      .access .intTypeLut f.intNo.toNat ::
        if getClassType f.intNo = .abort then kpanicEffects "CPU interrupt of class abort." f
        else
          .access .handlers f.intNo.toNat ::
            match handlers.read f.intNo.toNat with
            | some h => [.access .handlers f.intNo.toNat, .callHandler h f]
            | none => kpanicEffects "CPU interrupt with no handler" f

/-- `irq_interrupt_handler`; `returns h` says whether the handler `h` comes back. -/
def irqInterruptHandler (returns : H → Bool) : Option InterruptFrame → List (Effect H)
  | none => [.assertionFailed "frame"]
  | some f =>
    if ¬isIrqInterrupt f.intNo then [.assertionFailed "is_irq_interrupt(frame->int_no)"]
    else
      .access .handlers f.intNo.toNat ::
        match handlers.read f.intNo.toNat with
        | some h =>
            .access .handlers f.intNo.toNat :: .callHandler h f ::
              if returns h then [.sendEoi (f.intNo.setWidth 8)] else []
        | none => [.logUnhandled f.intNo, .sendEoi (f.intNo.setWidth 8)]

/-- The handler a stub calls. -/
def dispatch (returns : H → Bool) (c : Callee) (frame : Option InterruptFrame) : List (Effect H) :=
  match c with
  | .cpuExceptionHandler => cpuExceptionHandler handlers frame
  | .irqInterruptHandler => irqInterruptHandler handlers returns frame

end Dispatchers

/-! ### What dispatch owes -/

def Effect.isAccess {H : Type*} : Effect H → Bool
  | .access _ _ => true
  | _ => false

/-- What a dispatcher does apart from reading tables, in order. -/
def visible {H : Type*} (es : List (Effect H)) : List (Effect H) :=
  es.filter fun e => !e.isAccess

section Contract

variable {H : Type*} (handlers : HandlerTable H) (returns : H → Bool)

/-- Every table element read lies inside its table. -/
def InBounds (es : List (Effect H)) : Prop := ∀ t i, Effect.access t i ∈ es → i < t.size

/-- An exception does one of three things: it panics as an abort, runs its handler, or panics as
unhandled. It never ends an interrupt. -/
def ExceptionActs (f : InterruptFrame) (es : List (Effect H)) : Prop :=
  (getClassType f.intNo = .abort ∧ visible es = [.kpanic "CPU interrupt of class abort." f]) ∨
    (getClassType f.intNo ≠ .abort ∧ ∃ h, handlers.read f.intNo.toNat = some h ∧
      visible es = [.callHandler h f]) ∨
    (getClassType f.intNo ≠ .abort ∧ handlers.read f.intNo.toNat = none ∧
      visible es = [.kpanic "CPU interrupt with no handler" f])

/-- An IRQ does one of two things: it runs its handler or logs that there is none. When that
returns, the interrupt is ended once. -/
def IrqActs (f : InterruptFrame) (es : List (Effect H)) : Prop :=
  (∃ h, handlers.read f.intNo.toNat = some h ∧
      visible es = .callHandler h f ::
        if returns h then [.sendEoi (f.intNo.setWidth 8)] else []) ∨
    (handlers.read f.intNo.toNat = none ∧
      visible es = [.logUnhandled f.intNo, .sendEoi (f.intNo.setWidth 8)])

/-- The numbers a dispatcher admits. -/
def Admits : Callee → Word → Bool
  | .cpuExceptionHandler => isCpuException
  | .irqInterruptHandler => isIrqInterrupt

/-- What an admitted frame owes. -/
def Acts (c : Callee) (f : InterruptFrame) (es : List (Effect H)) : Prop :=
  match c with
  | .cpuExceptionHandler => ExceptionActs handlers f es
  | .irqInterruptHandler => IrqActs handlers returns f es

/-- A dispatcher that does not admit the frame, or is given none, stops in an assertion; with one
that it admits, it stays inside its tables and acts exactly once. -/
def DispatchOk (c : Callee) (frame : Option InterruptFrame) (es : List (Effect H)) : Prop :=
  ((∀ f, frame = some f → Admits c f.intNo = false) ∧ ∃ expr, es = [.assertionFailed expr]) ∨
    ∃ f, frame = some f ∧ Admits c f.intNo = true ∧ InBounds es ∧ Acts handlers returns c f es

/-! ### One lemma for each dispatcher -/

theorem kpanicEffects_spec (cause : String) (f : InterruptFrame) :
    InBounds (kpanicEffects (H := H) cause f) ∧
      visible (kpanicEffects (H := H) cause f) = [.kpanic cause f] := by
  unfold kpanicEffects
  split
  · rename_i h
    have hlt : f.intNo.toNat < 32 := isCpuException_iff.mp h
    refine ⟨?_, rfl⟩
    intro t i hmem
    simp only [List.mem_cons, Effect.access.injEq, reduceCtorEq, List.not_mem_nil,
      or_false] at hmem
    obtain ⟨rfl, rfl⟩ := hmem
    exact hlt
  · exact ⟨fun t i hmem => by simp at hmem, rfl⟩

theorem inBounds_cons {t : Table} {i : ℕ} {es : List (Effect H)} (hi : i < t.size)
    (h : InBounds es) : InBounds (.access t i :: es) := by
  intro t' i' hmem
  rcases List.mem_cons.mp hmem with heq | hmem
  · obtain ⟨rfl, rfl⟩ := Effect.access.inj heq
    exact hi
  · exact h t' i' hmem

/-- The exception dispatcher meets its contract on every admitted frame. -/
theorem cpuExceptionHandler_spec (f : InterruptFrame) (hf : isCpuException f.intNo = true) :
    InBounds (cpuExceptionHandler handlers (some f)) ∧
      ExceptionActs handlers f (cpuExceptionHandler handlers (some f)) := by
  have hlt : f.intNo.toNat < 32 := isCpuException_iff.mp hf
  have hhand : f.intNo.toNat < Table.size .handlers := Nat.lt_trans hlt (by decide)
  simp only [cpuExceptionHandler, hf, not_true_eq_false, if_false]
  by_cases habort : getClassType f.intNo = .abort
  · obtain ⟨hb, ha⟩ := kpanicEffects_spec (H := H) "CPU interrupt of class abort." f
    rw [if_pos habort]
    exact ⟨inBounds_cons hlt hb, .inl ⟨habort, ha⟩⟩
  · rw [if_neg habort]
    cases hread : handlers.read f.intNo.toNat with
    | some h =>
      refine ⟨?_, .inr (.inl ⟨habort, h, hread, rfl⟩)⟩
      refine inBounds_cons hlt (inBounds_cons hhand (inBounds_cons hhand ?_))
      intro t i hmem
      simp at hmem
    | none =>
      obtain ⟨hb, ha⟩ := kpanicEffects_spec (H := H) "CPU interrupt with no handler" f
      exact ⟨inBounds_cons hlt (inBounds_cons hhand hb), .inr (.inr ⟨habort, hread, ha⟩)⟩

/-- The IRQ dispatcher acts once on every admitted frame. -/
theorem irqInterruptHandler_acts (f : InterruptFrame) (hf : isIrqInterrupt f.intNo = true) :
    IrqActs handlers returns f (irqInterruptHandler handlers returns (some f)) := by
  simp only [irqInterruptHandler, hf, not_true_eq_false, if_false]
  cases hread : handlers.read f.intNo.toNat with
  | some h =>
    refine .inl ⟨h, hread, ?_⟩
    cases hret : returns h <;> simp [visible, Effect.isAccess, hret]
  | none => exact .inr ⟨hread, rfl⟩

/-- It reads `handlers` at the vector, and nothing else. -/
theorem irqInterruptHandler_inBounds_iff (f : InterruptFrame)
    (hf : isIrqInterrupt f.intNo = true) :
    InBounds (irqInterruptHandler handlers returns (some f)) ↔
      f.intNo.toNat < Table.size .handlers := by
  simp only [irqInterruptHandler, hf, not_true_eq_false, if_false]
  constructor
  · intro h
    exact h .handlers f.intNo.toNat List.mem_cons_self
  · intro hlt
    apply inBounds_cons hlt
    cases handlers.read f.intNo.toNat with
    | some h =>
      apply inBounds_cons hlt
      intro t i hmem
      cases hret : returns h <;> simp [hret] at hmem
    | none =>
      intro t i hmem
      simp at hmem

/-- Interrupt 255 is admitted and read behind the end of `handlers`. -/
theorem irqInterruptHandler_255 (f : InterruptFrame) (h : f.intNo = 255) :
    ¬DispatchOk handlers returns .irqInterruptHandler (some f)
      (irqInterruptHandler handlers returns (some f)) := by
  have hadm : isIrqInterrupt f.intNo = true := by rw [h]; decide
  rintro (⟨hnot, -⟩ | ⟨_, -, -, hb, -⟩)
  · exact Bool.noConfusion (hadm.symm.trans (hnot f rfl))
  · have hlt := (irqInterruptHandler_inBounds_iff handlers returns f hadm).mp hb
    rw [h] at hlt
    exact absurd hlt (by decide)

/-- **Dispatch.** Both dispatchers keep inside their tables and act exactly once, for every table
content and every frame, except the IRQ dispatcher on interrupt 255, which it admits and which
`handlers` does not have. -/
theorem dispatchOk_iff (c : Callee) (frame : Option InterruptFrame) :
    DispatchOk handlers returns c frame (dispatch handlers returns c frame) ↔
      ¬(c = .irqInterruptHandler ∧ ∃ f, frame = some f ∧ f.intNo = 255) := by
  constructor
  · rintro hok ⟨rfl, f, rfl, h⟩
    exact irqInterruptHandler_255 handlers returns f h hok
  · intro hne
    cases frame with
    | none =>
      have hnot : ∀ f : InterruptFrame, none = some f → Admits c f.intNo = false :=
        fun f h => absurd h.symm (Option.some_ne_none f)
      cases c with
      | cpuExceptionHandler => exact .inl ⟨hnot, _, rfl⟩
      | irqInterruptHandler => exact .inl ⟨hnot, _, rfl⟩
    | some f =>
      cases c with
      | cpuExceptionHandler =>
        by_cases hf : isCpuException f.intNo = true
        · obtain ⟨hb, ha⟩ := cpuExceptionHandler_spec handlers f hf
          exact .inr ⟨f, rfl, hf, hb, ha⟩
        · refine .inl ⟨?_, "is_cpu_exception(frame->int_no)", if_pos hf⟩
          intro f' hf'
          obtain rfl := Option.some.inj hf'
          exact eq_false_of_ne_true hf
      | irqInterruptHandler =>
        by_cases hf : isIrqInterrupt f.intNo = true
        · have hrange := isIrqInterrupt_iff.mp hf
          have hnot : f.intNo.toNat ≠ 255 := fun h =>
            hne ⟨rfl, f, rfl, BitVec.eq_of_toNat_eq h⟩
          have hlt : f.intNo.toNat < 255 := by omega
          exact .inr ⟨f, rfl, hf,
            (irqInterruptHandler_inBounds_iff handlers returns f hf).mpr hlt,
            irqInterruptHandler_acts handlers returns f hf⟩
        · refine .inl ⟨?_, "is_irq_interrupt(frame->int_no)", if_pos hf⟩
          intro f' hf'
          obtain rfl := Option.some.inj hf'
          exact eq_false_of_ne_true hf

end Contract

/-- The frame of vector 255's stub, with an empty handler table. -/
theorem irq255_not_dispatchOk :
    ¬DispatchOk (H := Unit) ⟨fun _ => none, fun _ => none⟩ (fun _ => true) .irqInterruptHandler
      (some (builtFrame zeroCpu 255 0))
      (dispatch ⟨fun _ => none, fun _ => none⟩ (fun _ => true) .irqInterruptHandler
        (some (builtFrame zeroCpu 255 0))) :=
  irqInterruptHandler_255 _ _ _ rfl

end MegaOS.Interrupts
