import MegaOS.Interrupts.Frame

/-!
# The entry stubs of `isr.asm`

Every vector has a stub that pushes two words and jumps to one of two common
paths; the common path saves the registers, passes the stack pointer to a C++
handler and undoes everything on the way back. The macros keep their names, and
their expansions are instruction lists.
-/

namespace MegaOS.Interrupts

open MegaOS.Memory MegaOS.Assembly

/-- The code labels of the file. -/
inductive Label
  | exceptionHandler (v : ℕ)
  | interruptHandler (v : ℕ)
  | handleIsrCommon
  | handleIrqCommon
  deriving DecidableEq, Repr

/-- The two `extern` C++ handlers. -/
inductive Callee
  | cpuExceptionHandler
  | irqInterruptHandler
  deriving DecidableEq, Repr

abbrev AsmLine := Line Label Callee

/-- `pusha64`: push 64 bit GPRs. -/
def pusha64 : List Instr :=
  [.push .rax, .push .rbx, .push .rcx, .push .rdx, .push .rbp, .push .rdi, .push .rsi, .push .r8,
    .push .r9, .push .r10, .push .r11, .push .r12, .push .r13, .push .r14, .push .r15]

/-- `popa64`: pop 64 bit GPRs. -/
def popa64 : List Instr :=
  [.pop .r15, .pop .r14, .pop .r13, .pop .r12, .pop .r11, .pop .r10, .pop .r9, .pop .r8, .pop .rsi,
    .pop .rdi, .pop .rbp, .pop .rdx, .pop .rcx, .pop .rbx, .pop .rax]

/-- For the exceptions whose error code the processor has already pushed. -/
def makeExceptionHandlerErr (v : ℕ) : List AsmLine :=
  [.op (.pushImm (BitVec.ofNat 64 v)), .jmp .handleIsrCommon]

/-- For the other exceptions, with a dummy error code 0. -/
def makeExceptionHandlerNoerr (v : ℕ) : List AsmLine :=
  [.op (.pushImm 0), .op (.pushImm (BitVec.ofNat 64 v)), .jmp .handleIsrCommon]

def makeIrqHandler (v : ℕ) : List AsmLine :=
  [.op (.pushImm (BitVec.ofNat 64 v)), .op (.pushImm 0), .jmp .handleIrqCommon]

/-- The lines of both common paths up to the call, and after it. -/
def handlerPrologue : List Instr := .cld :: pusha64 ++ [.movRsp .rdi]

def handlerEpilogue : List Instr := popa64 ++ [.addRsp 16]

def handleIsrCommon : List AsmLine :=
  handlerPrologue.map .op ++ .call .cpuExceptionHandler :: (handlerEpilogue.map .op ++ [.iretq])

def handleIrqCommon : List AsmLine :=
  handlerPrologue.map .op ++ .call .irqInterruptHandler :: (handlerEpilogue.map .op ++ [.iretq])

/-- The two exception stub macros. -/
inductive ExceptionMacro
  | err
  | noerr
  deriving DecidableEq, Repr

/-- The exception stubs, one macro call a vector. -/
def exceptionStubs : List (ℕ × ExceptionMacro) :=
  [(0, .noerr), (1, .noerr), (2, .noerr), (3, .noerr),
    (4, .noerr), (5, .noerr), (6, .noerr), (7, .noerr),
    (8, .err), (9, .noerr), (10, .err), (11, .err),
    (12, .err), (13, .err), (14, .err), (15, .noerr),
    (16, .noerr), (17, .err), (18, .noerr), (19, .noerr),
    (20, .noerr), (21, .err), (22, .noerr), (23, .noerr),
    (24, .noerr), (25, .noerr), (26, .noerr), (27, .noerr),
    (28, .noerr), (29, .noerr), (30, .err), (31, .noerr)]

/-- The IRQ stubs: `make_irq_handler 32` to `make_irq_handler 255`. -/
def irqStubs : List ℕ := List.range' 32 224

/-- The text section: the lines after each label. -/
def text : Label → List AsmLine
  | .handleIsrCommon => handleIsrCommon
  | .handleIrqCommon => handleIrqCommon
  | .exceptionHandler v =>
      match exceptionStubs.lookup v with
      | some .err => makeExceptionHandlerErr v
      | some .noerr => makeExceptionHandlerNoerr v
      | none => []
  | .interruptHandler v => if v ∈ irqStubs then makeIrqHandler v else []

/-- The stub of a vector. -/
def stubOf (v : ℕ) : Label := if v < 32 then .exceptionHandler v else .interruptHandler v

/-- The vectors whose stub is made with `make_exception_handler_err`. -/
def hasErrStub (v : ℕ) : Bool := exceptionStubs.lookup v == some .err

/-! ### The common paths -/

theorem pusha64_eq : pusha64 = Registers.fieldOrder.reverse.map .push := rfl

theorem popa64_eq : popa64 = Registers.fieldOrder.map .pop := rfl

theorem mem_fieldOrder (r : Reg) : r ∈ Registers.fieldOrder := by cases r <;> decide

/-- **Prologue.** From a stack that holds the words `ws`, the prologue leaves the registers in field
order on top of them and passes the address of the first in `rdi`. -/
theorem prologue_spec (s : Cpu) (ws : List Word) (h : WordsAt s.mem s.rsp ws)
    (hlen : ws.length ≤ 1000) :
    ∃ t, execAll handlerPrologue s = t ∧ t.gpr .rdi = t.rsp ∧ t.rsp = s.rsp - 120 ∧
      WordsAt t.mem t.rsp (Registers.fieldOrder.map s.gpr ++ ws) := by
  obtain ⟨t, hrun, -, hrsp, hwords⟩ := execAll_push Registers.fieldOrder.reverse
    (Instr.cld.exec s) ws h (by simp [Registers.fieldOrder]; omega)
  refine ⟨(Instr.movRsp .rdi).exec t, ?_, ?_, hrsp, ?_⟩
  · show execAll (pusha64 ++ [.movRsp .rdi]) (Instr.cld.exec s) = _
    rw [execAll_append, pusha64_eq, hrun]
    rfl
  · show Function.update t.gpr .rdi t.rsp .rdi = t.rsp
    rw [Function.update_self]
  · rw [List.map_reverse, List.reverse_reverse] at hwords
    exact hwords

/-- **Epilogue.** From a stack that holds the image of a frame, the epilogue and `iretq` restore
every register from the field of its name and resume at the frame's `rip`, `cs`, `rflags`, `rsp`
and `ss`; the vector and the error code are dropped. -/
theorem epilogue_spec (u : Cpu) (f : InterruptFrame) (h : WordsAt u.mem u.rsp f.words) :
    ∃ t, execAll handlerEpilogue u = t ∧ (∀ r, t.iretq.gpr r = f.gprs.get r) ∧
      t.iretq.rip = f.rip ∧ t.iretq.sel .cs = f.cs ∧ t.iretq.rflags = f.rflags ∧
      t.iretq.rsp = f.rsp ∧ t.iretq.sel .ss = f.ss := by
  obtain ⟨t, hrun, -, -, -, hwords, hgpr⟩ := execAll_pop f.gprs.get Registers.fieldOrder u _ h
  refine ⟨(Instr.addRsp 16).exec t, ?_, ?_, ?_⟩
  · show execAll (popa64 ++ [.addRsp 16]) u = _
    rw [execAll_append, popa64_eq, hrun]
    rfl
  · intro r
    exact hgpr r (.inl (mem_fieldOrder r))
  · obtain ⟨-, -, hret⟩ := hwords
    rw [show t.rsp + 8 + 8 = t.rsp + 16 from by rw [add_assoc]; rfl] at hret
    obtain ⟨hrip, hcs, hfl, hsp, hss, -⟩ := iretq_of_wordsAt (s := (Instr.addRsp 16).exec t) hret
    exact ⟨hrip, hcs, hfl, hsp, hss⟩

end MegaOS.Interrupts
