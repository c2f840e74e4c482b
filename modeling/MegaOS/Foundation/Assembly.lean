import MegaOS.Foundation.Memory

/-!
# A fragment of 64-bit mode assembly

The register file, the stack instructions an interrupt entry path is made of,
straight-line execution, and what the processor itself does when it delivers an
interrupt and when it executes `iretq`. Code is a table of labelled line lists;
`run` follows jumps until the code calls out or returns from the interrupt.

Selectors are carried as the zero-extended 64-bit words the processor pushes and
pops. The arithmetic flags `add` leaves behind are not tracked: no instruction
here reads them. Exceptions raised by the instructions themselves are outside
this model.
-/

namespace MegaOS.Assembly

open MegaOS.Memory

/-- The general purpose registers other than the stack pointer. -/
inductive Reg
  | rax | rbx | rcx | rdx | rbp | rdi | rsi
  | r8 | r9 | r10 | r11 | r12 | r13 | r14 | r15
  deriving DecidableEq, Repr

/-- The registers a callee must preserve under the System V calling convention. -/
def calleeSaved : List Reg := [.rbx, .rbp, .r12, .r13, .r14, .r15]

inductive SegReg
  | cs | ds | es | fs | gs | ss
  deriving DecidableEq, Repr

structure Cpu where
  gpr : Reg → Word
  rsp : Addr
  rip : Addr
  rflags : Word
  sel : SegReg → Word
  mem : Mem

def Cpu.push (s : Cpu) (v : Word) : Cpu :=
  { s with rsp := s.rsp - 8, mem := s.mem.store64 (s.rsp - 8) v }

/-- The direction flag, bit 10 of RFLAGS. -/
def flagDF : Word := 0x400

/-- The bits of RFLAGS an interrupt gate clears: TF, IF, NT and RF. -/
def gateClears : Word := 0x14300

inductive Instr
  | push (r : Reg)
  | pushImm (v : Word)
  | pop (r : Reg)
  | movRsp (dst : Reg)
  | addRsp (n : Word)
  | cld

def Instr.exec : Instr → Cpu → Cpu
  | .push r, s => s.push (s.gpr r)
  | .pushImm v, s => s.push v
  | .pop r, s =>
      { s with gpr := Function.update s.gpr r (s.mem.load64 s.rsp), rsp := s.rsp + 8 }
  | .movRsp dst, s => { s with gpr := Function.update s.gpr dst s.rsp }
  | .addRsp n, s => { s with rsp := s.rsp + n }
  | .cld, s => { s with rflags := s.rflags &&& ~~~flagDF }

/-- Straight-line execution. -/
def execAll : List Instr → Cpu → Cpu
  | [], s => s
  | i :: is, s => execAll is (i.exec s)

theorem execAll_append (is js : List Instr) (s : Cpu) :
    execAll (is ++ js) s = execAll js (execAll is s) := by
  induction is generalizing s with
  | nil => rfl
  | cons i is ih => exact ih (i.exec s)

/-! ### Interrupt delivery and return -/

/-- **Delivery.** The processor aligns the stack pointer down to 16 bytes, pushes `ss`, `rsp`,
`rflags`, `cs` and `rip` as they were, then the error code if the vector has one, and enters the
gate's code at the same privilege level. -/
def Cpu.deliver (s : Cpu) (selector : Word) (offset : Addr) (errorCode : Option Word) : Cpu :=
  let aligned : Cpu := { s with rsp := s.rsp &&& ~~~15 }
  let saved := ((((aligned.push (s.sel .ss)).push s.rsp).push s.rflags).push (s.sel .cs)).push s.rip
  let full := match errorCode with
    | none => saved
    | some e => saved.push e
  { full with
    rip := offset
    rflags := s.rflags &&& ~~~gateClears
    sel := Function.update s.sel .cs selector }

/-- `iretq` pops `rip`, `cs`, `rflags`, `rsp` and `ss`. -/
def Cpu.iretq (s : Cpu) : Cpu :=
  { s with
    rip := s.mem.load64 s.rsp
    rflags := s.mem.load64 (s.rsp + 16)
    rsp := s.mem.load64 (s.rsp + 24)
    sel := Function.update (Function.update s.sel .cs (s.mem.load64 (s.rsp + 8)))
      .ss (s.mem.load64 (s.rsp + 32)) }

/-! ### Labelled code -/

/-- A line of code over labels `L` that may call functions `F` outside it. -/
inductive Line (L F : Type*)
  | op (i : Instr)
  | jmp (l : L)
  | call (f : F)
  | iretq

/-- Where a run of labelled code stops: at a call out, with the lines that follow the call, or
after `iretq`. -/
inductive Stop (L F : Type*)
  | calls (f : F) (rest : List (Line L F)) (s : Cpu)
  | returns (s : Cpu)

/-- Runs lines until they call out or return; `none` when the code runs off its end or takes more
than `fuel` jumps. -/
def run {L F : Type*} (code : L → List (Line L F)) : ℕ → List (Line L F) → Cpu → Option (Stop L F)
  | _, [], _ => none
  | n, .op i :: ls, s => run code n ls (i.exec s)
  | _, .call f :: ls, s => some (.calls f ls s)
  | _, .iretq :: _, s => some (.returns s.iretq)
  | 0, .jmp _ :: _, _ => none
  | n + 1, .jmp l :: _, s => run code n (code l) s

section Run

variable {L F : Type*} (code : L → List (Line L F))

@[simp] theorem run_op (n : ℕ) (i : Instr) (ls : List (Line L F)) (s : Cpu) :
    run code n (.op i :: ls) s = run code n ls (i.exec s) := by rw [run]

@[simp] theorem run_call (n : ℕ) (f : F) (ls : List (Line L F)) (s : Cpu) :
    run code n (.call f :: ls) s = some (.calls f ls s) := by rw [run]

@[simp] theorem run_iretq (n : ℕ) (ls : List (Line L F)) (s : Cpu) :
    run code n (.iretq :: ls) s = some (.returns s.iretq) := by rw [run]

@[simp] theorem run_jmp (n : ℕ) (l : L) (ls : List (Line L F)) (s : Cpu) :
    run code (n + 1) (.jmp l :: ls) s = run code n (code l) s := by rw [run]

/-- A block of plain instructions runs to its end before the lines that follow it. -/
theorem run_ops (n : ℕ) (is : List Instr) (ls : List (Line L F)) (s : Cpu) :
    run code n (is.map .op ++ ls) s = run code n ls (execAll is s) := by
  induction is generalizing s with
  | nil => rfl
  | cons i is ih =>
    show run code n (.op i :: (is.map .op ++ ls)) s = _
    rw [run_op, ih (i.exec s)]
    rfl

end Run

/-! ### Blocks of pushes and pops -/

theorem push_wordsAt {s : Cpu} {ws : List Word} (h : WordsAt s.mem s.rsp ws)
    (hlen : 8 * (ws.length + 1) ≤ 2 ^ 64) (v : Word) :
    WordsAt (s.push v).mem (s.push v).rsp (v :: ws) :=
  h.push hlen v

/-- **Block of pushes.** Pushing registers leaves their words on the stack in reverse order, on top
of what was there, and changes nothing but the stack. -/
theorem execAll_push (rs : List Reg) : ∀ (s : Cpu) (ws : List Word), WordsAt s.mem s.rsp ws →
    8 * (ws.length + rs.length) ≤ 2 ^ 64 →
    ∃ t, execAll (rs.map .push) s = t ∧ t.gpr = s.gpr ∧
      t.rsp = s.rsp - BitVec.ofNat 64 (8 * rs.length) ∧
      WordsAt t.mem t.rsp ((rs.map s.gpr).reverse ++ ws) := by
  induction rs with
  | nil => intro s ws h _; exact ⟨s, rfl, rfl, by simp, h⟩
  | cons r rs ih =>
    intro s ws h hlen
    simp only [List.length_cons] at hlen
    have hpush := push_wordsAt h (by omega) (s.gpr r)
    obtain ⟨t, hrun, hgpr, hrsp, hwords⟩ :=
      ih (s.push (s.gpr r)) (s.gpr r :: ws) hpush (by simp only [List.length_cons]; omega)
    refine ⟨t, hrun, hgpr, ?_, ?_⟩
    · rw [hrsp, List.length_cons, Nat.mul_succ, Nat.add_comm, BitVec.ofNat_add]
      show s.rsp - 8 - _ = _
      rw [sub_sub]
      rfl
    · have hsame : (s.push (s.gpr r)).gpr = s.gpr := rfl
      rw [hsame] at hwords
      simpa using hwords

/-- **Block of pops.** Popping registers off words that hold `f r` for each register `r` of the
block gives every one of them its `f r`; a register outside the block that already held its `f r`
still does. -/
theorem execAll_pop (f : Reg → Word) (rs : List Reg) : ∀ (s : Cpu) (ws : List Word),
    WordsAt s.mem s.rsp (rs.map f ++ ws) →
    ∃ t, execAll (rs.map .pop) s = t ∧ t.mem = s.mem ∧ t.sel = s.sel ∧
      t.rsp = s.rsp + BitVec.ofNat 64 (8 * rs.length) ∧ WordsAt t.mem t.rsp ws ∧
      ∀ r, r ∈ rs ∨ s.gpr r = f r → t.gpr r = f r := by
  induction rs with
  | nil =>
    intro s ws h
    refine ⟨s, rfl, rfl, rfl, by simp, h, ?_⟩
    intro r hr
    simpa using hr
  | cons q rs ih =>
    intro s ws h
    obtain ⟨hq, hrest⟩ := h
    obtain ⟨t, hrun, hmem, hsel, hrsp, hwords, hgpr⟩ := ih ((Instr.pop q).exec s) ws hrest
    refine ⟨t, hrun, hmem, hsel, ?_, hwords, ?_⟩
    · rw [hrsp, List.length_cons, Nat.mul_succ, Nat.add_comm, BitVec.ofNat_add]
      show s.rsp + 8 + _ = _
      rw [add_assoc]
      rfl
    · intro r hr
      apply hgpr r
      by_cases hrq : r = q
      · right
        rw [hrq]
        show Function.update s.gpr q (s.mem.load64 s.rsp) q = f q
        rw [Function.update_self, hq]
      · rcases hr with hr | hr
        · exact .inl ((List.mem_cons.mp hr).resolve_left hrq)
        · right
          show Function.update s.gpr q (s.mem.load64 s.rsp) r = f r
          rw [Function.update_of_ne hrq, hr]

/-- The words delivery leaves on the stack, from the new stack pointer upwards. -/
theorem deliver_wordsAt (s : Cpu) (selector : Word) (offset : Addr) (errorCode : Option Word) :
    WordsAt (s.deliver selector offset errorCode).mem (s.deliver selector offset errorCode).rsp
      (errorCode.toList ++ [s.rip, s.sel .cs, s.rflags, s.rsp, s.sel .ss]) := by
  have h₀ : WordsAt s.mem (s.rsp &&& ~~~15) [] := wordsAt_nil _ _
  have h := ((((h₀.push (by simp) (s.sel .ss)).push (by simp) s.rsp).push (by simp) s.rflags).push
    (by simp) (s.sel .cs)).push (by simp) s.rip
  cases errorCode with
  | none => exact h
  | some e => exact h.push (by simp) e

theorem deliver_rsp (s : Cpu) (selector : Word) (offset : Addr) (errorCode : Option Word) :
    (s.deliver selector offset errorCode).rsp =
      (s.rsp &&& ~~~15) - BitVec.ofNat 64 (8 * (5 + errorCode.toList.length)) := by
  cases errorCode with
  | none =>
    show (s.rsp &&& ~~~15) - 8 - 8 - 8 - 8 - 8 = (s.rsp &&& ~~~15) - 40
    simp only [sub_sub]
    rfl
  | some e =>
    show (s.rsp &&& ~~~15) - 8 - 8 - 8 - 8 - 8 - 8 = (s.rsp &&& ~~~15) - 48
    simp only [sub_sub]
    rfl

/-- **Return.** `iretq` resumes at the five words on top of the stack. -/
theorem iretq_of_wordsAt {s : Cpu} {rip cs rflags rsp ss : Word}
    (h : WordsAt s.mem s.rsp [rip, cs, rflags, rsp, ss]) :
    s.iretq.rip = rip ∧ s.iretq.sel .cs = cs ∧ s.iretq.rflags = rflags ∧ s.iretq.rsp = rsp ∧
      s.iretq.sel .ss = ss ∧ s.iretq.gpr = s.gpr := by
  obtain ⟨h0, h8, h16, h24, h32, -⟩ := h
  have e16 : s.rsp + 8 + 8 = s.rsp + 16 := by rw [add_assoc]; rfl
  have e24 : s.rsp + 16 + 8 = s.rsp + 24 := by rw [add_assoc]; rfl
  have e32 : s.rsp + 24 + 8 = s.rsp + 32 := by rw [add_assoc]; rfl
  rw [e16] at h16 h24 h32
  rw [e24] at h24 h32
  rw [e32] at h32
  refine ⟨h0, ?_, h16, h24, ?_, rfl⟩
  · simpa [Cpu.iretq] using h8
  · simpa [Cpu.iretq] using h32

end MegaOS.Assembly
