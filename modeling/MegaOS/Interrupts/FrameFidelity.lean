import MegaOS.Interrupts.Isr

/-!
# What frame a C++ handler sees

The frame pointer a handler receives is the stack pointer after the processor's
own pushes, the stub's two pushes and `pusha64`. `frameAtCall_eq` computes that
frame for every vector and every interrupted state. The two exception macros
push the vector last, so it lands in `errCode` and what was pushed before it
lands in `intNo`; the IRQ macro pushes them the other way round.
-/

namespace MegaOS.Interrupts

open MegaOS.Memory MegaOS.Assembly

/-- The error code the processor pushes with vector `v`, if any. -/
def pushedError (v : ℕ) (e : Word) : Option Word := if hasErrStub v then some e else none

/-- The state in which the stub of vector `v` starts. -/
def atStub (s : Cpu) (selector : Word) (offset : Addr) (v : ℕ) (e : Word) : Cpu :=
  s.deliver selector offset (pushedError v e)

/-- The run of a stub up to its C++ call; the stub makes a single jump. -/
def runStub (s : Cpu) (selector : Word) (offset : Addr) (v : ℕ) (e : Word) :
    Option (Stop Label Callee) :=
  run text 1 (text (stubOf v)) (atStub s selector offset v e)

/-- The handler a stub calls and the frame that handler is passed. -/
def frameAtCall (s : Cpu) (selector : Word) (offset : Addr) (v : ℕ) (e : Word) :
    Option (Callee × InterruptFrame) :=
  match runStub s selector offset v e with
  | some (.calls f _ t) => some (f, .load t.mem (t.gpr .rdi))
  | _ => none

/-- The handler for a vector: exceptions and IRQs are explicitly separated. -/
def calleeOf (v : ℕ) : Callee := if v < 32 then .cpuExceptionHandler else .irqInterruptHandler

/-- The register image of a state. -/
def savedGprs (s : Cpu) : Registers where
  r15 := s.gpr .r15
  r14 := s.gpr .r14
  r13 := s.gpr .r13
  r12 := s.gpr .r12
  r11 := s.gpr .r11
  r10 := s.gpr .r10
  r9 := s.gpr .r9
  r8 := s.gpr .r8
  rsi := s.gpr .rsi
  rdi := s.gpr .rdi
  rbp := s.gpr .rbp
  rdx := s.gpr .rdx
  rcx := s.gpr .rcx
  rbx := s.gpr .rbx
  rax := s.gpr .rax

theorem savedGprs_get (s : Cpu) (r : Reg) : (savedGprs s).get r = s.gpr r := by cases r <;> rfl

/-- The frame the stub of vector `v` builds. -/
def builtFrame (s : Cpu) (v : ℕ) (e : Word) : InterruptFrame where
  gprs := savedGprs s
  errCode := if v < 32 then BitVec.ofNat 64 v else 0
  intNo := if v < 32 then (if hasErrStub v then e else 0) else BitVec.ofNat 64 v
  rip := s.rip
  cs := s.sel .cs
  rflags := s.rflags
  rsp := s.rsp
  ss := s.sel .ss

/-! ### The three stub kinds -/

theorem exceptionStubs_cover : ∀ v, v < 32 →
    exceptionStubs.lookup v = some .err ∨ exceptionStubs.lookup v = some .noerr := by decide

theorem mem_irqStubs {v : ℕ} (hlo : 32 ≤ v) (hhi : v < 256) : v ∈ irqStubs := by
  simp only [irqStubs, List.mem_range'_1]
  omega

theorem hasErrStub_lt {v : ℕ} (h : hasErrStub v = true) : v < 32 := by
  by_contra hv
  have hnone : exceptionStubs.lookup v = none := by
    rw [List.lookup_eq_none_iff]
    intro p hp
    have hlt : ∀ q ∈ exceptionStubs, q.1 < 32 := by decide
    have := hlt p hp
    simp only [bne_iff_ne, ne_eq]
    omega
  simp [hasErrStub, hnone] at h

/-- **The common path.** Whichever two words the stub leaves on top of the processor's five, the
handler is passed the frame that reads them as `errCode` and `intNo`, in this order. -/
theorem run_common (f : Callee) (s t : Cpu) (errCode intNo : Word) (hgpr : t.gpr = s.gpr)
    (h : WordsAt t.mem t.rsp [errCode, intNo, s.rip, s.sel .cs, s.rflags, s.rsp, s.sel .ss]) :
    ∃ u, run text 0 (handlerPrologue.map .op ++ .call f :: (handlerEpilogue.map .op ++ [.iretq])) t =
        some (.calls f (handlerEpilogue.map .op ++ [.iretq]) u) ∧
      u.gpr .rdi = u.rsp ∧ u.rsp = t.rsp - 120 ∧
      WordsAt u.mem u.rsp (InterruptFrame.words
        ⟨savedGprs s, errCode, intNo, s.rip, s.sel .cs, s.rflags, s.rsp, s.sel .ss⟩) := by
  obtain ⟨u, hrun, hrdi, hrsp, hwords⟩ := prologue_spec t _ h (by simp)
  refine ⟨u, ?_, hrdi, hrsp, ?_⟩
  · rw [run_ops, hrun, run_call]
  · rw [hgpr] at hwords
    exact hwords

/-- A stub that pushes two words itself: the second one is read as `errCode`. -/
theorem run_two_pushes (s : Cpu) (selector : Word) (offset : Addr) (first second : Word) {l : Label}
    {f : Callee}
    (hl : text l = handlerPrologue.map .op ++ .call f :: (handlerEpilogue.map .op ++ [.iretq])) :
    ∃ u, run text 1 [.op (.pushImm first), .op (.pushImm second), .jmp l]
          (s.deliver selector offset none) =
        some (.calls f (handlerEpilogue.map .op ++ [.iretq]) u) ∧
      u.gpr .rdi = u.rsp ∧ u.rsp = (s.rsp &&& ~~~15) - 176 ∧
      WordsAt u.mem u.rsp (InterruptFrame.words
        ⟨savedGprs s, second, first, s.rip, s.sel .cs, s.rflags, s.rsp, s.sel .ss⟩) := by
  have hstack := deliver_wordsAt s selector offset none
  have hrsp := deliver_rsp s selector offset none
  obtain ⟨u, hrun, hrdi, husp, hwords⟩ := run_common f s
    (((s.deliver selector offset none).push first).push second) second first rfl
    (push_wordsAt (push_wordsAt hstack (by simp) _) (by simp) _)
  refine ⟨u, ?_, hrdi, ?_, hwords⟩
  · rw [run_op, run_op, run_jmp, hl]
    exact hrun
  · rw [husp]
    show (s.deliver selector offset none).rsp - 8 - 8 - 120 = _
    rw [hrsp, sub_sub, sub_sub, sub_sub]
    rfl

/-- **Every stub.** The run of a stub calls the vector's handler with `rdi` at the image of
`builtFrame`, 176 bytes below the aligned stack pointer of the interrupted program. -/
theorem runStub_spec (s : Cpu) (selector : Word) (offset : Addr) (v : ℕ) (e : Word) (hv : v < 256) :
    ∃ u, runStub s selector offset v e =
        some (.calls (calleeOf v) (handlerEpilogue.map .op ++ [.iretq]) u) ∧
      u.gpr .rdi = u.rsp ∧ u.rsp = (s.rsp &&& ~~~15) - 176 ∧
      WordsAt u.mem u.rsp (builtFrame s v e).words := by
  rcases Nat.lt_or_ge v 32 with hlt | hge
  · rcases exceptionStubs_cover v hlt with hk | hk
    · -- the processor's error code is already there: only the vector is pushed
      have herr : hasErrStub v = true := by simp [hasErrStub, hk]
      have hstack := deliver_wordsAt s selector offset (some e)
      have hrsp := deliver_rsp s selector offset (some e)
      obtain ⟨u, hrun, hrdi, husp, hwords⟩ := run_common .cpuExceptionHandler s
        ((s.deliver selector offset (some e)).push (BitVec.ofNat 64 v)) (BitVec.ofNat 64 v) e rfl
        (push_wordsAt hstack (by simp) _)
      refine ⟨u, ?_, hrdi, ?_, ?_⟩
      · simp only [runStub, atStub, stubOf, if_pos hlt, text, hk, calleeOf, pushedError, if_pos herr,
          makeExceptionHandlerErr, run_op, run_jmp]
        exact hrun
      · rw [husp]
        show (s.deliver selector offset (some e)).rsp - 8 - 120 = _
        rw [hrsp, sub_sub, sub_sub]
        rfl
      · simpa only [builtFrame, if_pos hlt, if_pos herr] using hwords
    · -- the dummy 0, then the vector
      have herr : ¬hasErrStub v = true := by simp [hasErrStub, hk]
      obtain ⟨u, hrun, hrdi, husp, hwords⟩ := run_two_pushes s selector offset 0
        (BitVec.ofNat 64 v) (l := .handleIsrCommon) (f := .cpuExceptionHandler) rfl
      refine ⟨u, ?_, hrdi, husp, ?_⟩
      · simp only [runStub, atStub, stubOf, if_pos hlt, text, hk, calleeOf, pushedError, if_neg herr]
        exact hrun
      · simpa only [builtFrame, if_pos hlt, if_neg herr] using hwords
  · -- the vector, then the dummy 0
    have hnlt : ¬v < 32 := by omega
    have herr : ¬hasErrStub v = true := fun h => hnlt (hasErrStub_lt h)
    obtain ⟨u, hrun, hrdi, husp, hwords⟩ := run_two_pushes s selector offset (BitVec.ofNat 64 v) 0
      (l := .handleIrqCommon) (f := .irqInterruptHandler) rfl
    refine ⟨u, ?_, hrdi, husp, ?_⟩
    · simp only [runStub, atStub, stubOf, if_neg hnlt, text, if_pos (mem_irqStubs hge hv), calleeOf,
        pushedError, if_neg herr]
      exact hrun
    · simpa only [builtFrame, if_neg hnlt] using hwords

/-- **The frame at the call**, for every vector, error code and interrupted state. -/
theorem frameAtCall_eq (s : Cpu) (selector : Word) (offset : Addr) (v : ℕ) (e : Word)
    (hv : v < 256) :
    frameAtCall s selector offset v e = some (calleeOf v, builtFrame s v e) := by
  obtain ⟨u, hrun, hrdi, -, hwords⟩ := runStub_spec s selector offset v e hv
  simp only [frameAtCall, hrun, hrdi, InterruptFrame.load_eq hwords]

/-! ### Fidelity -/

/-- The frame says what happened: the handler of the vector is called with the vector in `intNo`,
the processor's error code (0 when there is none) in `errCode`, and the interrupted state in the
other fields. -/
structure FrameFaithful (s : Cpu) (v : ℕ) (e : Word) (f : Callee) (frame : InterruptFrame) :
    Prop where
  callee : f = calleeOf v
  intNo : frame.intNo = BitVec.ofNat 64 v
  errCode : frame.errCode = (pushedError v e).getD 0
  gprs : ∀ r, frame.gprs.get r = s.gpr r
  rip : frame.rip = s.rip
  cs : frame.cs = s.sel .cs
  rflags : frame.rflags = s.rflags
  rsp : frame.rsp = s.rsp
  ss : frame.ss = s.sel .ss

/-- The frame of an entry exists and is faithful. -/
def EntryFaithful (s : Cpu) (selector : Word) (offset : Addr) (v : ℕ) (e : Word) : Prop :=
  ∃ f frame, frameAtCall s selector offset v e = some (f, frame) ∧ FrameFaithful s v e f frame

/-- Whatever the vector, all fields but `errCode` and `intNo` are right. -/
theorem frameFaithful_builtFrame_iff (s : Cpu) (v : ℕ) (e : Word) :
    FrameFaithful s v e (calleeOf v) (builtFrame s v e) ↔
      (builtFrame s v e).intNo = BitVec.ofNat 64 v ∧
        (builtFrame s v e).errCode = (pushedError v e).getD 0 := by
  constructor
  · intro h
    exact ⟨h.intNo, h.errCode⟩
  · rintro ⟨hint, herr⟩
    exact ⟨rfl, hint, herr, savedGprs_get s, rfl, rfl, rfl, rfl, rfl⟩

/-- **When the frame is faithful**: exactly for the IRQ vectors, for vector 0 (where the swapped
words are both 0), and for an exception whose error code happens to equal its vector. -/
theorem entryFaithful_iff (s : Cpu) (selector : Word) (offset : Addr) (v : ℕ) (e : Word)
    (hv : v < 256) :
    EntryFaithful s selector offset v e ↔
      32 ≤ v ∨ v = 0 ∨ (hasErrStub v = true ∧ e = BitVec.ofNat 64 v) := by
  have hiff : EntryFaithful s selector offset v e ↔
      FrameFaithful s v e (calleeOf v) (builtFrame s v e) := by
    constructor
    · rintro ⟨f, frame, hcall, hfaith⟩
      rw [frameAtCall_eq s selector offset v e hv, Option.some.injEq, Prod.mk.injEq] at hcall
      obtain ⟨rfl, rfl⟩ := hcall
      exact hfaith
    · intro h
      exact ⟨_, _, frameAtCall_eq s selector offset v e hv, h⟩
  rw [hiff, frameFaithful_builtFrame_iff]
  rcases Nat.lt_or_ge v 32 with hlt | hge
  · by_cases herr : hasErrStub v = true
    · have hv0 : v ≠ 0 := by
        rintro rfl
        exact absurd herr (by decide)
      simp only [builtFrame, pushedError, if_pos hlt, if_pos herr, Option.getD_some]
      constructor
      · rintro ⟨h, -⟩
        exact .inr (.inr ⟨herr, h⟩)
      · rintro (h | h | ⟨-, h⟩)
        · omega
        · exact absurd h hv0
        · exact ⟨h, h.symm⟩
    · simp only [builtFrame, pushedError, if_pos hlt, if_neg herr, Option.getD_none]
      have hzero : BitVec.ofNat 64 v = 0 ↔ v = 0 := by
        constructor
        · intro h
          have := congrArg BitVec.toNat h
          rw [BitVec.toNat_ofNat, Nat.mod_eq_of_lt (by omega)] at this
          exact this
        · rintro rfl
          rfl
      constructor
      · rintro ⟨-, h⟩
        exact .inr (.inl (hzero.mp h))
      · rintro (h | h | ⟨h, -⟩)
        · omega
        · exact ⟨(hzero.mpr h).symm, hzero.mpr h⟩
        · exact absurd h herr
  · have hnlt : ¬v < 32 := by omega
    have herr : ¬hasErrStub v = true := fun h => hnlt (hasErrStub_lt h)
    simp only [builtFrame, pushedError, if_neg hnlt, if_neg herr, Option.getD_none]
    exact ⟨fun _ => .inl hge, fun _ => ⟨trivial, trivial⟩⟩

/-- A machine state with every register and every byte zero. -/
def zeroCpu : Cpu := ⟨fun _ => 0, 0, 0, 0, fun _ => 0, fun _ => 0⟩

/-- The keyboard's vector, whose frame is faithful. -/
theorem entryFaithful_iff_keyboard :
    33 < 256 ∧ EntryFaithful zeroCpu 0x28 0 33 0 := by
  have h := entryFaithful_iff zeroCpu 0x28 0 33 0 (by decide)
  exact ⟨by decide, h.mpr (.inl (by decide))⟩

/-- A page fault with error code 2 reaches the handler as interrupt 2 with error code 14. -/
theorem pageFault_not_faithful : ¬EntryFaithful zeroCpu 0x28 0 14 2 := by
  rintro ⟨f, frame, hcall, hfaith⟩
  rw [frameAtCall_eq zeroCpu 0x28 0 14 2 (by decide), Option.some.injEq, Prod.mk.injEq] at hcall
  obtain ⟨-, rfl⟩ := hcall
  exact absurd hfaith.intNo (by decide)

end MegaOS.Interrupts
