import MegaOS.Interrupts.FrameFidelity

/-!
# Returning from an interrupt

The way back through a common path undoes the way in: `popa64` pops in the order
opposite to `pusha64`, `add rsp, 16` drops the two words of the stub, and `iretq`
takes what the processor pushed. Nothing on the way back reads `errCode` or
`intNo`, so the return is right for every vector although the frame an exception
handler sees is not.
-/

namespace MegaOS.Interrupts

open MegaOS.Memory MegaOS.Assembly

/-- A C++ handler called in `t` may return in `u`: the stack pointer and the callee-saved registers
are back, the direction flag is clear; other registers and the memory are arbitrary. -/
structure SysVReturn (t u : Cpu) : Prop where
  rsp : u.rsp = t.rsp
  saved : ∀ r ∈ calleeSaved, u.gpr r = t.gpr r
  direction : u.rflags &&& flagDF = 0

/-- The state `r` is the one the frame `f` describes. -/
structure Resumes (f : InterruptFrame) (r : Cpu) : Prop where
  gprs : ∀ q, r.gpr q = f.gprs.get q
  rip : r.rip = f.rip
  cs : r.sel .cs = f.cs
  rflags : r.rflags = f.rflags
  rsp : r.rsp = f.rsp
  ss : r.sel .ss = f.ss

/-- Two states an interrupted program cannot tell apart by its registers. -/
structure SameContext (s r : Cpu) : Prop where
  gpr : r.gpr = s.gpr
  rip : r.rip = s.rip
  cs : r.sel .cs = s.sel .cs
  rflags : r.rflags = s.rflags
  rsp : r.rsp = s.rsp
  ss : r.sel .ss = s.sel .ss

/-- The frame built on entry describes the interrupted state. -/
theorem Resumes.sameContext {s r : Cpu} {v : ℕ} {e : Word} (h : Resumes (builtFrame s v e) r) :
    SameContext s r where
  gpr := funext fun q => (h.gprs q).trans (savedGprs_get s q)
  rip := h.rip
  cs := h.cs
  rflags := h.rflags
  rsp := h.rsp
  ss := h.ss

theorem and_not_15_toNat_mod (x : Word) : (x &&& ~~~15).toNat % 16 = 0 := by
  have hand : (x &&& ~~~15) &&& 15 = 0 := by
    rw [BitVec.and_assoc, show (~~~15 &&& 15 : Word) = 0#64 from by decide, BitVec.and_zero]
    rfl
  have hmod := congrArg BitVec.toNat hand
  rw [BitVec.toNat_and, show (15 : Word).toNat = 2 ^ 4 - 1 from rfl,
    Nat.and_two_pow_sub_one_eq_mod] at hmod
  exact hmod

/-- A call 176 bytes below an aligned address is made on a 16-byte boundary. -/
theorem callRsp_aligned (x : Word) : ((x &&& ~~~15) - 176).toNat % 16 = 0 := by
  have h := and_not_15_toNat_mod x
  rw [BitVec.toNat_sub, show (176 : Word).toNat = 176 from rfl]
  omega

/-- The rest of a common path after the call, from any state whose stack pointer is at a frame. -/
theorem run_epilogue (u : Cpu) : ∃ r,
    run text 0 (handlerEpilogue.map .op ++ [.iretq]) u = some (.returns r) ∧
      Resumes (InterruptFrame.load u.mem u.rsp) r := by
  obtain ⟨t, hrun, hgprs, hrip, hcs, hfl, hsp, hss⟩ :=
    epilogue_spec u _ (InterruptFrame.wordsAt_load u.mem u.rsp)
  refine ⟨t.iretq, ?_, ⟨hgprs, hrip, hcs, hfl, hsp, hss⟩⟩
  rw [run_ops, hrun, run_iretq]

/-- **Transparent return.** For every vector and interrupted state the handler is called on a
16-byte boundary, and however it returns, the interrupted program resumes in exactly the state the
frame describes; if the frame is as it was at the call, that is the interrupted state. -/
theorem interruptReturn_transparent (s : Cpu) (selector : Word) (offset : Addr) (v : ℕ) (e : Word)
    (hv : v < 256) :
    ∃ rest t, runStub s selector offset v e = some (.calls (calleeOf v) rest t) ∧
      t.rsp.toNat % 16 = 0 ∧
      ∀ u, SysVReturn t u → ∃ r, run text 0 rest u = some (.returns r) ∧
        Resumes (InterruptFrame.load u.mem (t.gpr .rdi)) r ∧
        (InterruptFrame.load u.mem (t.gpr .rdi) = InterruptFrame.load t.mem (t.gpr .rdi) →
          SameContext s r) := by
  obtain ⟨t, hrun, hrdi, hrsp, hwords⟩ := runStub_spec s selector offset v e hv
  refine ⟨_, t, hrun, ?_, ?_⟩
  · rw [hrsp]
    exact callRsp_aligned s.rsp
  · intro u hu
    obtain ⟨r, hret, hres⟩ := run_epilogue u
    rw [hu.rsp, ← hrdi] at hres
    refine ⟨r, hret, hres, ?_⟩
    intro hsame
    rw [hsame, hrdi, InterruptFrame.load_eq hwords] at hres
    exact hres.sameContext

/-- A handler that leaves junk in every register it may use. -/
def clobber (t : Cpu) : Cpu :=
  { t with gpr := fun r => if r ∈ calleeSaved then t.gpr r else 0xDEAD, rflags := 0 }

/-- The keyboard's interrupt, with a handler that clobbers what it may. -/
theorem interruptReturn_transparent_clobber : ∃ rest t r,
    runStub zeroCpu 0x28 0 33 0 = some (.calls .irqInterruptHandler rest t) ∧
      run text 0 rest (clobber t) = some (.returns r) ∧ SameContext zeroCpu r := by
  obtain ⟨rest, t, hrun, -, hret⟩ :=
    interruptReturn_transparent zeroCpu 0x28 0 33 0 (by decide)
  have hsysv : SysVReturn t (clobber t) := by
    refine ⟨rfl, ?_, ?_⟩
    · intro r hr
      exact if_pos hr
    · show (0 : Word) &&& flagDF = 0
      decide
  obtain ⟨r, hr, -, hsame⟩ := hret (clobber t) hsysv
  exact ⟨rest, t, r, hrun, hr, hsame rfl⟩

end MegaOS.Interrupts
