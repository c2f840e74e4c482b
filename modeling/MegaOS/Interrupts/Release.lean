import MegaOS.Interrupts.Handlers

/-!
# The release build

With `MEGA_RELEASE` the macro `assert` is empty. Where the dispatchers of the
other build stop in an assertion, these go on, and index their tables with
whatever number the frame holds.
-/

namespace MegaOS.Interrupts

open MegaOS.Memory MegaOS.Assembly

section Dispatchers

variable {H : Type*} (handlers : HandlerTable H) (classBeyond : ℕ → ClassType)

/-- `get_class_type`, whose index is not checked: `classBeyond` is what lies behind the table. -/
def getClassTypeRelease (intNo : Word) : ClassType :=
  intTypeLut.getD intNo.toNat (classBeyond intNo.toNat)

/-- `cpu_exception_handler`, without its assertions. -/
def cpuExceptionHandlerRelease (f : InterruptFrame) : List (Effect H) :=
  .access .intTypeLut f.intNo.toNat ::
    if getClassTypeRelease classBeyond f.intNo = .abort then
      kpanicEffects "CPU interrupt of class abort." f
    else
      .access .handlers f.intNo.toNat ::
        match handlers.read f.intNo.toNat with
        | some h => [.access .handlers f.intNo.toNat, .callHandler h f]
        | none => kpanicEffects "CPU interrupt with no handler" f

/-- `irq_interrupt_handler`, without its assertions. -/
def irqInterruptHandlerRelease (returns : H → Bool) (f : InterruptFrame) : List (Effect H) :=
  .access .handlers f.intNo.toNat ::
    match handlers.read f.intNo.toNat with
    | some h =>
        .access .handlers f.intNo.toNat :: .callHandler h f ::
          if returns h then [.sendEoi (f.intNo.setWidth 8)] else []
    | none => [.logUnhandled f.intNo, .sendEoi (f.intNo.setWidth 8)]

def dispatchRelease (returns : H → Bool) (c : Callee) (f : InterruptFrame) : List (Effect H) :=
  match c with
  | .cpuExceptionHandler => cpuExceptionHandlerRelease handlers classBeyond f
  | .irqInterruptHandler => irqInterruptHandlerRelease handlers returns f

end Dispatchers

section Agreement

variable {H : Type*} (handlers : HandlerTable H) (classBeyond : ℕ → ClassType) (returns : H → Bool)

theorem getClassTypeRelease_eq {intNo : Word} (h : isCpuException intNo = true) :
    getClassTypeRelease classBeyond intNo = getClassType intNo := by
  have hlt : intNo.toNat < intTypeLut.length := isCpuException_iff.mp h
  rw [getClassTypeRelease, getClassType, List.getD_eq_getElem _ _ hlt, List.getD_eq_getElem _ _ hlt]

/-- **The builds agree** on a frame if and only if the assertion holds. -/
theorem dispatchRelease_eq_iff (c : Callee) (f : InterruptFrame) :
    dispatchRelease handlers classBeyond returns c f = dispatch handlers returns c (some f) ↔
      Admits c f.intNo = true := by
  cases c with
  | cpuExceptionHandler =>
    show cpuExceptionHandlerRelease handlers classBeyond f = cpuExceptionHandler handlers (some f) ↔
      isCpuException f.intNo = true
    by_cases hf : isCpuException f.intNo = true
    · refine iff_of_true ?_ hf
      cases hread : handlers.read f.intNo.toNat with
      | none =>
        simp only [cpuExceptionHandlerRelease, cpuExceptionHandler, hf, not_true_eq_false, if_false,
          getClassTypeRelease_eq classBeyond hf, hread]
      | some h =>
        simp only [cpuExceptionHandlerRelease, cpuExceptionHandler, hf, not_true_eq_false, if_false,
          getClassTypeRelease_eq classBeyond hf, hread]
    · exact iff_of_false (by simp [cpuExceptionHandlerRelease, cpuExceptionHandler, hf]) hf
  | irqInterruptHandler =>
    show irqInterruptHandlerRelease handlers returns f =
      irqInterruptHandler handlers returns (some f) ↔ isIrqInterrupt f.intNo = true
    by_cases hf : isIrqInterrupt f.intNo = true
    · refine iff_of_true ?_ hf
      cases hread : handlers.read f.intNo.toNat with
      | none =>
        simp only [irqInterruptHandlerRelease, irqInterruptHandler, hf, not_true_eq_false, if_false,
          hread]
      | some h =>
        simp only [irqInterruptHandlerRelease, irqInterruptHandler, hf, not_true_eq_false, if_false,
          hread]
    · exact iff_of_false (by simp [irqInterruptHandlerRelease, irqInterruptHandler, hf]) hf

/-- An exception's number is the first index. -/
theorem inBounds_release_exception_iff (f : InterruptFrame) :
    InBounds (dispatchRelease handlers classBeyond returns .cpuExceptionHandler f) ↔
      isCpuException f.intNo = true := by
  constructor
  · intro h
    exact isCpuException_iff.mpr (h .intTypeLut f.intNo.toNat List.mem_cons_self)
  · intro hf
    rw [(dispatchRelease_eq_iff handlers classBeyond returns .cpuExceptionHandler f).mpr hf]
    exact (cpuExceptionHandler_spec handlers f hf).1

theorem inBounds_release_irq_iff (f : InterruptFrame) (hf : isIrqInterrupt f.intNo = true) :
    InBounds (dispatchRelease handlers classBeyond returns .irqInterruptHandler f) ↔
      f.intNo.toNat < Table.size .handlers := by
  rw [(dispatchRelease_eq_iff handlers classBeyond returns .irqInterruptHandler f).mpr hf]
  exact irqInterruptHandler_inBounds_iff handlers returns f hf

/-- **The release build** does what the other one does, for whatever the tables hold, if and only
if the processor pushes no error code or one below 32. If not, it reads behind its tables, as both
builds do for vector 255. -/
theorem release_agrees_iff (v : Fin 256) (e : Word) (cpu : Cpu) :
    (dispatchRelease handlers classBeyond returns (calleeOf v) (builtFrame cpu v e) =
        dispatch handlers returns (calleeOf v) (some (builtFrame cpu v e)) ↔
      ((pushedError v e).getD 0).toNat < 32) ∧
    (InBounds (dispatchRelease handlers classBeyond returns (calleeOf v) (builtFrame cpu v e)) ↔
      ((pushedError v e).getD 0).toNat < 32 ∧ v ≠ 255) := by
  rw [dispatchRelease_eq_iff]
  by_cases hv : v.val < 32
  · have hint : (builtFrame cpu v e).intNo = (pushedError v e).getD 0 := by
      show (if v.val < 32 then _ else _) = _
      rw [if_pos hv, pushedError]
      split <;> rfl
    have hne : v ≠ 255 := by
      rintro rfl
      exact absurd hv (by decide)
    rw [calleeOf, if_pos hv, ← hint]
    refine ⟨isCpuException_iff, ?_⟩
    rw [and_iff_left hne]
    exact (inBounds_release_exception_iff handlers classBeyond returns _).trans isCpuException_iff
  · have hnone : pushedError v e = none := by
      rw [pushedError, if_neg]
      exact fun herr => hv (hasErrStub_lt herr)
    have hint : (builtFrame cpu v e).intNo.toNat = v.val := by
      show (if v.val < 32 then _ else BitVec.ofNat 64 v.val).toNat = _
      rw [if_neg hv, BitVec.toNat_ofNat]
      have := v.isLt
      omega
    have hirq : isIrqInterrupt (builtFrame cpu v e).intNo = true := by
      rw [isIrqInterrupt_iff, hint]
      exact ⟨Nat.not_lt.mp hv, v.isLt⟩
    have hzero : ((pushedError v.val e).getD 0).toNat < 32 := by
      rw [hnone]
      decide
    rw [calleeOf, if_neg hv]
    refine ⟨iff_of_true hirq hzero, ?_⟩
    rw [and_iff_right hzero]
    refine (inBounds_release_irq_iff handlers classBeyond returns _ hirq).trans ?_
    rw [hint, Ne, Fin.ext_iff]
    show v.val < 255 ↔ ¬v.val = 255
    have := v.isLt
    omega

end Agreement

/-! ### Exceptions the assertion would have stopped -/

/-- **Where the assertion would stop**, the release build panics, or takes the exception for a
keyboard interrupt, which returns to the instruction that failed. -/
theorem visible_release_exception (classBeyond : ℕ → ClassType) (beyond : ℕ → Option Handler)
    (returns : Handler → Bool) (f : InterruptFrame) (hsize : f.intNo.toNat < Table.size .handlers) :
    visible (dispatchRelease (installedHandlers beyond) classBeyond returns .cpuExceptionHandler f) =
      if getClassTypeRelease classBeyond f.intNo = .abort then
        [.kpanic "CPU interrupt of class abort." f]
      else if f.intNo.toNat = 33 then [.callHandler .keyboard f]
      else [.kpanic "CPU interrupt with no handler" f] := by
  have hread : (installedHandlers beyond).read f.intNo.toNat =
      if f.intNo.toNat = 33 then some .keyboard else none := by
    rw [HandlerTable.read, dif_pos hsize]
    rfl
  have haccess : ∀ t i (es : List (Effect Handler)), visible (.access t i :: es) = visible es :=
    fun t i es => rfl
  show visible (cpuExceptionHandlerRelease (installedHandlers beyond) classBeyond f) = _
  rw [cpuExceptionHandlerRelease, haccess, hread]
  by_cases habort : getClassTypeRelease classBeyond f.intNo = .abort
  · rw [if_pos habort, if_pos habort]
    exact (kpanicEffects_spec _ f).2
  · rw [if_neg habort, if_neg habort, haccess]
    by_cases hkey : f.intNo.toNat = 33
    · rw [if_pos hkey, if_pos hkey]
      rfl
    · rw [if_neg hkey, if_neg hkey]
      exact (kpanicEffects_spec _ f).2

end MegaOS.Interrupts
