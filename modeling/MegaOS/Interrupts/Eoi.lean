import MegaOS.Foundation.Runs
import MegaOS.Interrupts.Dispatch
import MegaOS.Interrupts.Pic

/-!
# Ending interrupts

IRQs on the two controllers as `_start` leaves them, accepted in any nesting
their priorities allow, each taken through its stub into `irq_interrupt_handler`
and completed by the end-of-interrupt commands that handler sends.

`send_eoi` compares its argument with 8 as if it were a line number, but it is
passed the vector, which is 32 or more: the second chip is always told that an
interrupt ended.
-/

namespace MegaOS.Eoi

open MegaOS.Memory MegaOS.Assembly MegaOS.Pic8259 MegaOS.Pic MegaOS.Interrupts MegaOS.Runs

/-- The port writes of what a dispatcher does. Handlers and the log do not touch the controllers. -/
def eoiWrites {H : Type*} (es : List (Effect H)) : List (BitVec 16 × BitVec 8) :=
  es.flatMap fun
    | .sendEoi irqNo => sendEoi irqNo
    | _ => []

/-- An interrupt in progress: its line and the frame its handler was passed. -/
structure Active where
  line : Fin 16
  frame : InterruptFrame

/-- The controllers and the interrupts in progress, the innermost first. -/
structure State where
  pics : Pair
  active : List Active

inductive Event
  /-- The interrupted state takes the IRQ of a line. -/
  | accept (line : Fin 16) (s : Cpu)
  /-- The innermost handler completes. -/
  | complete

section System

variable {H : Type*} (handlers : HandlerTable H) (selector : Word) (offset : Addr)

/-- The writes of `irq_interrupt_handler` when its action returns. -/
def completionWrites (a : Active) : List (BitVec 16 × BitVec 8) :=
  eoiWrites (irqInterruptHandler handlers (fun _ => true) (some a.frame))

/-- A line is accepted when the priorities allow it; the vector the controllers deliver selects the
stub, and the stub builds the frame. -/
def step (s : State) : Event → Option State
  | .accept line cpu =>
    if s.pics.Accepts line then
      match frameAtCall cpu selector offset (s.pics.vectorOf line).toNat 0 with
      | some (.irqInterruptHandler, frame) =>
          some ⟨s.pics.acknowledge line, ⟨line, frame⟩ :: s.active⟩
      | _ => none
    else none
  | .complete =>
    match s.active with
    | [] => none
    | a :: rest => some ⟨writes (completionWrites handlers a) s.pics, rest⟩

def system : Machine State Event := ⟨step handlers selector offset⟩

/-- The controllers after `_start`, nothing in service, no handler running. -/
def Idle (s : State) : Prop :=
  s.active = [] ∧ ∃ p : Pair, p.Operational ∧ p.master.isr = 0 ∧ p.slave.isr = 0 ∧
    s.pics = execCalls startCalls p

/-- A completion is exact: one end of interrupt to the first chip, one to the second exactly for its
own lines, and of the in-service bits those of the line's acknowledge are gone and no other. -/
def ExactCompletion (s : State) (e : Event) (s' : State) : Prop :=
  ∀ a rest, e = .complete → s.active = a :: rest →
    (completionWrites handlers a).count (mpicCommand, cmdEoi) = 1 ∧
    (completionWrites handlers a).count (spicCommand, cmdEoi) = (if 8 ≤ a.line.val then 1 else 0) ∧
    s'.pics.master.isr = s.pics.master.isr &&& ~~~masterBits a.line ∧
    s'.pics.slave.isr = s.pics.slave.isr &&& ~~~slaveBits a.line

/-- The completed line belongs to the second chip. -/
def CompletesSlaveLine (s : State) (e : Event) (_ : State) : Prop :=
  ∀ a rest, e = .complete → s.active = a :: rest → 8 ≤ a.line.val

/-! ### The writes of a completion -/

/-- `irq_interrupt_handler` sends one end of interrupt, for the number in the frame. -/
theorem eoiWrites_irqInterruptHandler (f : InterruptFrame) (hf : isIrqInterrupt f.intNo = true) :
    eoiWrites (irqInterruptHandler handlers (fun _ => true) (some f)) =
      sendEoi (f.intNo.setWidth 8) := by
  simp only [irqInterruptHandler, hf, not_true_eq_false, if_false, if_true]
  cases handlers.read f.intNo.toNat <;> simp [eoiWrites]

/-- The vector of every line passes the test of `send_eoi`. -/
theorem sendEoi_vector (k : Fin 16) :
    sendEoi ((BitVec.ofNat 64 (32 + k.val)).setWidth 8) =
      [(spicCommand, cmdEoi), (mpicCommand, cmdEoi)] := by
  revert k
  decide

theorem writes_eoi (p : Pair) :
    writes [(spicCommand, cmdEoi), (mpicCommand, cmdEoi)] p =
      ⟨{ p.master with isr := retire p.master.isr }, { p.slave with isr := retire p.slave.isr }⟩ :=
  rfl

/-! ### The invariant -/

/-- The vectors are those of `_start`, every frame in progress carries its line's vector, an inner
interrupt arrived with a higher priority than the outer ones, and the in-service bits are those the
interrupts in progress have set. -/
structure Invariant (s : State) : Prop where
  vectors : ∀ k, s.pics.vectorOf k = BitVec.ofNat 8 (32 + k.val)
  frames : ∀ a ∈ s.active, a.frame.intNo = BitVec.ofNat 64 (32 + a.line.val)
  nested : s.active.Pairwise fun inner outer => masterInput inner.line < masterInput outer.line
  master : ∀ j, s.pics.master.isr.getLsbD j = true ↔ ∃ a ∈ s.active, j = masterInput a.line
  slave : ∀ j, s.pics.slave.isr.getLsbD j = true ↔
    ∃ a ∈ s.active, 8 ≤ a.line.val ∧ j = a.line.val - 8

theorem invariant_idle {s : State} (h : Idle s) : Invariant s := by
  obtain ⟨hact, p, hp, hm, hs, hpics⟩ := h
  have h1 := exec_isr (.remap 32 40) p
  have h2 := exec_isr (.clearIrqMask 1) ((Call.remap 32 40).exec p)
  have hmaster : s.pics.master.isr = 0 := by
    rw [hpics, ← hm, ← h1.1]
    exact h2.1
  have hslave : s.pics.slave.isr = 0 := by
    rw [hpics, ← hs, ← h1.2]
    exact h2.2
  refine ⟨?_, ?_, ?_, ?_, ?_⟩
  · intro k
    rw [hpics]
    exact startCalls_vectorOf p hp k
  · simp [hact]
  · simp [hact]
  · intro j
    simp [hact, hmaster]
  · intro j
    simp [hact, hslave]

/-- The frame of an accepted line carries the line's vector. -/
theorem frameAtCall_vector {s : State} (hs : Invariant s) (line : Fin 16) (cpu : Cpu) :
    frameAtCall cpu selector offset (s.pics.vectorOf line).toNat 0 =
      some (.irqInterruptHandler, builtFrame cpu (32 + line.val) 0) := by
  have hv : (s.pics.vectorOf line).toNat = 32 + line.val := by
    rw [hs.vectors line, BitVec.toNat_ofNat]
    omega
  rw [hv, frameAtCall_eq cpu selector offset (32 + line.val) 0 (by omega), calleeOf,
    if_neg (by omega)]

/-- Accepting an IRQ keeps the invariant. -/
theorem invariant_accept {s s' : State} {line : Fin 16} {cpu : Cpu} (hs : Invariant s)
    (hstep : step handlers selector offset s (.accept line cpu) = some s') : Invariant s' := by
  by_cases hacc : s.pics.Accepts line
  · simp only [step, if_pos hacc, frameAtCall_vector selector offset hs line cpu,
      Option.some.injEq] at hstep
    subst hstep
    obtain ⟨hmacc, hsacc⟩ := hacc
    refine ⟨hs.vectors, ?_, ?_, ?_, ?_⟩
    · intro a ha
      rcases List.mem_cons.mp ha with rfl | ha
      · show (if 32 + line.val < 32 then _ else _) = _
        rw [if_neg (by omega)]
      · exact hs.frames a ha
    · rw [List.pairwise_cons]
      refine ⟨?_, hs.nested⟩
      -- an input in service below the accepted one would have held it back
      intro a ha
      by_contra hle
      have hset := (hs.master (masterInput a.line)).mpr ⟨a, ha, rfl⟩
      rw [hmacc _ (Nat.le_of_not_lt hle)] at hset
      exact absurd hset (by decide)
    · intro j
      show (s.pics.master.isr ||| masterBits line).getLsbD j = true ↔ _
      rw [BitVec.getLsbD_or, Bool.or_eq_true, hs.master j, getLsbD_masterBits, decide_eq_true_iff]
      simp only [List.mem_cons, exists_eq_or_imp]
      exact or_comm
    · intro j
      show (s.pics.slave.isr ||| slaveBits line).getLsbD j = true ↔ _
      rw [BitVec.getLsbD_or, Bool.or_eq_true, hs.slave j, getLsbD_slaveBits, decide_eq_true_iff]
      simp only [List.mem_cons, exists_eq_or_imp]
      exact or_comm
  · simp [step, if_neg hacc] at hstep

/-- The innermost interrupt is the first in service on the first chip, whatever its line. -/
theorem retire_master {s : State} {a : Active} {rest : List Active} (hs : Invariant s)
    (hact : s.active = a :: rest) :
    retire s.pics.master.isr = s.pics.master.isr &&& ~~~masterBits a.line := by
  have hnested := hs.nested
  rw [hact, List.pairwise_cons] at hnested
  apply retire_eq (masterInput_lt a.line)
  · exact (hs.master _).mpr ⟨a, by simp [hact], rfl⟩
  · intro j hj
    rw [← Bool.not_eq_true, hs.master j, hact]
    intro hex
    obtain ⟨b, hb, rfl⟩ := hex
    rcases List.mem_cons.mp hb with rfl | hb
    · exact Nat.lt_irrefl _ hj
    · exact Nat.lt_asymm hj (hnested.1 b hb)

/-- Two interrupts of the second chip are never in progress together. -/
theorem slave_line_alone {s : State} {a : Active} {rest : List Active} (hs : Invariant s)
    (hact : s.active = a :: rest) (ha : 8 ≤ a.line.val) : ∀ b ∈ rest, ¬8 ≤ b.line.val := by
  have hnested := hs.nested
  rw [hact, List.pairwise_cons] at hnested
  intro b hb h8
  have hlt := hnested.1 b hb
  simp only [masterInput, show ¬a.line.val < 8 by omega, show ¬b.line.val < 8 by omega, if_false]
    at hlt
  omega

/-- An innermost interrupt of the second chip is the only one in service there. -/
theorem retire_slave {s : State} {a : Active} {rest : List Active} (hs : Invariant s)
    (hact : s.active = a :: rest) (ha : 8 ≤ a.line.val) :
    retire s.pics.slave.isr = s.pics.slave.isr &&& ~~~slaveBits a.line := by
  have halone := slave_line_alone hs hact ha
  rw [slaveBits, if_neg (by omega)]
  apply retire_eq (show a.line.val - 8 < 8 by omega)
  · exact (hs.slave _).mpr ⟨a, by simp [hact], ha, rfl⟩
  · intro j hj
    rw [← Bool.not_eq_true, hs.slave j, hact]
    intro hex
    obtain ⟨b, hb, h8, rfl⟩ := hex
    rcases List.mem_cons.mp hb with rfl | hb
    · exact Nat.lt_irrefl _ hj
    · exact halone b hb h8

/-- What a completion writes and leaves, for every line. -/
theorem completion_spec {s : State} {a : Active} {rest : List Active} (hs : Invariant s)
    (hact : s.active = a :: rest) :
    completionWrites handlers a = [(spicCommand, cmdEoi), (mpicCommand, cmdEoi)] ∧
      step handlers selector offset s .complete = some
        ⟨⟨{ s.pics.master with isr := s.pics.master.isr &&& ~~~masterBits a.line },
          { s.pics.slave with isr := retire s.pics.slave.isr }⟩, rest⟩ := by
  have hframe := hs.frames a (by simp [hact])
  have hadm : isIrqInterrupt a.frame.intNo = true := by
    rw [isIrqInterrupt_iff, hframe, BitVec.toNat_ofNat]
    omega
  have hwrites : completionWrites handlers a = [(spicCommand, cmdEoi), (mpicCommand, cmdEoi)] := by
    rw [completionWrites, eoiWrites_irqInterruptHandler handlers a.frame hadm, hframe,
      sendEoi_vector]
  refine ⟨hwrites, ?_⟩
  simp only [step, hact, hwrites, writes_eoi, retire_master hs hact]

/-- Completing an interrupt of the second chip keeps the invariant. -/
theorem invariant_complete {s s' : State} {a : Active} {rest : List Active} (hs : Invariant s)
    (hact : s.active = a :: rest) (ha : 8 ≤ a.line.val)
    (hstep : step handlers selector offset s .complete = some s') : Invariant s' := by
  rw [(completion_spec handlers selector offset hs hact).2, retire_slave hs hact ha,
    Option.some.injEq] at hstep
  subst hstep
  have halone := slave_line_alone hs hact ha
  have hnested := hs.nested
  rw [hact, List.pairwise_cons] at hnested
  refine ⟨hs.vectors, ?_, hnested.2, ?_, ?_⟩
  · intro b hb
    exact hs.frames b (by simp [hact, hb])
  · intro j
    show (s.pics.master.isr &&& ~~~masterBits a.line).getLsbD j = true ↔ _
    rw [getLsbD_and_not, Bool.and_eq_true, hs.master j, getLsbD_masterBits, hact]
    simp only [List.mem_cons, exists_eq_or_imp]
    constructor
    · intro h
      obtain ⟨h1 | h1, h2⟩ := h
      · simp [h1] at h2
      · exact h1
    · intro h
      obtain ⟨b, hb, rfl⟩ := h
      have hne := Nat.ne_of_gt (hnested.1 b hb)
      exact ⟨.inr ⟨b, hb, rfl⟩, by simp [hne]⟩
  · intro j
    show (s.pics.slave.isr &&& ~~~slaveBits a.line).getLsbD j = true ↔ _
    rw [getLsbD_and_not, Bool.and_eq_true, hs.slave j, getLsbD_slaveBits, hact]
    simp only [List.mem_cons, exists_eq_or_imp]
    constructor
    · intro h
      obtain ⟨h1 | h1, h2⟩ := h
      · simp [h1] at h2
      · exact h1
    · intro h
      obtain ⟨b, hb, h8, -⟩ := h
      exact absurd h8 (halone b hb)

/-! ### Exactness -/

/-- A completion is exact when its line belongs to the second chip, and only then. -/
theorem exactCompletion_iff {s s' : State} {e : Event} (hs : Invariant s)
    (hstep : step handlers selector offset s e = some s') :
    ExactCompletion handlers s e s' ↔ CompletesSlaveLine s e s' := by
  constructor
  · intro h a rest he hact
    have hcount := (h a rest he hact).2.1
    rw [(completion_spec handlers selector offset hs hact).1] at hcount
    by_contra hlt
    rw [if_neg hlt] at hcount
    exact absurd hcount (by decide)
  · intro h a rest he hact
    have ha := h a rest he hact
    obtain ⟨hwrites, hnext⟩ := completion_spec handlers selector offset hs hact
    subst he
    rw [hnext, retire_slave hs hact ha, Option.some.injEq] at hstep
    subst hstep
    rw [hwrites, if_pos ha]
    exact ⟨rfl, rfl, rfl, rfl⟩

/-- **Exact runs.** From the state `_start` leaves, along every run of accepted and completed IRQs,
in any nesting: the completions are all exact if and only if every completed line belongs to the
second chip. -/
theorem runs_exact_iff (s : State) (hs : Idle s) (es : List Event) :
    (system handlers selector offset).Along (ExactCompletion handlers) s es ↔
      (system handlers selector offset).Along CompletesSlaveLine s es := by
  apply Machine.along_iff (I := Invariant) _ _ (invariant_idle hs)
  · intro s e s' hinv hstep hline
    cases e with
    | accept line cpu => exact invariant_accept handlers selector offset hinv hstep
    | complete =>
      cases hact : s.active with
      | nil => simp [system, step, hact] at hstep
      | cons a rest =>
        exact invariant_complete handlers selector offset hinv hact (hline a rest rfl hact) hstep
  · intro s e s' hinv hstep
    exact exactCompletion_iff handlers selector offset hinv hstep

end System

/-! ### Two runs -/

/-- No handler installed, none behind the table. -/
def noHandlers : HandlerTable Unit := ⟨fun _ => none, fun _ => none⟩

/-- The controllers as `_start` programs them after the boot protocol. -/
def started : State := ⟨execCalls startCalls maskedPair, []⟩

theorem idle_started : Idle started := ⟨rfl, maskedPair, ⟨rfl, rfl⟩, rfl, rfl, rfl⟩

/-- Line 9 accepted and completed: nothing else is in service, and the completion is exact. -/
theorem runs_exact_iff_line9 :
    (system noHandlers 0x28 0).Along (ExactCompletion noHandlers) started
      [.accept 9 zeroCpu, .complete] := by
  rw [runs_exact_iff noHandlers 0x28 0 started idle_started]
  intro s₁ h₁
  refine ⟨by simp [CompletesSlaveLine], ?_⟩
  intro s₂ h₂
  refine ⟨?_, trivial⟩
  intro a rest _ hact
  have hacc : started.pics.Accepts 9 := by decide
  have hstep : step noHandlers 0x28 0 started (.accept 9 zeroCpu) = some s₁ := h₁
  simp only [step, if_pos hacc, frameAtCall_vector 0x28 0 (invariant_idle idle_started) 9 zeroCpu,
    Option.some.injEq] at hstep
  subst hstep
  obtain ⟨rfl, -⟩ := List.cons.inj hact
  decide

/-- The keyboard's line 1 interrupts the handler of line 8. Its completion tells the second chip
that an interrupt ended, and line 8 is no longer in service although its handler still runs. -/
theorem keyboard_in_line8_not_exact :
    ¬(system noHandlers 0x28 0).Along (ExactCompletion noHandlers) started
        [.accept 8 zeroCpu, .accept 1 zeroCpu, .complete] ∧
      ∃ s, (system noHandlers 0x28 0).run started
          [.accept 8 zeroCpu, .accept 1 zeroCpu, .complete] = some s ∧
        s.active.map Active.line = [8] ∧ s.pics.slave.isr = 0 := by
  -- the two accepts
  have hinv₀ := invariant_idle idle_started
  have hacc₁ : started.pics.Accepts 8 := by decide
  obtain ⟨s₁, hs₁⟩ : ∃ s₁, s₁ = (⟨started.pics.acknowledge 8,
      [⟨8, builtFrame zeroCpu 40 0⟩]⟩ : State) := ⟨_, rfl⟩
  have hstep₁ : step noHandlers 0x28 0 started (.accept 8 zeroCpu) = some s₁ := by
    simp only [step, if_pos hacc₁, frameAtCall_vector 0x28 0 hinv₀ 8 zeroCpu, hs₁]
    rfl
  have hinv₁ := invariant_accept noHandlers 0x28 0 hinv₀ hstep₁
  have hacc₂ : s₁.pics.Accepts 1 := by
    rw [hs₁]
    decide
  obtain ⟨s₂, hs₂⟩ : ∃ s₂, s₂ = (⟨s₁.pics.acknowledge 1,
      ⟨1, builtFrame zeroCpu 33 0⟩ :: s₁.active⟩ : State) := ⟨_, rfl⟩
  have hstep₂ : step noHandlers 0x28 0 s₁ (.accept 1 zeroCpu) = some s₂ := by
    simp only [step, if_pos hacc₂, frameAtCall_vector 0x28 0 hinv₁ 1 zeroCpu, hs₂]
    rfl
  have hinv₂ := invariant_accept noHandlers 0x28 0 hinv₁ hstep₂
  -- the completion of line 1
  have hact₂ : s₂.active = ⟨1, builtFrame zeroCpu 33 0⟩ :: s₁.active := by rw [hs₂]
  obtain ⟨s₃, hs₃⟩ : ∃ s₃, s₃ = (⟨⟨{ s₂.pics.master with
      isr := s₂.pics.master.isr &&& ~~~masterBits 1 },
      { s₂.pics.slave with isr := retire s₂.pics.slave.isr }⟩, s₁.active⟩ : State) := ⟨_, rfl⟩
  have hstep₃ : step noHandlers 0x28 0 s₂ .complete = some s₃ := by
    rw [hs₃]
    exact (completion_spec noHandlers 0x28 0 hinv₂ hact₂).2
  refine ⟨?_, s₃, ?_, ?_, ?_⟩
  · intro h
    have hex := (((h s₁ hstep₁).2 s₂ hstep₂).2 s₃ hstep₃).1
    have h8 := (exactCompletion_iff noHandlers 0x28 0 hinv₂ hstep₃).mp hex _ _ rfl hact₂
    exact absurd h8 (by decide)
  · rw [Machine.run_cons hstep₁, Machine.run_cons hstep₂, Machine.run_cons hstep₃]
    rfl
  · rw [hs₃, hs₁]
    rfl
  · rw [hs₃, hs₂, hs₁]
    decide

end MegaOS.Eoi
