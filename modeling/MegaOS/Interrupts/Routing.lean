import MegaOS.Foundation.Runs
import MegaOS.Interrupts.Handlers

/-!
# Routing of the log under interrupts

The kernel's thread makes calls of the log, single step by single step; between
any two steps an interrupt may be taken, whose handler runs to its end or halts.

A handler that returns leaves the flag `use_serial` clear if it logged to the
host, and prints through the flag if the backspace key was typed. Both are right
when the flag was clear, and wrong in the middle of a message to the host.
-/

namespace MegaOS.Routing

open MegaOS.Memory MegaOS.Log MegaOS.Keyboard MegaOS.Interrupts MegaOS.Runs

/-- The log, the keyboard's `key_up`, and the steps the thread has still to do. -/
structure State where
  console : Console
  keyUp : Byte
  pending : List Op

inductive Event
  /-- The thread does its next step. -/
  | resume
  /-- The stub of an interrupt calls `c` with the frame `f`; the keyboard's data port holds
  `code`. -/
  | interrupt (c : Callee) (f : InterruptFrame) (code : Byte)

section System

variable (beyond : ℕ → Option Handler)

/-- Nothing happens any more once the processor is halted. -/
def step (s : State) : Event → Option State
  | .resume =>
    match s.pending with
    | [] => none
    | op :: ops =>
      if s.console.halted then none
      else some { s with console := s.console.exec op, pending := ops }
  | .interrupt c f code =>
    if s.console.halted then none
    else (interruptSteps beyond c f s.keyUp code).map fun r =>
      { s with console := s.console.execAll r.2, keyUp := r.1 }

def system : Machine State Event := ⟨step beyond⟩

/-- The thread's next step. -/
theorem step_resume {s s' : State} (hstep : step beyond s .resume = some s') :
    s.console.halted = false ∧ ∃ op ops, s.pending = op :: ops ∧
      s' = { s with console := s.console.exec op, pending := ops } := by
  cases hpending : s.pending with
  | nil => simp [step, hpending] at hstep
  | cons op ops =>
    cases hhalted : s.console.halted with
    | true => simp [step, hpending, hhalted] at hstep
    | false =>
      simp only [step, hpending, hhalted, Bool.false_eq_true, if_false,
        Option.some.injEq] at hstep
      exact ⟨rfl, op, ops, rfl, hstep.symm⟩

/-- A whole handler. -/
theorem step_interrupt {s s' : State} {c : Callee} {f : InterruptFrame} {code : Byte}
    (hstep : step beyond s (.interrupt c f code) = some s') :
    s.console.halted = false ∧ ∃ r, interruptSteps beyond c f s.keyUp code = some r ∧
      s' = { s with console := s.console.execAll r.2, keyUp := r.1 } := by
  cases hhalted : s.console.halted with
  | true => simp [step, hhalted] at hstep
  | false =>
    simp only [step, hhalted, Bool.false_eq_true, if_false, Option.map_eq_some_iff] at hstep
    obtain ⟨r, hr, rfl⟩ := hstep
    exact ⟨rfl, r, hr, rfl⟩

/-- The device a family's characters are meant for; `w` is the terminal's write function. -/
def deviceOf (w : Word) : Family → Device
  | .kernel => .terminal w
  | .host => .serial

def Routed (w : Word) (trace : List Emission) : Prop := ∀ x ∈ trace, x.device = deviceOf w x.family

/-- Every character so far went to its family's device, and a handler that returns finds the flag as
it was. -/
def RoutesRight (w : Word) (s : State) (e : Event) (s' : State) : Prop :=
  Routed w s'.console.trace ∧
    (e ≠ .resume → s'.console.halted = false → s'.console.useSerial = s.console.useSerial)

/-- No interrupt in the middle of a message to the host, but those whose handler halts and the
keyboard's for any key but backspace. -/
def Undisturbed (s : State) (e : Event) (_ : State) : Prop :=
  match e with
  | .resume => True
  | .interrupt c f code =>
    s.console.useSerial = false ∨ (c = .cpuExceptionHandler ∨ isIrqInterrupt f.intNo = false) ∨
      ((installedHandlers beyond).read f.intNo.toNat = some .keyboard ∧ code ≠ 0x0E)

/-! ### Steps that send each character to its device -/

/-- The flag that sends a family's characters to its device. -/
def flagOf : Family → Bool
  | .kernel => false
  | .host => true

/-- The steps route right when they start with the flag `b`. -/
def Sends : Bool → List Op → Prop
  | _, [] => True
  | _, .setSerial b :: ops => Sends b ops
  | b, .putchar f _ :: ops => b = flagOf f ∧ Sends b ops
  | b, .kputc _ :: ops => Sends b ops
  | _, .halt :: _ => True

theorem sends_chars (f : Family) (text : List Byte) {ops : List Op} (h : Sends (flagOf f) ops) :
    Sends (flagOf f) (chars f text ++ ops) := by
  induction text with
  | nil => exact h
  | cons c text ih => exact ⟨rfl, ih⟩

theorem sends_host (b : Bool) (text : List Byte) {ops : List Op} (h : Sends false ops) :
    Sends b (callShape .host text ++ ops) := by
  show Sends true ((chars .host text ++ [.setSerial false]) ++ ops)
  rw [List.append_assoc]
  exact sends_chars .host text h

/-- Messages route right from a clear flag. -/
theorem sends_messages (ms : List (Family × List Byte)) {ops : List Op} (h : Sends false ops) :
    Sends false (messages ms ++ ops) := by
  induction ms with
  | nil => exact h
  | cons m ms ih =>
    obtain ⟨f, text⟩ := m
    rw [messages, List.flatMap_cons, List.append_assoc]
    cases f with
    | kernel => exact sends_chars .kernel text ih
    | host => exact sends_host false text ih

theorem routed_outCharFuncs (s : Console) (f : Family) (c : Byte)
    (h : s.useSerial = flagOf f) : Routed s.write (outCharFuncs s f c) := by
  intro x hx
  cases f with
  | kernel =>
    rw [outCharFuncs, h] at hx
    obtain ⟨hfamily, hdevice⟩ := mem_kputc hx
    rw [hfamily, hdevice]
    rfl
  | host =>
    rw [outCharFuncs, h] at hx
    obtain ⟨hfamily, hdevice⟩ := mem_dputc hx
    rw [hfamily, hdevice]
    rfl

/-- One step. -/
theorem exec_routed {s : Console} {op : Op} {ops : List Op} (ht : Routed s.write s.trace)
    (hs : Sends s.useSerial (op :: ops)) :
    Routed s.write (s.exec op).trace ∧
      ((s.exec op).halted = false → Sends (s.exec op).useSerial ops) := by
  cases op with
  | setSerial b => exact ⟨ht, fun _ => hs⟩
  | putchar f c =>
    have hnew := routed_outCharFuncs s f c hs.1
    exact ⟨List.forall_mem_append.mpr ⟨ht, hnew⟩, fun _ => hs.2⟩
  | kputc c =>
    refine ⟨List.forall_mem_append.mpr ⟨ht, ?_⟩, fun _ => hs⟩
    intro x hx
    obtain ⟨hfamily, hdevice⟩ := mem_kputc hx
    rw [hfamily, hdevice]
    rfl
  | halt => exact ⟨ht, nofun⟩

/-- All steps. -/
theorem execAll_routed {ops : List Op} {s : Console} (ht : Routed s.write s.trace)
    (hs : Sends s.useSerial ops) : Routed s.write (s.execAll ops).trace := by
  induction ops generalizing s with
  | nil => exact ht
  | cons op ops ih =>
    cases hhalted : s.halted with
    | true =>
      rw [execAll_of_halted hhalted]
      exact ht
    | false =>
      rw [execAll_cons _ _ hhalted]
      obtain ⟨ht', hs'⟩ := exec_routed ht hs
      cases hnext : (s.exec op).halted with
      | false =>
        rw [← exec_write s op] at ht' ⊢
        exact ih ht' (hs' hnext)
      | true =>
        rw [execAll_of_halted hnext]
        exact ht'

/-! ### The handlers -/

theorem execAll_halt (s : Console) (ops : List Op) : (s.execAll (ops ++ [.halt])).halted = true := by
  rw [execAll_append]
  cases hhalted : (s.execAll ops).halted with
  | false =>
    rw [execAll_cons _ _ hhalted]
    rfl
  | true =>
    rw [execAll_of_halted hhalted]
    exact hhalted

/-- The keyboard's handler leaves the flag as it is. -/
theorem execAll_keySteps_flag (upper : Bool) (code : Byte) {s : Console}
    (hhalted : s.halted = false) :
    (s.execAll (keySteps upper code)).useSerial = s.useSerial := by
  rw [keySteps]
  split
  · rfl
  split
  · rw [execAll_chars _ _ hhalted]
  split
  · rw [execAll_cons _ _ hhalted]
    rfl
  split
  · rw [execAll_cons _ _ hhalted]
    rfl
  split
  · rw [execAll_cons _ _ hhalted]
    rfl
  · rfl

/-- It routes right when the flag is clear or the key is not backspace. -/
theorem sends_keySteps (upper : Bool) {b : Bool} {code : Byte} (h : b = false ∨ code ≠ 0x0E) :
    Sends b (keySteps upper code) := by
  rw [keySteps]
  split
  · exact trivial
  split
  · next hback =>
    obtain rfl := h.resolve_right (not_not_intro hback)
    rw [← List.append_nil (chars _ _)]
    exact sends_chars .kernel _ trivial
  repeat' split
  all_goals exact trivial

/-- Backspace in the middle of a message to the host is not routed right. -/
theorem backspace_not_routed (w : Word) (upper : Bool) {s : Console} (hserial : s.useSerial = true)
    (hhalted : s.halted = false) : ¬Routed w (s.execAll (keySteps upper 0x0E)).trace := by
  have hsteps : keySteps upper 0x0E = chars .kernel [ch '\x08', ch ' ', ch '\x08'] := rfl
  intro h
  have hmem : (⟨.kernel, .serial, ch ' '⟩ : Emission) ∈ (s.execAll (keySteps upper 0x0E)).trace := by
    rw [hsteps, execAll_chars _ _ hhalted]
    apply List.mem_append_right
    simp only [List.flatMap_cons, outCharFuncs, hserial, if_true]
    exact List.mem_append_right _ (List.mem_append_left _ (List.mem_singleton.mpr rfl))
  exact Device.noConfusion (h _ hmem)

/-! ### Runs -/

/-- All went right so far, and what the thread has still to do will. -/
structure Invariant (w : Word) (s : State) : Prop where
  write : s.console.write = w
  routed : Routed w s.console.trace
  sends : s.console.halted = false → Sends s.console.useSerial s.pending

section Interrupt

variable {w : Word} {s : State} (hs : Invariant w s)

include hs

/-- Steps that send each character to its device keep the whole output routed. -/
theorem routed_execAll {ops : List Op} (h : Sends s.console.useSerial ops) :
    Routed w (s.console.execAll ops).trace := by
  have hrouted := hs.routed
  rw [← hs.write] at hrouted ⊢
  exact execAll_routed hrouted h

/-- A handler that halts starts with a message to the host, so the flag does not matter. -/
theorem routesRight_halts (dump : List Byte) (ms : List (Family × List Byte)) {s' : State}
    {e : Event} (hs' : s'.console = s.console.execAll (messages ((.host, dump) :: ms) ++ [.halt])) :
    RoutesRight w s e s' := by
  have hsends : Sends s.console.useSerial (messages ((.host, dump) :: ms) ++ [.halt]) := by
    rw [messages, List.flatMap_cons, List.append_assoc]
    exact sends_host _ dump (sends_messages ms trivial)
  refine ⟨?_, ?_⟩
  · rw [hs']
    exact routed_execAll hs hsends
  · intro _ hrunning
    rw [hs', execAll_halt] at hrunning
    exact absurd hrunning.symm Bool.false_ne_true

/-- A message to the host leaves the flag clear. -/
theorem routesRight_unhandled_iff (hhalted : s.console.halted = false) (text : List Byte)
    {s' : State} {e : Event} (he : e ≠ .resume)
    (hs' : s'.console = s.console.execAll (messages [(.host, text)])) :
    RoutesRight w s e s' ↔ s.console.useSerial = false := by
  have hone : messages [(.host, text)] = callShape .host text := List.append_nil _
  rw [hone] at hs'
  have hend := hs'.trans (execAll_callShape_host text hhalted)
  have hflag : s'.console.useSerial = false := by rw [hend]
  have hrunning : s'.console.halted = false := by rw [hend, hhalted]
  constructor
  · intro h
    rw [← h.2 he hrunning, hflag]
  · intro hclear
    refine ⟨?_, ?_⟩
    · rw [hs', ← List.append_nil (callShape .host text)]
      exact routed_execAll hs (sends_host _ text trivial)
    · intro _ _
      rw [hflag, hclear]

/-- The keyboard's handler prints backspace through the flag, and everything else past it. -/
theorem routesRight_keyboard_iff (hhalted : s.console.halted = false) (upper : Bool) (code : Byte)
    {s' : State} {e : Event} (hs' : s'.console = s.console.execAll (keySteps upper code)) :
    RoutesRight w s e s' ↔ s.console.useSerial = false ∨ code ≠ 0x0E := by
  constructor
  · intro h
    by_contra hbad
    obtain ⟨hserial, hcode⟩ := not_or.mp hbad
    obtain rfl := not_not.mp hcode
    have htrue : s.console.useSerial = true := eq_true_of_ne_false hserial
    have hrouted := h.1
    rw [hs'] at hrouted
    exact backspace_not_routed w upper htrue hhalted hrouted
  · intro h
    refine ⟨?_, ?_⟩
    · rw [hs']
      exact routed_execAll hs (sends_keySteps upper h)
    · intro _ _
      rw [hs', execAll_keySteps_flag upper code hhalted]

end Interrupt

/-- One step routes right if and only if it does not disturb a message to the host. -/
theorem routesRight_iff {w : Word} {s s' : State} {e : Event} (hs : Invariant w s)
    (hstep : step beyond s e = some s') : RoutesRight w s e s' ↔ Undisturbed beyond s e s' := by
  cases e with
  | resume =>
    obtain ⟨hhalted, op, ops, hpending, rfl⟩ := step_resume beyond hstep
    have hsends := hs.sends hhalted
    have hrouted := hs.routed
    rw [hpending] at hsends
    refine iff_of_true ⟨?_, fun h => absurd rfl h⟩ trivial
    rw [← hs.write] at hrouted ⊢
    exact (exec_routed hrouted hsends).1
  | interrupt c f code =>
    obtain ⟨hhalted, r, hr, rfl⟩ := step_interrupt beyond hstep
    by_cases hhalts : c = .cpuExceptionHandler ∨ isIrqInterrupt f.intNo = false
    · obtain ⟨dump, ms, hsteps⟩ := interruptSteps_halts beyond s.keyUp code hhalts
      obtain rfl := Option.some.inj (hr.symm.trans hsteps)
      exact iff_of_true (routesRight_halts hs dump ms rfl) (.inr (.inl hhalts))
    · obtain ⟨hc, hirq⟩ := not_or.mp hhalts
      rw [Bool.not_eq_false] at hirq
      cases c with
      | cpuExceptionHandler => exact absurd rfl hc
      | irqInterruptHandler =>
        cases hread : (installedHandlers beyond).read f.intNo.toNat with
        | none =>
          obtain ⟨text, hsteps⟩ := interruptSteps_unhandled beyond s.keyUp code hirq hread
          obtain rfl := Option.some.inj (hr.symm.trans hsteps)
          apply Iff.trans (b := s.console.useSerial = false)
          · exact routesRight_unhandled_iff hs hhalted text nofun rfl
          · simp [Undisturbed, hirq, hread]
        | some h =>
          cases h
          have hsteps := interruptSteps_keyboard beyond s.keyUp code hirq hread
          obtain rfl := Option.some.inj (hr.symm.trans hsteps)
          apply Iff.trans (b := s.console.useSerial = false ∨ code ≠ 0x0E)
          · exact routesRight_keyboard_iff hs hhalted (s.keyUp ≠ 0) code rfl
          · simp [Undisturbed, hirq, hread]

theorem invariant_step {w : Word} {s s' : State} {e : Event} (hs : Invariant w s)
    (hstep : step beyond s e = some s') (h : RoutesRight w s e s') : Invariant w s' := by
  cases e with
  | resume =>
    obtain ⟨hhalted, op, ops, hpending, rfl⟩ := step_resume beyond hstep
    have hsends := hs.sends hhalted
    have hrouted := hs.routed
    rw [hpending] at hsends
    rw [← hs.write] at hrouted
    exact ⟨(exec_write _ op).trans hs.write, h.1, (exec_routed hrouted hsends).2⟩
  | interrupt c f code =>
    obtain ⟨hhalted, r, -, rfl⟩ := step_interrupt beyond hstep
    refine ⟨(execAll_write _ r.2).trans hs.write, h.1, ?_⟩
    -- the thread finds the flag as it left it
    intro hrunning
    rw [h.2 nofun hrunning]
    exact hs.sends hhalted

/-- **Routing.** After `log::init` found the terminal's function `w`, for every sequence of calls the
thread makes and every interleaving with interrupts: all characters go where they are meant to go,
and handlers leave the flag as it was, if and only if no interrupt but those of `Undisturbed` is
taken in the middle of a message to the host. -/
theorem routing_iff (w : Word) (calls : List Call) (ops : List Op)
    (hops : callSteps calls = some ops) (keyUp : Byte) (es : List Event) :
    (system beyond).Along (RoutesRight w) ⟨⟨w, false, false, []⟩, keyUp, ops⟩ es ↔
      (system beyond).Along (Undisturbed beyond) ⟨⟨w, false, false, []⟩, keyUp, ops⟩ es := by
  have hinit : Invariant w ⟨⟨w, false, false, []⟩, keyUp, ops⟩ := by
    obtain ⟨ms, rfl⟩ := callSteps_messages hops
    refine ⟨rfl, fun x hx => absurd hx List.not_mem_nil, ?_⟩
    intro _
    rw [← List.append_nil (messages ms)]
    exact sends_messages ms trivial
  apply Machine.along_iff _ _ hinit
  · intro s e s' hinv hstep h
    exact invariant_step beyond hinv hstep ((routesRight_iff beyond hinv hstep).mpr h)
  · intro s e s' hinv hstep
    exact routesRight_iff beyond hinv hstep

end System

/-! ### Two runs -/

/-- A letter is typed in the middle of a message to the host. -/
theorem routing_iff_letter :
    (system fun _ => none).Along (RoutesRight 0x1000)
      ⟨⟨0x1000, false, false, []⟩, 0,
        [.setSerial true, .putchar .host (ch 'a'), .putchar .host (ch '\n'), .setSerial false]⟩
      [.resume, .resume, .interrupt .irqInterruptHandler (builtFrame zeroCpu 33 0) 0x1E,
        .resume] := by
  have hops : callSteps [.dputs (some (cstr "a"))] = some
      [.setSerial true, .putchar .host (ch 'a'), .putchar .host (ch '\n'), .setSerial false] := rfl
  rw [routing_iff (fun _ => none) 0x1000 _ _ hops 0]
  intro s₁ _
  refine ⟨trivial, ?_⟩
  intro s₂ _
  refine ⟨trivial, ?_⟩
  intro s₃ _
  refine ⟨.inr (.inr ⟨rfl, by decide⟩), ?_⟩
  intro s₄ _
  exact ⟨trivial, trivial⟩

/-- An IRQ without handler arrives in the middle of a message to the host: the rest of the message
will go to the terminal. -/
theorem unhandled_in_message_not_routed :
    ¬(system fun _ => none).Along (RoutesRight 0x1000)
      ⟨⟨0x1000, false, false, []⟩, 0,
        [.setSerial true, .putchar .host (ch 'a'), .putchar .host (ch '\n'), .setSerial false]⟩
      [.resume, .interrupt .irqInterruptHandler (builtFrame zeroCpu 34 0) 0] := by
  intro h
  obtain ⟨s₁, hs₁⟩ : ∃ s₁ : State, s₁ = ⟨⟨0x1000, true, false, []⟩, 0,
    [.putchar .host (ch 'a'), .putchar .host (ch '\n'), .setSerial false]⟩ := ⟨_, rfl⟩
  have hrest := (h s₁ (by rw [hs₁]; rfl)).2
  have hinv : Invariant 0x1000 s₁ := by
    rw [hs₁]
    exact ⟨rfl, fun x hx => absurd hx List.not_mem_nil, fun _ => ⟨rfl, rfl, trivial⟩⟩
  have hhalted : s₁.console.halted = false := by rw [hs₁]
  obtain ⟨text, hsteps⟩ := interruptSteps_unhandled (fun _ => none) s₁.keyUp 0
    (show isIrqInterrupt (builtFrame zeroCpu 34 0).intNo = true by decide) rfl
  have hstep : step (fun _ => none) s₁
      (.interrupt .irqInterruptHandler (builtFrame zeroCpu 34 0) 0) =
      some { s₁ with console := s₁.console.execAll (messages [(.host, text)]) } := by
    simp only [step, hhalted, Bool.false_eq_true, if_false, hsteps, Option.map_some]
  have hundisturbed := (routesRight_iff _ hinv hstep).mp (hrest _ hstep).1
  rw [hs₁] at hundisturbed
  rcases hundisturbed with hclear | hhalts | hkeyboard
  · exact absurd hclear nofun
  · exact absurd hhalts (by decide)
  · exact absurd hkeyboard.1 nofun

end MegaOS.Routing
