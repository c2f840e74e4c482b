import MegaOS.Boot.KernelRuns

/-!
# Failures of the kernel

Two ways a run can go wrong early: an exception, and a log that has no terminal.
An exception is final. Its handler halts the processor with interrupts off, and
whatever was interrupted is never resumed. And no message reaches the terminal's
write function while that is null, from the first assertion of `_start` on: without
its port accesses, the kernel is what the boot model says of it.
-/

namespace MegaOS.Kernel

open MegaOS.Memory MegaOS.Log MegaOS.Assembly MegaOS.Pic8259 MegaOS.Pic MegaOS.Interrupts MegaOS.Boot
  MegaOS.Runs

/-! ### Exceptions -/

/-- In `t`, handlers of exceptions stand above all that was there in `s`, and hold it: interrupts
are off, and `_start` and the controllers are where they were. -/
structure Frozen (s t : State) : Prop where
  above : ∃ above, above ≠ [] ∧ t.handlers = above ++ s.handlers ∧
    ∀ a ∈ above, a.request = none ∧ Halts a.steps
  masked : t.interruptFlag = false
  pics : t.pics = s.pics
  thread : t.thread = s.thread

section System

variable {b : BootMemory} {serialInit : Bool} {beyond : ℕ → Option Handler} {addr : Label → Addr}
variable {s t t' : State}

/-- An exception freezes what it interrupts. -/
theorem frozen_exception {v : Fin 32} {e : Word} {cpu : Cpu}
    (hstep : step b serialInit beyond addr s (.exception v e cpu) = some t) : Frozen s t := by
  obtain ⟨-, os, -, rfl⟩ := step_exception hstep
  refine ⟨⟨[⟨none, builtFrame cpu v.val e, ops (os ++ [.halt])⟩], List.cons_ne_nil _ _, rfl, ?_⟩,
    rfl, rfl, rfl⟩
  intro a ha
  obtain rfl := List.mem_singleton.mp ha
  exact ⟨rfl, halts_ops os⟩

/-- No event thaws it. -/
theorem frozen_step (hs : Frozen s t) {e : Event}
    (hstep : step b serialInit beyond addr t e = some t') : Frozen s t' := by
  obtain ⟨above, hne, habove, hall⟩ := hs.above
  obtain ⟨a, rest, rfl⟩ := List.exists_cons_of_ne_nil hne
  obtain ⟨hrequest, hhalts⟩ := hall a List.mem_cons_self
  cases e with
  | resume =>
    rcases step_resume hstep with ⟨a', outer, st, rest', r, hhandlers, hsteps, hperform, rfl⟩ |
      ⟨st, rest', r, hhandlers, -⟩
    · obtain ⟨rfl, rfl⟩ := List.cons.inj (hhandlers.symm.trans habove)
      have hstop : Stopped t a' (rest ++ s.handlers) := ⟨habove, hs.masked, hrequest, hhalts⟩
      obtain ⟨hstop', -, hpics, hthread⟩ := stopped_resume hstop hsteps hperform
      refine ⟨⟨{ a' with steps := r.2 ++ rest' } :: rest, List.cons_ne_nil _ _, rfl, ?_⟩,
        hstop'.masked, hpics.trans hs.pics, hthread.trans hs.thread⟩
      intro a'' ha''
      rcases List.mem_cons.mp ha'' with rfl | ha''
      · exact ⟨hrequest, hstop'.halts⟩
      · exact hall a'' (List.mem_cons_of_mem a' ha'')
    · exact absurd (hhandlers.symm.trans habove) (List.cons_ne_nil _ _).symm
  | irq r cpu code =>
    -- the flag is off
    rw [step, if_neg (fun h => absurd (hs.masked.symm.trans h.1) Bool.false_ne_true)] at hstep
    exact absurd hstep (Option.some_ne_none _).symm
  | exception v err cpu =>
    obtain ⟨-, os, -, rfl⟩ := step_exception hstep
    refine ⟨⟨⟨none, builtFrame cpu v.val err, ops (os ++ [.halt])⟩ :: a :: rest,
      List.cons_ne_nil _ _, ?_, ?_⟩, rfl, hs.pics, hs.thread⟩
    · exact congrArg _ habove
    · intro a' ha'
      rcases List.mem_cons.mp ha' with rfl | ha'
      · exact ⟨rfl, halts_ops os⟩
      · exact hall a' ha'
  | finish =>
    obtain ⟨a', outer, hhandlers, hsteps, -⟩ := step_finish hstep
    obtain ⟨rfl, -⟩ := List.cons.inj (hhandlers.symm.trans habove)
    rw [hsteps] at hhalts
    exact hhalts.elim

variable (b serialInit beyond addr)

/-- A handler that logs and halts, left to itself, comes to its halt, and has then logged its
steps. -/
theorem halts_in_time (request : Option Request) (frame : InterruptFrame) (os : List Op)
    (outer : List Active) (hs : s.handlers = ⟨request, frame, ops (os ++ [.halt])⟩ :: outer) :
    ∃ n t, (machine b serialInit beyond addr).run s (List.replicate n .resume) = some t ∧
      t.console.halted = true ∧
      (s.console.halted = false → t.console = s.console.execAll (os ++ [.halt])) := by
  have hhalt : ∀ (s : State) (rest : List Step) (os : List Op),
      s.handlers = ⟨request, frame, .plain (.op .halt) :: rest⟩ :: outer →
      ∃ n t, (machine b serialInit beyond addr).run s (List.replicate n .resume) = some t ∧
        t.console.halted = true ∧
        (s.console.halted = false → t.console = s.console.execAll (.halt :: os)) := by
    intro s rest os hrest
    have hstep : step b serialInit beyond addr s .resume = _ := step_handler_halt hrest
    refine ⟨1, _, Machine.run_cons hstep, rfl, fun h => ?_⟩
    rw [execAll_cons _ _ h]
    exact (execAll_of_halted rfl os).symm
  induction os generalizing s with
  | nil => exact hhalt s _ [] hs
  | cons o os ih =>
    by_cases ho : o = .halt
    · subst ho
      exact hhalt s _ (os ++ [.halt]) hs
    · have hstep : step b serialInit beyond addr s .resume = some { s with
          console := s.console.exec o
          handlers := ⟨request, frame, ops (os ++ [.halt])⟩ :: outer } := step_handler_op hs ho
      obtain ⟨n, t, hrun, hhalted, hconsole⟩ := ih (s := { s with
        console := s.console.exec o
        handlers := ⟨request, frame, ops (os ++ [.halt])⟩ :: outer }) rfl
      refine ⟨n + 1, t, ?_, hhalted, ?_⟩
      · rw [List.replicate_succ, Machine.run_cons hstep]
        exact hrun
      · intro h
        have hnext : (s.console.exec o).halted = false := by
          cases o with
          | halt => exact absurd rfl ho
          | _ => exact h
        rw [List.cons_append, execAll_cons _ _ h]
        exact hconsole hnext

end System

/-! ### The terminal -/

/-- The steps that access no port and leave the interrupt flag alone. -/
def plainPart (steps : List Step) : List Boot.Step :=
  steps.filterMap fun
    | .plain st => some st
    | _ => none

theorem plainPart_append (steps steps' : List Step) :
    plainPart (steps ++ steps') = plainPart steps ++ plainPart steps' := List.filterMap_append

theorem plainPart_plain (steps : List Boot.Step) : plainPart (plain steps) = steps := by
  induction steps with
  | nil => rfl
  | cons st steps ih => exact congrArg (st :: ·) ih

/-- A program without its port accesses is what the boot model has of it. -/
theorem plainPart_startProgram (m : Mem) (bootInfo : Addr) (extent : ℕ) (gdtTable idtTable : Addr) :
    plainPart (startProgram m bootInfo extent gdtTable idtTable) =
      startSteps m bootInfo extent gdtTable idtTable := by
  have hinit : ∀ rest, plainPart (.plain .initOrHalt :: rest) = .initOrHalt :: plainPart rest :=
    fun _ => rfl
  have hsti : ∀ rest, plainPart (.sti :: rest) = plainPart rest := fun _ => rfl
  have hmask : plainPart (clearIrqMaskSteps 1) = [] := rfl
  have hpic : ∀ command data offset, plainPart (remapPicSteps command data offset) = [] :=
    fun _ _ _ => rfl
  rw [startProgram, enableSteps, remapSteps]
  rw [startSteps]
  simp only [plainPart_append, plainPart_plain, hinit, hsti, hmask, hpic, List.nil_append]

theorem effectsProgram_plainPart {c : Callee} {code keyUp : Byte} {es : List (Effect Handler)}
    {r : Byte × List Step} (h : effectsProgram c code keyUp es = some r) :
    ∃ os, effectsSteps c code keyUp es = some (r.1, os) ∧ plainPart r.2 = os.map .op := by
  induction es generalizing keyUp r with
  | nil =>
    obtain rfl := Option.some.inj h
    exact ⟨[], rfl, rfl⟩
  | cons e es ih =>
    have hone : ∀ q, effectProgram c keyUp code e = some q →
        ∃ os, effectSteps c keyUp code e = some (q.1, os) ∧ plainPart q.2 = os.map .op := by
      intro q hq
      by_cases heoi : ∃ irqNo, e = .sendEoi irqNo
      · obtain ⟨irqNo, rfl⟩ := heoi
        obtain rfl := Option.some.inj hq
        refine ⟨[], rfl, List.filterMap_eq_nil_iff.mpr ?_⟩
        intro st hst
        obtain ⟨w, -, rfl⟩ := List.mem_map.mp hst
        rfl
      · rw [effectProgram_of_no_eoi (not_exists.mp heoi)] at hq
        obtain ⟨q', hq', rfl⟩ := Option.map_eq_some_iff.mp hq
        exact ⟨q'.2, hq', plainPart_plain _⟩
    simp only [effectsProgram, Option.bind_eq_bind, Option.bind_eq_some_iff] at h
    obtain ⟨q, hq, q', hq', h⟩ := h
    obtain rfl := Option.some.inj h
    obtain ⟨os, hos, hpart⟩ := hone q hq
    obtain ⟨os', hos', hpart'⟩ := ih hq'
    refine ⟨os ++ os', ?_, ?_⟩
    · simp only [effectsSteps, hos, hos', Option.bind_eq_bind, Option.bind_some]
    · rw [plainPart_append, hpart, hpart', List.map_append]

/-- The kernel as the boot model sees it: without the controllers and the interrupt flag, and halted
where it does not go on. -/
def bootStateOf (s : State) : Boot.State where
  console := { s.console with halted := false }
  keyUp := s.keyUp
  idtInForce := s.idtInForce
  contexts := s.handlers.map (fun a => plainPart a.steps) ++ [plainPart s.thread]

section System

variable {b : BootMemory} {serialInit : Bool} {beyond : ℕ → Option Handler} {addr : Label → Addr}
variable {s s' : State}

/-- A step leaves what is left to do to its caller. -/
theorem perform_keeps {st : Step} {r : State × List Step}
    (hperform : perform b serialInit s st = some r) :
    r.1.thread = s.thread ∧ r.1.handlers = s.handlers := by
  cases st with
  | plain st =>
    cases st with
    | op o => cases o <;> (obtain rfl := Option.some.inj hperform; exact ⟨rfl, rfl⟩)
    | initOrHalt =>
      obtain ⟨q, -, rfl⟩ := Option.map_eq_some_iff.mp hperform
      exact ⟨rfl, rfl⟩
    | _ =>
      obtain rfl := Option.some.inj hperform
      exact ⟨rfl, rfl⟩
  | _ =>
    obtain rfl := Option.some.inj hperform
    exact ⟨rfl, rfl⟩

/-- A step of the running code, as the boot model sees it. -/
theorem perform_projects {st : Step} {rest : List Step} {outer : List (List Boot.Step)}
    {r : State × List Step} (hcontexts : (bootStateOf s).contexts = plainPart (st :: rest) :: outer)
    (hperform : perform b serialInit s st = some r) :
    { bootStateOf r.1 with contexts := plainPart (r.2 ++ rest) :: outer } = bootStateOf s ∨
      bootStep b serialInit beyond (bootStateOf s) .resume =
        some { bootStateOf r.1 with contexts := plainPart (r.2 ++ rest) :: outer } := by
  have hsame : ∀ t : State, t.console.write = s.console.write →
      t.console.useSerial = s.console.useSerial → t.console.trace = s.console.trace →
      t.keyUp = s.keyUp → t.idtInForce = s.idtInForce →
      { bootStateOf t with contexts := plainPart (st :: rest) :: outer } = bootStateOf s := by
    intro t hwrite huse htrace hkey hidt
    rw [← hcontexts]
    simp only [bootStateOf, hwrite, huse, htrace, hkey, hidt]
  cases st with
  | plain st =>
    have hboot : bootStep b serialInit beyond (bootStateOf s) .resume =
        advance b serialInit (bootStateOf s) (plainPart rest) outer st := by
      rw [bootStep, hcontexts]
      rfl
    cases st with
    | op o =>
      cases o with
      | halt =>
        obtain rfl := Option.some.inj hperform
        exact .inl (hsame _ rfl rfl rfl rfl rfl)
      | _ =>
        obtain rfl := Option.some.inj hperform
        exact .inr (hboot.trans rfl)
    | initOrHalt =>
      obtain ⟨q, hinit, rfl⟩ := Option.map_eq_some_iff.mp hperform
      refine .inr (hboot.trans ?_)
      show Option.map _ (init serialInit b.mem b.bootInfo (b.tags.length + 1) s.console.write) = _
      rw [hinit]
      obtain ⟨ok, write⟩ := q
      cases ok <;> rfl
    | loadIdt =>
      obtain rfl := Option.some.inj hperform
      exact .inr (hboot.trans rfl)
    | forever =>
      obtain rfl := Option.some.inj hperform
      exact .inl (hsame _ rfl rfl rfl rfl rfl)
  | _ =>
    obtain rfl := Option.some.inj hperform
    exact .inl (hsame _ rfl rfl rfl rfl rfl)

/-- An interrupt, as the boot model sees it. -/
theorem enter_projects {request : Option Request} {v : ℕ} {err : Word} {cpu : Cpu} {code : Byte}
    (hidt : s.idtInForce = true)
    (henter : enter beyond addr s request v err cpu code = some s') :
    ∃ e, bootStep b serialInit beyond (bootStateOf s) e = some (bootStateOf s') := by
  simp only [enter, Option.bind_eq_bind, Option.bind_eq_some_iff] at henter
  obtain ⟨⟨c, frame⟩, -, ⟨keyUp, steps⟩, hprogram, henter⟩ := henter
  obtain rfl := Option.some.inj henter
  obtain ⟨os, hos, hpart⟩ := effectsProgram_plainPart hprogram
  refine ⟨.interrupt c frame code, ?_⟩
  have hinForce : (bootStateOf s).idtInForce = true := hidt
  have hsteps : interruptSteps beyond c frame (bootStateOf s).keyUp code = some (keyUp, os) := hos
  rw [bootStep, if_pos hinForce, hsteps, Option.map_some, ← hpart]
  rfl

/-- **The kernel refines its start.** Without the port accesses and the interrupt flag, each step of
the kernel is one of the boot model, or none. -/
theorem step_projects {e : Event} (hstep : step b serialInit beyond addr s e = some s') :
    bootStateOf s' = bootStateOf s ∨
      ∃ e', bootStep b serialInit beyond (bootStateOf s) e' = some (bootStateOf s') := by
  cases e with
  | resume =>
    rcases step_resume hstep with ⟨a, outer, st, rest, r, hhandlers, hsteps, hperform, rfl⟩ |
      ⟨st, rest, r, hhandlers, hthread, hperform, rfl⟩
    · have hcontexts : (bootStateOf s).contexts = plainPart (st :: rest) ::
          (outer.map (fun a => plainPart a.steps) ++ [plainPart s.thread]) := by
        rw [bootStateOf, hhandlers, List.map_cons, hsteps]
        rfl
      have hview : bootStateOf { r.1 with handlers := { a with steps := r.2 ++ rest } :: outer } =
          { bootStateOf r.1 with contexts := plainPart (r.2 ++ rest) ::
            (outer.map (fun a => plainPart a.steps) ++ [plainPart s.thread]) } := by
        rw [← (perform_keeps hperform).1]
        rfl
      rw [hview]
      exact (perform_projects hcontexts hperform).imp_right fun h => ⟨.resume, h⟩
    · have hcontexts : (bootStateOf s).contexts = [plainPart (st :: rest)] := by
        rw [bootStateOf, hhandlers, hthread]
        rfl
      have hview : bootStateOf { r.1 with thread := r.2 ++ rest } =
          { bootStateOf r.1 with contexts := [plainPart (r.2 ++ rest)] } := by
        rw [bootStateOf, (perform_keeps hperform).2, hhandlers]
        rfl
      rw [hview]
      exact (perform_projects hcontexts hperform).imp_right fun h => ⟨.resume, h⟩
  | irq r cpu code =>
    rw [step] at hstep
    split at hstep
    · simp only at hstep
      split at hstep
      · rename_i hguard
        exact .inr (enter_projects (s := { s with pics := r.acknowledge s.pics }) hguard.1 hstep)
      · obtain rfl := Option.some.inj hstep
        exact .inl rfl
    · exact absurd hstep (Option.some_ne_none _).symm
  | exception v err cpu =>
    rw [step] at hstep
    split at hstep
    · rename_i hguard
      exact .inr (enter_projects hguard.1 hstep)
    · exact absurd hstep (Option.some_ne_none _).symm
  | finish =>
    obtain ⟨a, outer, hhandlers, hsteps, rfl⟩ := step_finish hstep
    refine .inr ⟨.finish, ?_⟩
    obtain ⟨context, rest, hrest⟩ : ∃ context rest,
        outer.map (fun a => plainPart a.steps) ++ [plainPart s.thread] = context :: rest := by
      cases outer with
      | nil => exact ⟨_, _, rfl⟩
      | cons a' outer => exact ⟨_, _, rfl⟩
    have hcontexts : (bootStateOf s).contexts = [] :: context :: rest := by
      rw [bootStateOf, hhandlers, List.map_cons, hsteps, ← hrest]
      rfl
    rw [bootStep, hcontexts]
    simp only [bootStateOf, hrest]

end System

/-! ### In every run -/

section Runs

variable (b : BootMemory) (serialInit : Bool) (beyond : ℕ → Option Handler) (addr : Label → Addr)
variable (pics : BootPics) (keyUp byte : Byte) (extent : ℕ) (gdtTable idtTable : Addr)

/-- **Exceptions are final.** Whenever an exception is taken in a run of the kernel, its handler left
to itself comes to a halt; and however the run goes on, with whatever further exceptions, no IRQ is
taken any more and the code that was interrupted is never resumed. -/
theorem exception_final (es : List Event) :
    (machine b serialInit beyond addr).Along (fun s e s' => ∀ v err cpu, e = .exception v err cpu →
        (∃ n t, (machine b serialInit beyond addr).run s' (List.replicate n .resume) = some t ∧
          t.console.halted = true) ∧
        ∀ es' t, (machine b serialInit beyond addr).run s' es' = some t → Frozen s t)
      (start b pics keyUp byte extent gdtTable idtTable) es := by
  refine Machine.along_of_invariant (I := fun _ => True) ?_ trivial es
  intro s e s' _ hstep
  refine ⟨trivial, ?_⟩
  rintro v err cpu rfl
  have hexc : step b serialInit beyond addr s (.exception v err cpu) = some s' := hstep
  constructor
  · obtain ⟨-, os, -, hs'⟩ := step_exception hexc
    obtain ⟨n, t, hrun, hhalted, -⟩ :=
      halts_in_time b serialInit beyond addr none _ os s.handlers (congrArg State.handlers hs')
    exact ⟨n, t, hrun, hhalted⟩
  · intro es' t hrun
    exact Machine.run_invariant (I := Frozen s) (fun t e t' ht hstep => frozen_step ht hstep)
      (frozen_exception hexc) hrun

/-- Every run of the kernel is, without the port accesses and the interrupt flag, a run of the boot
model. -/
theorem run_projects {es : List Event} {t : State}
    (hrun : (machine b serialInit beyond addr).run
      (start b pics keyUp byte extent gdtTable idtTable) es = some t) :
    ∃ es', (bootMachine b serialInit beyond).run (bootState b keyUp extent gdtTable idtTable) es' =
      some (bootStateOf t) := by
  have hstart : bootStateOf (start b pics keyUp byte extent gdtTable idtTable) =
      bootState b keyUp extent gdtTable idtTable := by
    rw [bootStateOf, bootState, ← plainPart_startProgram]
    rfl
  rw [← hstart]
  exact Machine.run_projection bootStateOf (fun s e s' => step_projects) hrun

/-- **No call through null.** In every run of `_start`, its message about the controllers included,
and wherever IRQs and exceptions come, `kputc` is not executed while `write` is null. -/
theorem kernel_noNullCall (es : List Event) :
    (machine b serialInit beyond addr).Along (fun _ _ s' => NoNullCall s'.console.trace)
      (start b pics keyUp byte extent gdtTable idtTable) es := by
  refine Machine.along_of_run (P := fun t : State => NoNullCall t.console.trace) ?_ es
  intro es' t hrun
  obtain ⟨es'', hboot⟩ := run_projects b serialInit beyond addr pics keyUp byte extent gdtTable
    idtTable hrun
  exact (Machine.run_invariant (fun s e s' => guarded_step) (guarded_bootState ..) hboot).printed

end Runs

end MegaOS.Kernel
