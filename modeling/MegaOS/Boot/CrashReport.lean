import MegaOS.Boot.KernelFailures
import MegaOS.Devices.Wire
import MegaOS.Interrupts.PanicDump

/-!
# What the host learns of an exception

From the processor's delivery to the text at the host. The exception macros push
the vector behind the error code, so the dump gives the vector as `err_code` and
the error code as `int_no`; and an error code that is no vector of an exception
fails the handler's assertion, and nothing is dumped.
-/

namespace MegaOS.Kernel

open MegaOS.Memory MegaOS.Log MegaOS.Assembly MegaOS.Pic8259 MegaOS.Pic MegaOS.Interrupts
  MegaOS.Boot MegaOS.Runs MegaOS.Lines

/-! ### Reading a report -/

/-- The last line with the label of the field has a numeral that denotes the number. -/
def LastReads (text : List Byte) (x : DumpField) (n : ℕ) : Prop :=
  ∃ before after gap numeral,
    text.splitOn (ch '\n') = before ++ fieldEntry x.name gap numeral :: after ∧
    (∀ l ∈ after, lineLabel l ≠ some (bytes x.name)) ∧ ReadsAs x.isDecimal numeral n

/-- The lines of a dump behind its heading. -/
theorem dumpLines_eq (f : InterruptFrame) : ∃ rest,
    dumpLines f = bytes "Interrupt Stack Frame:" :: rest ∧
      (rest.filterMap lineLabel).Nodup ∧ ∀ x ∈ dumpFields, x.line f ∈ rest := by
  obtain ⟨rest, hrest⟩ : ∃ rest, dumpLines f = bytes "Interrupt Stack Frame:" :: rest := ⟨_, rfl⟩
  refine ⟨rest, hrest, ?_, ?_⟩
  · have hnodup := nodup_names
    rw [← lineLabel_dumpLines f, hrest, List.cons_append,
      List.filterMap_cons_none (by decide), List.filterMap_append] at hnodup
    exact (List.nodup_append.mp hnodup).1
  · intro x hx
    have hlabel : lineLabel (x.line f) = some (bytes x.name) :=
      lineLabel_fieldEntry (name_spec x hx) x.gap (x.numeral f)
    have hmem := line_mem_dumpLines hx f
    rw [hrest, List.cons_append, List.mem_cons, List.mem_append, List.mem_singleton] at hmem
    -- the heading and the empty line have no label
    rcases hmem with heq | hmem | heq
    · have hheading : lineLabel (bytes "Interrupt Stack Frame:") = none := by decide
      rw [heq, hheading] at hlabel
      exact absurd hlabel.symm (Option.some_ne_none _)
    · exact hmem
    · have hempty : lineLabel [] = none := by decide
      rw [heq, hempty] at hlabel
      exact absurd hlabel.symm (Option.some_ne_none _)

/-- **A dump is read back** behind whatever came before, also when that ends in the middle of a
line. -/
theorem lastReads_dump (before : List Byte) {after : List Byte} {f : InterruptFrame}
    (h : Printable f) (hafter : ∀ l ∈ after.splitOn (ch '\n'), lineLabel l = none) {x : DumpField}
    (hx : x ∈ dumpFields) :
    LastReads (before ++ (unlines (ch '\n') (dumpLines f) ++ after)) x (x.get f).toNat := by
  obtain ⟨rest, hrest, hnodup, hmem⟩ := dumpLines_eq f
  have hinline : ∀ l ∈ rest, ch '\n' ∉ l := fun l hl =>
    (inline_dumpLines f l (hrest ▸ List.mem_cons_of_mem _ hl)).2
  obtain ⟨above, below, hlines, hothers⟩ := exists_unique_entry _ hnodup (hmem x hx)
    (lineLabel_fieldEntry (name_spec x hx) x.gap (x.numeral f))
  have hsplit : (before ++ (unlines (ch '\n') (bytes "Interrupt Stack Frame:" :: rest) ++
        after)).splitOn (ch '\n') =
      (before ++ bytes "Interrupt Stack Frame:").splitOn (ch '\n') ++
        (rest ++ after.splitOn (ch '\n')) :=
    splitOn_append_unlines _ hinline before after
  refine ⟨(before ++ bytes "Interrupt Stack Frame:").splitOn (ch '\n') ++ above,
    below ++ after.splitOn (ch '\n'), x.gap, x.numeral f, ?_, ?_, numeral_readsAs hx h⟩
  · rw [hrest, hsplit, hlines]
    simp only [List.append_assoc, List.cons_append]
    rfl
  · intro l hl
    rcases List.mem_append.mp hl with hl | hl
    · exact hothers l (List.mem_append_right _ hl)
    · rw [hafter l hl]
      exact (Option.some_ne_none _).symm

/-! ### What an exception's handler sends -/

/-- What happened: the vector, and the error code, which is 0 where the processor pushes none. -/
def happened (cpu : Cpu) (v : Fin 32) (e : Word) : InterruptFrame where
  gprs := savedGprs cpu
  errCode := (pushedError v.val e).getD 0
  intNo := BitVec.ofNat 64 v.val
  rip := cpu.rip
  cs := cpu.sel .cs
  rflags := cpu.rflags
  rsp := cpu.rsp
  ss := cpu.sel .ss

/-- The error code as the number, and the number as the error code. -/
def exchanged (f : InterruptFrame) : InterruptFrame :=
  { f with errCode := f.intNo, intNo := f.errCode }

theorem builtFrame_eq_exchanged (cpu : Cpu) (v : Fin 32) (e : Word) :
    builtFrame cpu v.val e = exchanged (happened cpu v e) := by
  have hcode : (pushedError v.val e).getD 0 = if hasErrStub v.val then e else 0 := by
    rw [pushedError]
    split <;> rfl
  rw [builtFrame, if_pos v.isLt, if_pos v.isLt, exchanged, happened, hcode]

/-- The cause a panic of the exception dispatcher gives. -/
def causeOf (intNo : Word) : String :=
  if getClassType intNo = .abort then "CPU interrupt of class abort."
  else "CPU interrupt with no handler"

/-- The message of the assertion in `cpu_exception_handler`. -/
def exceptionAssertionText : List Byte :=
  bytes (red ++ "Assertion failed: is_cpu_exception(frame->int_no) at " ++
    "./arch/x86_64/interrupts.cpp, line 126")

/-- What the handler of an exception sends for a frame. -/
def reportOf (f : InterruptFrame) : List Byte :=
  if isCpuException f.intNo then
    unlines (ch '\n') (dumpLines f) ++ causeText (causeOf f.intNo)
  else exceptionAssertionText

theorem lineLabel_causeText (intNo : Word) :
    ∀ l ∈ (causeText (causeOf intNo)).splitOn (ch '\n'), lineLabel l = none := by
  rw [causeOf]
  split
  · decide
  · decide

theorem assertionFailed_sends {c : Console} (hc : c.halted = false) : ∃ os,
    assertionFailed "is_cpu_exception(frame->int_no)" "./arch/x86_64/interrupts.cpp" 126 = some os ∧
      serialBytes (c.execAll os).trace = serialBytes c.trace ++ toWire exceptionAssertionText := by
  have htext : formatText assertionItems [str "is_cpu_exception(frame->int_no)",
      str "./arch/x86_64/interrupts.cpp", ⟨126, []⟩] = some exceptionAssertionText := by
    decide
  obtain ⟨r, hr⟩ := dprintf_text htext
  have hnul : exceptionAssertionText.filter (· ≠ 0) = exceptionAssertionText := by decide
  rw [hnul] at hr
  obtain ⟨hidle, hsent⟩ := execAll_host exceptionAssertionText hc
  refine ⟨callShape .host exceptionAssertionText ++ [.halt], ?_, ?_⟩
  · rw [assertionFailed, assertionItems_bytes, hr]
    rfl
  · rw [Log.execAll_append, execAll_cons _ _ hidle.halted, ← hsent]
    rfl

/-- Reading a table logs nothing. -/
theorem effectsProgram_access (c : Callee) (code : Byte) (t : Table) (i : ℕ)
    (es : List (Effect Handler)) (keyUp : Byte) :
    effectsProgram c code keyUp (.access t i :: es) = effectsProgram c code keyUp es := by
  simp only [effectsProgram, effectProgram, effectSteps, Option.map_some, Option.bind_eq_bind,
    Option.bind_some]
  cases effectsProgram c code keyUp es <;> rfl

theorem effectsProgram_kpanic {cause : String} {f : InterruptFrame} {c : Callee} {os : List Op}
    (hexc : isCpuException f.intNo = true) (keyUp code : Byte)
    (hos : kpanicFrame cause (some f) = some os) :
    effectsProgram c code keyUp (kpanicEffects cause f) = some (keyUp, ops os) := by
  rw [kpanicEffects, if_pos hexc, effectsProgram_access]
  simp only [effectsProgram, effectProgram, effectSteps, hos, Option.map_some, Option.bind_eq_bind,
    Option.bind_some, List.append_nil]

/-- **The handler of an exception** sends its report. -/
theorem handlerProgram_sends (beyond : ℕ → Option Handler) (f : InterruptFrame) (keyUp code : Byte)
    {c : Console} (hc : c.halted = false) : ∃ os,
    handlerProgram beyond .cpuExceptionHandler f keyUp code = some (keyUp, ops os) ∧
      serialBytes (c.execAll os).trace = serialBytes c.trace ++ toWire (reportOf f) := by
  by_cases hexc : isCpuException f.intNo = true
  · obtain ⟨os, hos, hsent⟩ := kpanicFrame_sends (causeOf f.intNo) f hc
    have hread : (installedHandlers beyond).read f.intNo.toNat = none := by
      have hlt := isCpuException_iff.mp hexc
      rw [HandlerTable.read, dif_pos (Nat.lt_trans hlt (by decide))]
      exact if_neg (by show f.intNo.toNat ≠ 33; omega)
    refine ⟨os, ?_, ?_⟩
    · rw [causeOf] at hos
      simp only [handlerProgram, dispatch, cpuExceptionHandler, hexc, not_true_eq_false, if_false,
        effectsProgram_access, hread]
      split
      · rename_i habort
        rw [if_pos habort] at hos
        exact effectsProgram_kpanic hexc keyUp code hos
      · rename_i habort
        rw [if_neg habort] at hos
        rw [effectsProgram_access]
        exact effectsProgram_kpanic hexc keyUp code hos
    · rw [hsent, reportOf, if_pos hexc]
  · obtain ⟨os, hos, hsent⟩ := assertionFailed_sends hc
    refine ⟨os, ?_, ?_⟩
    · have hline : assertLine .cpuExceptionHandler "is_cpu_exception(frame->int_no)" = 126 := by
        decide
      simp only [handlerProgram, dispatch, cpuExceptionHandler, hexc, Bool.false_eq_true,
        not_false_eq_true, if_true, effectsProgram, effectProgram, effectSteps, hline, hos,
        Option.map_some, Option.bind_eq_bind, Option.bind_some, List.append_nil]
    · rw [hsent, reportOf, if_neg hexc]

/-! ### From the delivery to the host -/

theorem ops_injective : Function.Injective ops := by
  intro os os' h
  exact List.map_injective_iff.mpr (fun _ _ h => Boot.Step.op.inj h)
    (List.map_injective_iff.mpr (fun _ _ h => Step.plain.inj h) h)

/-- What the host has got when the handler of the exception has halted. -/
structure Reported (before after : Console) (cpu : Cpu) (v : Fin 32) (e : Word) : Prop where
  sent : serialBytes after.trace =
    serialBytes before.trace ++ toWire (reportOf (exchanged (happened cpu v e)))
  /-- Every register is read back, the vector as `err_code` and the error code as `int_no`. -/
  dumped : (happened cpu v e).errCode.toNat < 32 → ∀ x ∈ dumpFields,
    LastReads (Serial.fromWire (serialBytes after.trace)) x (x.get (exchanged (happened cpu v e))).toNat
  /-- Nothing is said of what happened. -/
  lost : 32 ≤ (happened cpu v e).errCode.toNat →
    serialBytes after.trace = serialBytes before.trace ++ toWire exceptionAssertionText

theorem lastReads_report (before : List Byte) {f : InterruptFrame}
    (hexc : isCpuException f.intNo = true) (herr : f.errCode.toNat < 2 ^ 31) {x : DumpField}
    (hx : x ∈ dumpFields) :
    LastReads (before ++ reportOf f) x (x.get f).toNat := by
  have hlt := isCpuException_iff.mp hexc
  rw [reportOf, if_pos hexc]
  exact lastReads_dump before ⟨herr, by omega⟩ (lineLabel_causeText f.intNo) hx

theorem reported {before after : Console} {cpu : Cpu} {v : Fin 32} {e : Word}
    (hsent : serialBytes after.trace =
      serialBytes before.trace ++ toWire (reportOf (exchanged (happened cpu v e)))) :
    Reported before after cpu v e := by
  refine ⟨hsent, ?_, ?_⟩
  · intro hcode x hx
    have herr : (exchanged (happened cpu v e)).errCode.toNat < 2 ^ 31 := by
      show (BitVec.ofNat 64 v.val).toNat < _
      rw [BitVec.toNat_ofNat]
      have hv := v.isLt
      omega
    rw [hsent, Serial.fromWire_append_toWire]
    exact lastReads_report _ (isCpuException_iff.mpr hcode) herr hx
  · intro hcode
    have hno : ¬isCpuException (exchanged (happened cpu v e)).intNo = true := fun h =>
      absurd (isCpuException_iff.mp h) (Nat.not_lt.mpr hcode)
    rw [hsent, reportOf, if_neg hno]

/-- **Exceptions are reported.** In every run of the kernel, an exception taken by a processor that
has not been halted ends in a halt, and the host then has its report behind what it had: all fields
if the error code is below 32, with the vector and the error code exchanged, and the assertion alone
if it is not. -/
theorem exceptions_reported (b : BootMemory) (serialInit : Bool) (beyond : ℕ → Option Handler)
    (addr : Label → Addr) (pics : BootPics) (keyUp byte : Byte) (extent : ℕ)
    (gdtTable idtTable : Addr) (es : List Event) :
    (machine b serialInit beyond addr).Along (fun s e s' => ∀ v err cpu, e = .exception v err cpu →
        s.console.halted = false →
        ∃ n t, (machine b serialInit beyond addr).run s' (List.replicate n .resume) = some t ∧
          t.console.halted = true ∧ Reported s.console t.console cpu v err)
      (start b pics keyUp byte extent gdtTable idtTable) es := by
  refine Machine.along_of_invariant (I := fun _ => True) ?_ trivial es
  intro s e s' _ hstep
  refine ⟨trivial, ?_⟩
  rintro v err cpu rfl hhalted
  have hexc : step b serialInit beyond addr s (.exception v err cpu) = some s' := hstep
  obtain ⟨-, os, hprogram, hs'⟩ := step_exception hexc
  obtain ⟨n, t, hrun, hstop, hconsole⟩ :=
    halts_in_time b serialInit beyond addr none _ os s.handlers (congrArg State.handlers hs')
  refine ⟨n, t, hrun, hstop, reported ?_⟩
  obtain ⟨os', hprogram', hsent⟩ :=
    handlerProgram_sends beyond (builtFrame cpu v.val err) s.keyUp 0 hhalted
  have hops : os ++ [.halt] = os' :=
    ops_injective (Prod.mk.inj (Option.some.inj (hprogram.symm.trans hprogram'))).2
  have hsame : s'.console = s.console := by rw [hs']
  rw [hconsole (hsame ▸ hhalted), hsame, hops, hsent, builtFrame_eq_exchanged]

/-- A page fault with the code 2, right behind the `lidt`. -/
theorem exceptions_reported_page_fault : ∃ s s' n t,
    (machine terminalOnly true (fun _ => none) fun _ => 0).run
        (start terminalOnly maskedPics 0 0 1 0x5000 0x6000) (List.replicate 86 .resume) = some s ∧
    (machine terminalOnly true (fun _ => none) fun _ => 0).step s (.exception 14 2 zeroCpu) =
      some s' ∧
    (machine terminalOnly true (fun _ => none) fun _ => 0).run s' (List.replicate n .resume) =
      some t ∧
    t.console.halted = true ∧ ∀ x ∈ dumpFields,
      LastReads (Serial.fromWire (serialBytes t.console.trace)) x
        (x.get (exchanged (happened zeroCpu 14 2))).toNat := by
  have hshown : ((machine terminalOnly true (fun _ => none) fun _ => 0).run
      (start terminalOnly maskedPics 0 0 1 0x5000 0x6000) (List.replicate 86 .resume)).map
        (fun s => (s.idtInForce, s.interruptFlag, s.console.halted)) =
      some (true, false, false) := by decide
  obtain ⟨s, hrun, hs⟩ := Option.map_eq_some_iff.mp hshown
  obtain ⟨htable, hs⟩ := Prod.mk.inj hs
  obtain ⟨hflag, hhalted⟩ := Prod.mk.inj hs
  obtain ⟨os, -, henter⟩ :=
    enter_exception (fun _ => none) (fun _ => 0) s 14 2 zeroCpu
  have hguard : s.idtInForce = true ∧ interruptFlagOf zeroCpu.rflags = s.interruptFlag :=
    ⟨htable, hflag.symm⟩
  have hstep : step terminalOnly true (fun _ => none) (fun _ => 0) s (.exception 14 2 zeroCpu) =
      some _ := (if_pos hguard).trans henter
  have hall := exceptions_reported terminalOnly true (fun _ => none) (fun _ => 0) maskedPics 0 0 1
    0x5000 0x6000 (List.replicate 86 .resume ++ [.exception 14 2 zeroCpu])
  obtain ⟨n, t, hrun', hstop, hreported⟩ :=
    Machine.along_step hall hrun hstep 14 2 zeroCpu rfl hhalted
  exact ⟨s, _, n, t, hrun, hstep, hrun', hstop, hreported.dumped (by decide)⟩

/-- What the console sends over serial, as calls. -/
theorem serialBytes_execAll (os : List Op) {c : Console} (hc : c.halted = false) :
    serialBytes (c.execAll os).trace =
      serialBytes c.trace ++ (Serial.sendsOf c.useSerial os).flatMap Serial.Send.bytes := by
  induction os generalizing c with
  | nil => exact (List.append_nil _).symm
  | cons o os ih =>
    rw [execAll_cons _ _ hc]
    cases o with
    | setSerial b => exact ih (c := c.exec (.setSerial b)) hc
    | putchar f x =>
      have hnext := ih (c := c.exec (.putchar f x)) hc
      rw [hnext, serialBytes, serialBytes]
      show ((c.trace ++ outCharFuncs c f x).filter _).map _ ++
        (Serial.sendsOf c.useSerial os).flatMap _ = _
      rw [List.filter_append, List.map_append, List.append_assoc, Serial.sendsOf, outCharFuncs]
      cases c.useSerial with
      | true =>
        have hone : ((dputc f x).filter (·.device = .serial)).map (·.byte) =
            (dputc .host x).map Emission.byte := by
          rw [dputc, dputc]
          split <;> rfl
        rw [if_pos rfl, if_pos rfl, List.flatMap_cons, hone]
        rfl
      | false => rfl
    | kputc x =>
      have hnext := ih (c := c.exec (.kputc x)) hc
      rw [hnext, serialBytes, serialBytes]
      show ((c.trace ++ [_]).filter _).map _ ++ _ = _
      rw [List.filter_append, List.map_append, List.append_assoc]
      rfl
    | halt =>
      rw [execAll_of_halted rfl os]
      exact (List.append_nil _).symm

/-- The calls an exception's handler makes are those for its report, whatever the flag is. -/
theorem sendsOf_handlerProgram {beyond : ℕ → Option Handler} {f : InterruptFrame}
    {keyUp keyUp' code : Byte} {os : List Op}
    (hprogram : handlerProgram beyond .cpuExceptionHandler f keyUp code = some (keyUp', ops os))
    (useSerial : Bool) :
    (Serial.sendsOf useSerial os).flatMap Serial.Send.bytes = toWire (reportOf f) := by
  have hc : Console.halted ⟨0, useSerial, false, []⟩ = false := rfl
  obtain ⟨os', hprogram', hsent⟩ := handlerProgram_sends beyond f keyUp code hc
  rw [ops_injective (Prod.mk.inj (Option.some.inj (hprogram.symm.trans hprogram'))).2]
  exact List.append_cancel_left ((serialBytes_execAll os' hc).symm.trans hsent)

/-- **The host reads the report off the line.** Wherever an exception interrupts the sending, with
`use_serial` set or not: when its handler has sent what it logs, each field is read from the last
line with its label. -/
theorem report_read_by_host (beyond : ℕ → Option Handler) (keyUp code : Byte) (u : Uart16550.Uart)
    (sends : List Serial.Send) (events : List Serial.Event) :
    Serial.system.Along (fun s e s' => ∀ (f : InterruptFrame) (os : List Op) (useSerial : Bool),
        f.intNo.toNat < 32 → f.errCode.toNat < 2 ^ 31 →
        handlerProgram beyond .cpuExceptionHandler f keyUp code = some (keyUp, ops os) →
        e = .exception (Serial.sendsOf useSerial os) →
        ∀ events' t, Serial.system.run s' events' = some t →
          ∀ c ∈ t.contexts, c.id = s.programs.length → c.rest = [] → ∀ x ∈ dumpFields,
            LastReads (Serial.fromWire t.bytes) x (x.get f).toNat)
      (Serial.start u sends) events := by
  refine Machine.along_of_invariant (I := Serial.Inv u.line) ?_ (Serial.start_inv u sends) events
  intro s e s' hinv hstep
  refine ⟨Serial.step_inv hinv hstep, ?_⟩
  rintro f os useSerial hexc herr hprogram rfl events' t hrun c hc hid hrest x hx
  have hfollows :=
    Serial.exception_follows hinv (sendsOf_handlerProgram hprogram useSerial) hstep hrun
  rw [hfollows.received c hc hid hrest]
  exact lastReads_report _ (isCpuException_iff.mpr hexc) herr hx

/-- The page fault again, taken between the check and the write of the thread. -/
theorem report_read_by_host_page_fault : ∃ (os : List Op) (s s' t : Serial.System)
    (events : List Serial.Event),
    handlerProgram (fun _ => none) .cpuExceptionHandler (builtFrame zeroCpu 14 2) 0 0 =
      some (0, ops os) ∧
    Serial.system.run (Serial.start Serial.resetUart [.send (ch 'a')]) [.poll 0] = some s ∧
    Serial.system.step s (.exception (Serial.sendsOf false os)) = some s' ∧
    Serial.system.run s' events = some t ∧ ∀ x ∈ dumpFields,
      LastReads (Serial.fromWire t.bytes) x (x.get (builtFrame zeroCpu 14 2)).toNat := by
  obtain ⟨os, hprogram, -⟩ := handlerProgram_sends (fun _ => none) (builtFrame zeroCpu 14 2) 0 0
    (c := ⟨0, false, false, []⟩) rfl
  have hshown : (Serial.system.run (Serial.start Serial.resetUart [.send (ch 'a')])
      [.poll 0]).map Serial.System.kinds = some [.thread] := by decide
  obtain ⟨s, hrun, hkinds⟩ := Option.map_eq_some_iff.mp hshown
  have hstep : s.step (.exception (Serial.sendsOf false os)) =
      some (s.enter .exception (Serial.sendsOf false os)) := by
    refine if_pos ?_
    rw [hkinds]
    decide
  have hinv : Serial.Inv [] s := Machine.run_invariant (I := Serial.Inv [])
    (fun s e s' h hstep => Serial.step_inv h hstep) (Serial.start_inv Serial.resetUart _) hrun
  have hwaits : Serial.Waits s := Machine.run_invariant (I := Serial.Waits)
    (fun s e s' h hstep => Serial.step_waits h hstep) (Serial.start_waits Serial.resetUart _) hrun
  obtain ⟨events, t, c, -, hrun', hctx, hid, hrest⟩ :=
    Serial.handler_sends (Serial.step_inv hinv hstep) (Serial.step_waits hwaits hstep) rfl
      (show Serial.Kind.exception ≠ .thread by decide)
  have hall := report_read_by_host (fun _ => none) 0 0 Serial.resetUart [.send (ch 'a')]
    ([.poll 0] ++ [.exception (Serial.sendsOf false os)])
  refine ⟨os, s, _, t, events, hprogram, hrun, hstep, hrun', ?_⟩
  exact Machine.along_step hall hrun hstep _ os false (by decide) (by decide) hprogram rfl events t
    hrun' c (hctx ▸ List.mem_cons_self) hid hrest

end MegaOS.Kernel
