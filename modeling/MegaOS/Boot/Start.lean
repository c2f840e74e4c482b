import MegaOS.Boot.Tags
import MegaOS.Interrupts.Handlers

/-!
# The start of the kernel

`_start` checks that there is boot information, initialises the log or halts, then
prints, loads the descriptor tables and enables interrupts. From `lidt` on, an
exception or an IRQ may come at any point, also within a handler.

`log::init` comes first: whoever prints on the terminal finds a write function.
-/

namespace MegaOS.Boot

open MegaOS.Memory MegaOS.Log MegaOS.Interrupts MegaOS.Runs

/-! ### The steps of the code -/

inductive Step
  /-- A step of the log, or `cpu::halt()`. -/
  | op (o : Op)
  /-- `if (!log::init(boot_info)) cpu::halt();` -/
  | initOrHalt
  /-- `lidt` -/
  | loadIdt
  /-- A loop without end. -/
  | forever

/-- A call of the log that ends, or does not. -/
def logged : Option (List Op) → List Step
  | some ops => ops.map .op
  | none => [.forever]

/-- The bytes of the string at `a`, as far as `extent`. -/
def bytesAt (m : Mem) (a : Addr) (extent : ℕ) : List Byte :=
  (List.range extent).map fun i => m (a + BitVec.ofNat 64 i)

/-- `GDT::install`, with the address of `GDT::table`. -/
def gdtInstall (gdtTable : Addr) : List Step :=
  logged ((dprintf (cstr "GDT successfully installed: %#lX %#lX\n")
    [⟨gdtTable, []⟩, ⟨7 * 8 - 1, []⟩]).map Prod.snd)

/-- `isr::install` -/
def isrInstall : List Step := logged ((dputs (some (cstr "ISR successfully installed"))).map Prod.snd)

/-- `IDT::install`, with the address of `IDT::table`. -/
def idtInstallSteps (idtTable : Addr) : List Step :=
  isrInstall ++ .loadIdt ::
    logged ((dprintf (cstr "IDT successfully installed: %#lX %#lX\n")
      [⟨idtTable, []⟩, ⟨256 * 16 - 1, []⟩]).map Prod.snd)

/-- `assert(boot_info)` -/
def assertBootInfo (bootInfo : Addr) : List Step :=
  if bootInfo = 0 then logged (assertionFailed "boot_info" "./kernel.cpp" 55) else []

/-- `log::kprintf("Mega OS - %s %s\n\n", …)` -/
def printBanner (m : Mem) (bootInfo : Addr) (extent : ℕ) : List Step :=
  logged ((kprintf (cstr "Mega OS - %s %s\n\n")
    [⟨bootInfo, bytesAt m bootInfo extent⟩, ⟨bootInfo + 64, bytesAt m (bootInfo + 64) extent⟩]).map
      Prod.snd)

/-- The message at the end of `pic::remap`. -/
def remapMessage (mpicOffset spicOffset : Byte) : List Step :=
  logged ((dprintf (cstr "PIC remapped: PIC1 -> %d | PIC2 -> %d\n")
    [⟨mpicOffset.setWidth 64, []⟩, ⟨spicOffset.setWidth 64, []⟩]).map Prod.snd)

/-- `_start`, less the accesses to the ports of the PIC: neither `pic::remap_pic` nor
`pic::clear_irq_mask` logs anything. -/
def startSteps (m : Mem) (bootInfo : Addr) (extent : ℕ) (gdtTable idtTable : Addr) : List Step :=
  assertBootInfo bootInfo ++ .initOrHalt :: (printBanner m bootInfo extent ++
    (gdtInstall gdtTable ++ (idtInstallSteps idtTable ++ (remapMessage 32 40 ++
      (logged ((dputs (some (cstr "Interrupts enabled"))).map Prod.snd) ++ [.forever])))))

/-! ### Runs -/

/-- The log, the keyboard's `key_up`, whether the kernel's IDT is in force, and what the running
code and the code it interrupted have still to do, innermost first. -/
structure State where
  console : Console
  keyUp : Byte
  idtInForce : Bool
  contexts : List (List Step)

inductive Event
  /-- The running code does its next step. -/
  | resume
  /-- The stub of an interrupt calls `c` with the frame `f`; the keyboard's data port holds
  `code`. -/
  | interrupt (c : Callee) (f : InterruptFrame) (code : Byte)
  /-- The handler is through, and returns. -/
  | finish

section System

variable (b : BootMemory) (serialInit : Bool) (beyond : ℕ → Option Handler)

/-- One step of the running code; `rest` is what it has left after it, `outer` the code it
interrupted. -/
def advance (s : State) (rest : List Step) (outer : List (List Step)) : Step → Option State
  | .op .halt => none
  | .op o => some { s with console := s.console.exec o, contexts := rest :: outer }
  | .initOrHalt =>
    (init serialInit b.mem b.bootInfo (b.tags.length + 1) s.console.write).map fun r =>
      { s with
        console := { s.console with write := r.2 }
        contexts := (if r.1 then rest else .op .halt :: rest) :: outer }
  | .loadIdt => some { s with idtInForce := true, contexts := rest :: outer }
  | .forever => none

def bootStep (s : State) : Event → Option State
  | .resume =>
    match s.contexts with
    | (st :: rest) :: outer => advance b serialInit s rest outer st
    | _ => none
  | .interrupt c f code =>
    if s.idtInForce then
      (interruptSteps beyond c f s.keyUp code).map fun r =>
        { s with keyUp := r.1, contexts := r.2.map .op :: s.contexts }
    else none
  | .finish =>
    match s.contexts with
    | [] :: context :: outer => some { s with contexts := context :: outer }
    | _ => none

def bootMachine : Machine State Event := ⟨bootStep b serialInit beyond⟩

/-- Where `_start` begins. -/
def bootState (keyUp : Byte) (extent : ℕ) (gdtTable idtTable : Addr) : State where
  console := ⟨0, false, false, []⟩
  keyUp := keyUp
  idtInForce := false
  contexts := [startSteps b.mem b.bootInfo extent gdtTable idtTable]

end System

/-- No character was printed through a null function. -/
def NoNullCall (trace : List Emission) : Prop := ∀ x ∈ trace, x.device ≠ .terminal 0

/-! ### Before the terminal is known -/

/-- The step calls `kputc`. -/
def callsKputc (useSerial : Bool) : Op → Bool
  | .putchar _ _ => !useSerial
  | .kputc _ => true
  | _ => false

/-- The flag after a step. -/
def flagAfter (useSerial : Bool) : Op → Bool
  | .setSerial b => b
  | _ => useSerial

theorem exec_useSerial (s : Console) (o : Op) : (s.exec o).useSerial = flagAfter s.useSerial o := by
  cases o <;> rfl

/-- From this value of the flag on, nothing calls `kputc` and the IDT is not loaded before
`log::init` is tried or the processor is halted. -/
def Mute : Bool → List Step → Prop
  | _, [] => True
  | b, .op o :: rest => callsKputc b o = false ∧ (o ≠ .halt → Mute (flagAfter b o) rest)
  | _, .initOrHalt :: _ => True
  | _, .loadIdt :: _ => False
  | _, .forever :: _ => True

theorem mute_chars (text : List Byte) {steps : List Step} (h : Mute true steps) :
    Mute true ((chars .host text).map .op ++ steps) := by
  induction text with
  | nil => exact h
  | cons c text ih => exact ⟨rfl, fun _ => ih⟩

/-- A message to the host, and the halt. -/
theorem mute_host_halt (text : List Byte) (b : Bool) (steps : List Step) :
    Mute b ((messages [(.host, text)] ++ [Op.halt]).map Step.op ++ steps) := by
  have hend : Mute true ([Op.setSerial false, .halt].map Step.op ++ steps) :=
    ⟨rfl, fun _ => ⟨rfl, fun h => absurd rfl h⟩⟩
  have hshape : (messages [(.host, text)] ++ [Op.halt]).map Step.op ++ steps =
      .op (.setSerial true) :: ((chars .host text).map .op ++
        ([Op.setSerial false, .halt].map Step.op ++ steps)) := by
    simp [messages, callShape]
  rw [hshape]
  exact ⟨rfl, fun _ => mute_chars text hend⟩

/-- `_start` is mute until `log::init`. -/
theorem mute_startSteps (m : Mem) (bootInfo : Addr) (extent : ℕ) (gdtTable idtTable : Addr) :
    Mute false (startSteps m bootInfo extent gdtTable idtTable) := by
  rw [startSteps, assertBootInfo]
  split
  · obtain ⟨text, htext⟩ := assertionFailed_eq "boot_info" "./kernel.cpp" 55
    rw [htext]
    exact mute_host_halt text false _
  · trivial

/-! ### The invariant -/

/-- Nothing was printed through null, and nothing will be: either the terminal is known, or only the
mute part of `_start` has run. -/
structure Guarded (s : State) : Prop where
  printed : NoNullCall s.console.trace
  guarded : s.console.write ≠ 0 ∨
    s.idtInForce = false ∧ ∃ steps, s.contexts = [steps] ∧ Mute s.console.useSerial steps

/-- A step prints on the terminal only by calling `kputc`. -/
theorem exec_noNullCall {s : Console} {o : Op} (ht : NoNullCall s.trace)
    (h : s.write ≠ 0 ∨ callsKputc s.useSerial o = false) : NoNullCall (s.exec o).trace := by
  have hkputc : s.write ≠ 0 → ∀ f c, NoNullCall (kputc s.write f c) := by
    intro hwrite f c x hx heq
    rw [(mem_kputc hx).2] at heq
    exact hwrite (Device.terminal.inj heq)
  cases o with
  | setSerial => exact ht
  | halt => exact ht
  | kputc c =>
    have hwrite : s.write ≠ 0 := h.resolve_right (Bool.false_ne_true ∘ Eq.symm)
    exact List.forall_mem_append.mpr ⟨ht, hkputc hwrite .kernel c⟩
  | putchar f c =>
    refine List.forall_mem_append.mpr ⟨ht, ?_⟩
    rw [outCharFuncs]
    cases hserial : s.useSerial with
    | true =>
      intro x hx
      rw [(mem_dputc hx).2]
      exact fun heq => Device.noConfusion heq
    | false =>
      rw [hserial] at h
      exact hkputc (h.resolve_right (Bool.false_ne_true ∘ Eq.symm)) f c

section System

variable {b : BootMemory} {serialInit : Bool} {beyond : ℕ → Option Handler}

theorem guarded_advance {s s' : State} {st : Step} {rest : List Step} {outer : List (List Step)}
    (hs : Guarded s) (hcontexts : s.contexts = (st :: rest) :: outer)
    (hstep : advance b serialInit s rest outer st = some s') : Guarded s' := by
  -- before `log::init`, `_start` runs alone
  have hearly : s.console.write ≠ 0 ∨
      s.idtInForce = false ∧ outer = [] ∧ Mute s.console.useSerial (st :: rest) := by
    refine hs.guarded.imp_right ?_
    intro ⟨hidt, steps, hsteps, hmute⟩
    obtain ⟨rfl, hnil⟩ := List.cons.inj (hcontexts.symm.trans hsteps)
    exact ⟨hidt, hnil, hmute⟩
  cases st with
  | op o =>
    by_cases hhalt : o = .halt
    · subst hhalt
      exact absurd hstep nofun
    have hs' : s' = { s with console := s.console.exec o, contexts := rest :: outer } := by
      cases o with
      | halt => exact absurd rfl hhalt
      | _ => exact (Option.some.inj hstep).symm
    subst hs'
    refine ⟨exec_noNullCall hs.printed (hearly.imp_right fun h => h.2.2.1), ?_⟩
    show (s.console.exec o).write ≠ 0 ∨ _
    rw [exec_write]
    refine hearly.imp_right ?_
    intro ⟨hidt, hnil, hmute⟩
    refine ⟨hidt, rest, by rw [hnil], ?_⟩
    rw [exec_useSerial]
    exact hmute.2 hhalt
  | initOrHalt =>
    rw [advance, init_eq serialInit b (Nat.lt_succ_self _)] at hstep
    split at hstep
    · rename_i hset
      obtain rfl := Option.some.inj hstep
      exact ⟨hs.printed, .inl hset.2.2⟩
    · obtain rfl := Option.some.inj hstep
      refine ⟨hs.printed, hearly.imp_right ?_⟩
      intro ⟨hidt, hnil, _⟩
      refine ⟨hidt, .op .halt :: rest, by rw [hnil]; rfl, rfl, fun h => absurd rfl h⟩
  | loadIdt =>
    obtain rfl := Option.some.inj hstep
    exact ⟨hs.printed, .inl (hearly.resolve_right fun h => h.2.2)⟩
  | forever => exact absurd hstep nofun

/-- Every step keeps the invariant. -/
theorem guarded_step {s s' : State} {e : Event} (hs : Guarded s)
    (hstep : bootStep b serialInit beyond s e = some s') : Guarded s' := by
  cases e with
  | resume =>
    rw [bootStep] at hstep
    split at hstep
    · rename_i st rest outer hcontexts
      exact guarded_advance hs hcontexts hstep
    · exact absurd hstep nofun
  | interrupt c f code =>
    rw [bootStep] at hstep
    split at hstep
    · rename_i hidt
      obtain ⟨r, -, rfl⟩ := Option.map_eq_some_iff.mp hstep
      refine ⟨hs.printed, .inl (hs.guarded.resolve_right fun h => ?_)⟩
      exact Bool.false_ne_true (h.1.symm.trans hidt)
    · exact absurd hstep nofun
  | finish =>
    rw [bootStep] at hstep
    split at hstep
    · rename_i context outer hcontexts
      obtain rfl := Option.some.inj hstep
      refine ⟨hs.printed, .inl (hs.guarded.resolve_right fun h => ?_)⟩
      -- nothing is below the only context
      obtain ⟨steps, hsteps, -⟩ := h.2
      rw [hcontexts] at hsteps
      exact absurd (List.cons.inj hsteps).2 nofun
    · exact absurd hstep nofun

theorem guarded_bootState (b : BootMemory) (keyUp : Byte) (extent : ℕ) (gdtTable idtTable : Addr) :
    Guarded (bootState b keyUp extent gdtTable idtTable) :=
  ⟨fun _ hx => absurd hx List.not_mem_nil, .inr ⟨rfl, _, rfl, mute_startSteps ..⟩⟩

end System

/-- **Lookup, initialisation, boot.** `get_tag` returns the first tag with the identifier, or null
exactly if there is none; every sequence of calls of `log::init` returns, each call does what it
should, and `write` stays once it is set; and no run of `_start`, wherever interrupts come, prints
through a null function. -/
theorem tag_lookup_and_terminal_init :
    (∀ (b : BootMemory) (tagId : Word), ∀ fuel > b.tags.length, ∃ tag,
      getTag b.mem b.bootInfo tagId fuel = some tag ∧
        (tag = 0 ↔ ∀ t ∈ b.tags, identifier b.mem t ≠ tagId) ∧
        (tag ≠ 0 → b.firstTag tagId = some tag)) ∧
    (∀ (write : Word) (calls : List InitCall), initMachine.Along InitRight write calls ∧
      ∃ write', initMachine.run write calls = some write' ∧ (write ≠ 0 → write' = write)) ∧
    ∀ (b : BootMemory) (serialInit : Bool) (beyond : ℕ → Option Handler) (keyUp : Byte)
      (extent : ℕ) (gdtTable idtTable : Addr) (es : List Event) (t : State),
      (bootMachine b serialInit beyond).run (bootState b keyUp extent gdtTable idtTable) es =
        some t → NoNullCall t.console.trace := by
  refine ⟨?_, ?_, ?_⟩
  · intro b tagId fuel hfuel
    refine ⟨_, getTag_eq b tagId hfuel, firstTag_getD_eq_zero_iff b tagId, ?_⟩
    cases b.firstTag tagId with
    | none => exact fun h => absurd rfl h
    | some tag => exact fun _ => rfl
  · intro write calls
    refine ⟨?_, ?_⟩
    · apply Machine.along_of_invariant (I := fun _ => True) _ trivial
      intro write call write' _ hstep
      obtain ⟨write'', hstep', hright⟩ := initMachine_step write call
      obtain rfl := Option.some.inj (hstep.symm.trans hstep')
      exact ⟨trivial, hright⟩
    · obtain ⟨write', hrun⟩ := initMachine_run write calls
      refine ⟨write', hrun, ?_⟩
      intro hwrite
      have hkeep : ∀ w call w', w = write → initMachine.step w call = some w' → w' = write := by
        intro w call w' hw hstep
        subst hw
        exact initMachine_keeps hwrite hstep
      exact Machine.run_invariant hkeep rfl hrun
  · intro b serialInit beyond keyUp extent gdtTable idtTable es t hrun
    exact (Machine.run_invariant (fun s e s' => guarded_step) (guarded_bootState ..) hrun).printed

/-- One tag, of a terminal whose write function is at 0x1000. -/
def terminalOnly : BootMemory where
  mem := ((Mem.store64 (fun _ => 0) 0x3080 0x2000).store64 0x2000 terminalId).store64 0x2018 0x1000
  bootInfo := 0x3000
  tags := [0x2000]
  chain := ⟨by decide, by decide +kernel, by
    show nextTag _ (tagsOf _ _) = 0
    decide⟩

/-- Its tag is found, and the first character of the banner goes to its function. -/
theorem tag_lookup_and_terminal_init_banner :
    (∃ tag, getTag terminalOnly.mem terminalOnly.bootInfo terminalId 2 = some tag ∧
      terminalOnly.firstTag terminalId = some tag) ∧
    ∃ t, (bootMachine terminalOnly true fun _ => none).run (bootState terminalOnly 0 1 0 0)
        [.resume, .resume] = some t ∧
      t.console.trace = [⟨.kernel, .terminal 0x1000, ch 'M'⟩] ∧ NoNullCall t.console.trace := by
  obtain ⟨hlookup, -, hruns⟩ := tag_lookup_and_terminal_init
  refine ⟨?_, ?_⟩
  · obtain ⟨tag, htag, hnull, hfirst⟩ := hlookup terminalOnly terminalId 2 (by decide)
    have hid : identifier terminalOnly.mem 0x2000 = terminalId := by decide
    refine ⟨tag, htag, hfirst fun h => ?_⟩
    exact hnull.mp h 0x2000 (List.mem_singleton.mpr rfl) hid
  · have htrace : ((bootMachine terminalOnly true fun _ => none).run
        (bootState terminalOnly 0 1 0 0) [.resume, .resume]).map (fun t => t.console.trace) =
        some [⟨.kernel, .terminal 0x1000, ch 'M'⟩] := by
      decide
    obtain ⟨t, ht, hfinal⟩ := Option.map_eq_some_iff.mp htrace
    exact ⟨t, ht, hfinal, hruns _ _ _ _ _ _ _ _ t ht⟩

end MegaOS.Boot
