import MegaOS.Boot.KernelRuns
import MegaOS.Interrupts.PanicDump

/-!
# A boot that nothing interrupts

`_start` alone, to the loop it ends in. It prints the boot loader's name on the
terminal and five messages to the host, and leaves the descriptor table in force,
the controllers programmed and interrupts on. Without boot information, without a
serial line or without a terminal it halts, and no event wakes it.
-/

namespace MegaOS.Kernel

open MegaOS.Memory MegaOS.Log MegaOS.Assembly MegaOS.Pic8259 MegaOS.Pic MegaOS.Interrupts MegaOS.Boot
  MegaOS.Runs

/-! ### The messages -/

theorem filter_nul {text : List Byte} (h : 0 ∉ text) : text.filter (· ≠ 0) = text := by
  rw [List.filter_eq_self]
  intro c hc
  rw [decide_eq_true_iff]
  rintro rfl
  exact h hc

/-- A terminated string is output up to its NUL. -/
theorem putString_eq (f : Family) {string : List Byte} (h : 0 ∈ string) :
    putString f string = some (chars f (cString string)) := by
  induction string with
  | nil => exact absurd h List.not_mem_nil
  | cons c string ih =>
    by_cases hc : c = 0
    · rw [putString, if_pos hc, cString, if_pos hc]
      rfl
    · rw [putString, if_neg hc, ih ((List.mem_cons.mp h).resolve_left (Ne.symm hc)),
        cString_cons hc]
      rfl

theorem dputs_cstr (s : String) :
    dputs (some (cstr s)) = some (1, callShape .host (cString (cstr s) ++ [ch '\n'])) := by
  have hchars : chars .host (cString (cstr s) ++ [ch '\n']) =
      chars .host (cString (cstr s)) ++ [Op.putchar .host (ch '\n')] := List.map_append
  rw [dputs, putsFor, putString_eq .host (zero_mem_cstr s), callShape, hchars]
  rfl

/-- The text of a format reaches its family, NUL excepted. -/
theorem printfFor_text (f : Family) {items : List Item} {va : List Arg} {t : List Byte}
    (ht : formatText items va = some t) :
    ∃ r, printfFor f (formatBytes items) va = some (r, chars f (t.filter (· ≠ 0))) := by
  have hfuel : items.length < (formatBytes items).length + 1 :=
    Nat.lt_succ_of_le (length_le_formatBytes items)
  have hstate := emit_outChar f sizeMax t ⟨0, []⟩
  rw [printfFor, internalVsnprintf]
  simp only [Bool.false_eq_true, if_false, vsnprintfLoop_eq_emit _ _ ht hfuel, Option.bind_eq_bind,
    Option.bind_some]
  exact ⟨_, congrArg (fun ops => some (_, ops)) hstate⟩

/-- A line about a descriptor table: its address, and its limit. -/
def tableLine (heading : String) (table limit : Word) : List Byte :=
  bytes heading ++ (hexText table ++ (bytes " " ++ (hexText limit ++ bytes "\n")))

def tableItems (heading : String) : List Item :=
  literals heading ++ .directive hexadecimal :: (literals " " ++
    .directive hexadecimal :: literals "\n")

theorem dprintf_table {heading : String} (hheading : literalBytes heading = bytes heading)
    (hnul : 0 ∉ bytes heading) (table limit : Word) :
    ∃ r, dprintf (formatBytes (tableItems heading)) [⟨table, []⟩, ⟨limit, []⟩] =
      some (r, callShape .host (tableLine heading table limit)) := by
  have hspace : literalBytes " " = bytes " " := by decide
  have hvalue : ∀ (items : List Item) (w : Word) (va : List Arg),
      formatText (.directive hexadecimal :: items) (⟨w, []⟩ :: va) =
        (formatText items va).map (hexText w ++ ·) := by
    intro items w va
    simp only [formatText, hexadecimal_text, Option.bind_eq_bind, Option.bind_some]
  have htext : formatText (tableItems heading) [⟨table, []⟩, ⟨limit, []⟩] =
      some (tableLine heading table limit) := by
    rw [tableItems, formatText_literals, hvalue, formatText_literals, hvalue, formatText_lf,
      hheading, hspace]
    rfl
  have hline : 0 ∉ tableLine heading table limit := by
    have hhex : ∀ w, (0 : Byte) ∉ hexText w := fun w => (inline_integerText .X _ _).1
    have hsep : (0 : Byte) ∉ bytes " " := by decide
    have hlf : (0 : Byte) ∉ bytes "\n" := by decide
    simp only [tableLine, List.mem_append, not_or]
    exact ⟨hnul, hhex _, hsep, hhex _, hlf⟩
  obtain ⟨r, hr⟩ := dprintf_text htext
  rw [filter_nul hline] at hr
  exact ⟨r, hr⟩

/-- What `_start` prints on the terminal. -/
def bannerText (brand version : List Byte) : List Byte :=
  bytes "Mega OS - " ++ (cString brand ++ (bytes " " ++ (cString version ++ bytes "\n\n")))

def bannerItems : List Item :=
  literals "Mega OS - " ++ stringItem :: (literals " " ++ stringItem :: literals "\n\n")

theorem kprintf_banner {brand version : Arg} (hbrand : 0 ∈ brand.bytes)
    (hversion : 0 ∈ version.bytes) :
    ∃ r, kprintf (cstr "Mega OS - %s %s\n\n") [brand, version] =
      some (r, callShape .kernel (bannerText brand.bytes version.bytes)) := by
  have hbytes : cstr "Mega OS - %s %s\n\n" = formatBytes bannerItems := by decide
  have hstring : ∀ (items : List Item) {a : Arg} (va : List Arg), 0 ∈ a.bytes →
      formatText (stringItem :: items) (a :: va) =
        (formatText items va).map (cString a.bytes ++ ·) := by
    intro items a va ha
    have htext : Directive.text { specifier := .string } (a :: va) =
        some (cString a.bytes, va) := by
      show (if 0 ∈ a.bytes then some (stringText ⟨{}, 0, 0⟩ (cString a.bytes), va) else none) = _
      rw [if_pos ha, stringText, Nat.zero_sub, padded_zero]
      rfl
    simp only [stringItem, formatText, htext, Option.bind_eq_bind, Option.bind_some]
  have hname : literalBytes "Mega OS - " = bytes "Mega OS - " := by decide
  have hspace : literalBytes " " = bytes " " := by decide
  have hend : formatText (literals "\n\n") [] = some (bytes "\n\n") := by decide
  have htext : formatText bannerItems [brand, version] =
      some (bannerText brand.bytes version.bytes) := by
    rw [bannerItems, formatText_literals, hstring _ _ hbrand, formatText_literals,
      hstring _ _ hversion, hend, hname, hspace]
    rfl
  have hnul : 0 ∉ bannerText brand.bytes version.bytes := by
    have hfirst : (0 : Byte) ∉ bytes "Mega OS - " := by decide
    have hsep : (0 : Byte) ∉ bytes " " := by decide
    have hlast : (0 : Byte) ∉ bytes "\n\n" := by decide
    simp only [bannerText, List.mem_append, not_or]
    exact ⟨hfirst, zero_notMem_cString _, hsep, zero_notMem_cString _, hlast⟩
  obtain ⟨r, hr⟩ := printfFor_text .kernel htext
  rw [filter_nul hnul] at hr
  exact ⟨r, by rw [kprintf, hbytes, hr]; rfl⟩

/-- The messages of `_start` to the host. -/
def bootMessages (gdtTable idtTable : Addr) : List (List Byte) :=
  [tableLine "GDT successfully installed: " gdtTable 55,
    bytes "ISR successfully installed\n",
    tableLine "IDT successfully installed: " idtTable 4095,
    bytes "PIC remapped: PIC1 -> 32 | PIC2 -> 40\n",
    bytes "Interrupts enabled\n"]

/-- A call that prints `text` for the host. -/
def Prints (steps : List Boot.Step) (text : List Byte) : Prop :=
  steps = (callShape .host text).map .op

theorem gdtInstall_prints (gdtTable : Addr) :
    Prints (gdtInstall gdtTable) (tableLine "GDT successfully installed: " gdtTable 55) := by
  have hbytes : cstr "GDT successfully installed: %#lX %#lX\n" =
      formatBytes (tableItems "GDT successfully installed: ") := by decide
  have hheading : literalBytes "GDT successfully installed: " =
      bytes "GDT successfully installed: " := by decide
  obtain ⟨r, hr⟩ := dprintf_table hheading (by decide) gdtTable 55
  rw [Prints, gdtInstall, hbytes]
  exact congrArg (fun m => logged (m.map Prod.snd)) hr

theorem isrInstall_prints : Prints isrInstall (bytes "ISR successfully installed\n") := by
  have htext : cString (cstr "ISR successfully installed") ++ [ch '\n'] =
      bytes "ISR successfully installed\n" := by decide
  rw [Prints, isrInstall, dputs_cstr, htext]
  rfl

/-- `IDT::install` after `isr::install`, from `lidt` on. -/
theorem idtInstall_prints (idtTable : Addr) : ∃ last,
    idtInstallSteps idtTable = isrInstall ++ .loadIdt :: last ∧
      Prints last (tableLine "IDT successfully installed: " idtTable 4095) := by
  have hbytes : cstr "IDT successfully installed: %#lX %#lX\n" =
      formatBytes (tableItems "IDT successfully installed: ") := by decide
  have hheading : literalBytes "IDT successfully installed: " =
      bytes "IDT successfully installed: " := by decide
  obtain ⟨r, hr⟩ := dprintf_table hheading (by decide) idtTable 4095
  refine ⟨_, rfl, ?_⟩
  rw [Prints, hbytes]
  exact congrArg (fun m => logged (m.map Prod.snd)) hr

theorem remap_prints : Prints (logged ((dprintf (cstr "PIC remapped: PIC1 -> %d | PIC2 -> %d\n")
    [⟨(32 : Byte).setWidth 64, []⟩, ⟨(40 : Byte).setWidth 64, []⟩]).map Prod.snd))
    (bytes "PIC remapped: PIC1 -> 32 | PIC2 -> 40\n") := by
  have htext : (dprintf (cstr "PIC remapped: PIC1 -> %d | PIC2 -> %d\n")
      [⟨(32 : Byte).setWidth 64, []⟩, ⟨(40 : Byte).setWidth 64, []⟩]).map Prod.snd =
      some (callShape .host (bytes "PIC remapped: PIC1 -> 32 | PIC2 -> 40\n")) := by
    decide
  exact congrArg logged htext

theorem enabled_prints : Prints (logged ((dputs (some (cstr "Interrupts enabled"))).map Prod.snd))
    (bytes "Interrupts enabled\n") := by
  have htext : cString (cstr "Interrupts enabled") ++ [ch '\n'] = bytes "Interrupts enabled\n" := by
    decide
  rw [Prints, dputs_cstr, htext]
  rfl

/-- "Assertion failed", without an end of line. -/
def bootAssertionText : List Byte :=
  bytes (red ++ "Assertion failed: boot_info at ./kernel.cpp, line 55")

theorem assertBootInfo_eq (bootInfo : Addr) : assertBootInfo bootInfo =
    if bootInfo = 0 then (callShape .host bootAssertionText ++ [Op.halt]).map .op else [] := by
  have htext : assertionFailed "boot_info" "./kernel.cpp" 55 =
      some (callShape .host bootAssertionText ++ [.halt]) := by
    decide +kernel
  rw [assertBootInfo, htext]
  rfl

/-! ### Undisturbed steps -/

section System

variable (b : BootMemory) (serialInit : Bool) (beyond : ℕ → Option Handler) (addr : Label → Addr)

/-- The kernel gets from `s` to `t` if nothing interrupts it. -/
def Proceeds (s t : State) : Prop :=
  ∃ n, (machine b serialInit beyond addr).run s (List.replicate n .resume) = some t

variable {b serialInit beyond addr} {s t u : State} {rest : List Step}

theorem Proceeds.refl (s : State) : Proceeds b serialInit beyond addr s s := ⟨0, rfl⟩

theorem Proceeds.trans (h : Proceeds b serialInit beyond addr s t)
    (h' : Proceeds b serialInit beyond addr t u) : Proceeds b serialInit beyond addr s u := by
  obtain ⟨m, hm⟩ := h
  obtain ⟨n, hn⟩ := h'
  refine ⟨m + n, ?_⟩
  rw [List.replicate_add, Machine.run_append, hm, Option.bind_some, hn]

theorem Proceeds.andThen {P : State → Prop} (h : Proceeds b serialInit beyond addr s t)
    (h' : ∃ u, Proceeds b serialInit beyond addr t u ∧ P u) :
    ∃ u, Proceeds b serialInit beyond addr s u ∧ P u := by
  obtain ⟨u, hu, hP⟩ := h'
  exact ⟨u, h.trans hu, hP⟩

theorem Proceeds.step (h : step b serialInit beyond addr s .resume = some t) :
    Proceeds b serialInit beyond addr s t :=
  ⟨1, Machine.run_cons h⟩

/-- A step of `_start`. -/
theorem proceeds_perform {st : Step} {r : State × List Step} (hhandlers : s.handlers = [])
    (hthread : s.thread = st :: rest) (hperform : perform b serialInit s st = some r) :
    Proceeds b serialInit beyond addr s { r.1 with thread := r.2 ++ rest } := by
  apply Proceeds.step
  rw [Kernel.step, hhandlers, hthread]
  simp only [hperform, Option.map_some]

/-- Steps of the log. -/
theorem proceeds_ops {os : List Op} (hos : .halt ∉ os) (hhandlers : s.handlers = [])
    (hthread : s.thread = ops os ++ rest) (hhalted : s.console.halted = false) :
    Proceeds b serialInit beyond addr s
      { s with console := s.console.execAll os, thread := rest } := by
  induction os generalizing s with
  | nil =>
    have hsame : { s with console := s.console.execAll [], thread := rest } = s := by
      obtain ⟨_, _, _, _, _, _, _, _, _⟩ := s
      obtain rfl : _ = rest := hthread
      rfl
    rw [hsame]
    exact .refl s
  | cons o os ih =>
    rw [List.mem_cons, not_or] at hos
    have hperform : perform b serialInit s (.plain (.op o)) =
        some ({ s with console := s.console.exec o }, []) := by
      cases o with
      | halt => exact absurd rfl hos.1
      | _ => rfl
    have hkeep : (s.console.exec o).halted = false := by
      cases o with
      | halt => exact absurd rfl hos.1
      | _ => exact hhalted
    rw [execAll_cons _ _ hhalted]
    apply (proceeds_perform hhandlers hthread hperform).trans
    exact ih (s := { s with console := s.console.exec o, thread := ops os ++ rest }) hos.2
      hhandlers rfl hkeep

/-- `_start` between two messages: nothing runs on top of it, and the log is at rest. -/
def calm (write : Word) (keyUp : Byte) (pics : Pair) (table flag : Bool) (byte : Byte)
    (trace : List Emission) (thread : List Step) : State :=
  ⟨⟨write, false, false, trace⟩, keyUp, pics, table, flag, false, thread, byte, []⟩

variable {write : Word} {keyUp : Byte} {pics : Pair} {table flag : Bool} {byte : Byte}
variable {trace : List Emission}

/-- A message to the host. -/
theorem proceeds_message {steps : List Boot.Step} {text : List Byte} (hsteps : Prints steps text) :
    Proceeds b serialInit beyond addr
      (calm write keyUp pics table flag byte trace (plain steps ++ rest))
      (calm write keyUp pics table flag byte (trace ++ text.flatMap (dputc .host)) rest) := by
  have hno : Op.halt ∉ callShape .host text := by
    have := halt_notMem_messages [(.host, text)]
    rwa [messages, List.flatMap_singleton] at this
  have hexec : (⟨write, false, false, trace⟩ : Console).execAll (callShape .host text) =
      ⟨write, false, false, trace ++ text.flatMap (dputc .host)⟩ := execAll_callShape_host text rfl
  rw [hsteps, calm, calm, ← hexec]
  exact proceeds_ops hno rfl rfl rfl

/-- A message to the terminal. -/
theorem proceeds_print (text : List Byte) :
    Proceeds b serialInit beyond addr
      (calm write keyUp pics table flag byte trace (ops (callShape .kernel text) ++ rest))
      (calm write keyUp pics table flag byte
        (trace ++ text.map fun c => ⟨.kernel, .terminal write, c⟩) rest) := by
  have hno : Op.halt ∉ callShape .kernel text := by
    have := halt_notMem_messages [(.kernel, text)]
    rwa [messages, List.flatMap_singleton] at this
  have hexec : (⟨write, false, false, trace⟩ : Console).execAll (callShape .kernel text) =
      ⟨write, false, false, trace ++ text.map fun c => ⟨.kernel, .terminal write, c⟩⟩ := by
    rw [callShape, execAll_chars _ _ rfl, List.map_eq_flatMap]
    rfl
  rw [calm, calm, ← hexec]
  exact proceeds_ops hno rfl rfl rfl

/-- `log::init` finds a terminal. -/
theorem proceeds_init (h : serialInit = true ∧ b.terminal ≠ 0) :
    Proceeds b serialInit beyond addr
      (calm 0 keyUp pics table flag byte trace (.plain .initOrHalt :: rest))
      (calm b.terminal keyUp pics table flag byte trace rest) := by
  apply Proceeds.step
  have hinit := init_eq serialInit b (Nat.lt_succ_self b.tags.length) 0
  rw [if_pos ⟨h.1, rfl, h.2⟩] at hinit
  show ((init serialInit b.mem b.bootInfo (b.tags.length + 1) 0).map _).map _ = _
  rw [hinit]
  rfl

/-- `log::init` fails. -/
theorem proceeds_init_halt (h : ¬(serialInit = true ∧ b.terminal ≠ 0)) :
    Proceeds b serialInit beyond addr
      (calm 0 keyUp pics table flag byte trace (.plain .initOrHalt :: rest))
      (calm 0 keyUp pics table flag byte trace (.plain (.op .halt) :: rest)) := by
  apply Proceeds.step
  have hinit := init_eq serialInit b (Nat.lt_succ_self b.tags.length) 0
  rw [if_neg fun h' => h ⟨h'.1, h'.2.2⟩] at hinit
  show ((init serialInit b.mem b.bootInfo (b.tags.length + 1) 0).map _).map _ = _
  rw [hinit]
  rfl

theorem proceeds_loadIdt :
    Proceeds b serialInit beyond addr
      (calm write keyUp pics table flag byte trace (.plain .loadIdt :: rest))
      (calm write keyUp pics true flag byte trace rest) :=
  ⟨1, rfl⟩

/-- `pic::remap`, up to its message: ten port accesses for each chip. -/
theorem proceeds_remap (m l : Byte) :
    Proceeds b serialInit beyond addr
      (calm write keyUp pics table flag byte trace (remapSteps m l ++ rest))
      (calm write keyUp (Pic.remap m l pics) table flag
        ((Pic.remapPic mpicCommand mpicData m pics).inb spicData) trace
        (plain (remapMessage m l) ++ rest)) :=
  ⟨20, rfl⟩

theorem proceeds_clearIrqMask (irq : Byte) :
    Proceeds b serialInit beyond addr
      (calm write keyUp pics table flag byte trace (clearIrqMaskSteps irq ++ rest))
      (calm write keyUp (Pic.clearIrqMask irq pics) table flag (pics.inb (dataPort irq)) trace
        rest) :=
  ⟨2, rfl⟩

theorem proceeds_enable :
    Proceeds b serialInit beyond addr
      (calm write keyUp pics table flag byte trace (.sti :: rest))
      (calm write keyUp pics table true byte trace rest) :=
  ⟨1, rfl⟩

/-! ### The end of `_start` -/

/-- The last loop of `_start`, from which only interrupts lead away: the log is at rest, and the
controllers are as programmed. -/
structure AtRest (target : Pair) (s : State) : Prop where
  log : Idle s.console
  pics : s.pics = target
  table : s.idtInForce = true
  flag : s.interruptFlag = true
  found : s.lost = false
  thread : s.thread = plain [.forever]
  handlers : s.handlers = []

/-- The processor is halted, and nothing changes any more. -/
structure HaltedForGood (b : BootMemory) (serialInit : Bool) (beyond : ℕ → Option Handler)
    (addr : Label → Addr) (s : State) : Prop where
  halted : s.console.halted = true
  still : ∀ e s', Kernel.step b serialInit beyond addr s e = some s' → s' = s

/-- A halt before the table of gates is in force. -/
theorem proceeds_halt : ∃ t,
    Proceeds b serialInit beyond addr
      (calm write keyUp pics false flag byte trace (.plain (.op .halt) :: rest)) t ∧
      HaltedForGood b serialInit beyond addr t ∧ t.console.trace = trace := by
  refine ⟨_, .step rfl, ⟨rfl, ?_⟩, rfl⟩
  intro e s' hstep
  cases e with
  | resume => exact (Option.some.inj hstep).symm
  | irq r cpu code =>
    rw [Kernel.step, if_neg (fun h => Bool.false_ne_true h.1)] at hstep
    exact absurd hstep (Option.some_ne_none _).symm
  | exception v e cpu =>
    rw [Kernel.step, if_neg (fun h => Bool.false_ne_true h.1)] at hstep
    exact absurd hstep (Option.some_ne_none _).symm
  | finish => exact absurd hstep (Option.some_ne_none _).symm

/-- From the descriptor tables on: five messages, and the loop. -/
theorem proceeds_install (gdtTable idtTable : Addr) : ∃ byte',
    Proceeds b serialInit beyond addr
      (calm write keyUp pics table flag byte trace
        (plain (gdtInstall gdtTable) ++ (plain (idtInstallSteps idtTable) ++ enableSteps)))
      (calm write keyUp (execCalls startCalls pics) true true byte'
        (trace ++ (bootMessages gdtTable idtTable).flatten.flatMap (dputc .host))
        (plain [.forever])) := by
  obtain ⟨last, hidt, hlast⟩ := idtInstall_prints idtTable
  have hthread : plain (idtInstallSteps idtTable) ++ enableSteps =
      plain isrInstall ++ (.plain .loadIdt :: (plain last ++ enableSteps)) := by
    rw [hidt]
    simp [plain]
  have hmessages : trace ++ (bootMessages gdtTable idtTable).flatten.flatMap (dputc .host) =
      trace ++ (tableLine "GDT successfully installed: " gdtTable 55).flatMap (dputc .host) ++
        (bytes "ISR successfully installed\n").flatMap (dputc .host) ++
        (tableLine "IDT successfully installed: " idtTable 4095).flatMap (dputc .host) ++
        (bytes "PIC remapped: PIC1 -> 32 | PIC2 -> 40\n").flatMap (dputc .host) ++
        (bytes "Interrupts enabled\n").flatMap (dputc .host) := by
    simp only [bootMessages, List.flatten_cons, List.flatten_nil, List.append_nil,
      List.flatMap_append, List.append_assoc]
  rw [hthread, hmessages]
  exact ⟨_, (proceeds_message (gdtInstall_prints gdtTable)).trans <|
    (proceeds_message isrInstall_prints).trans <| proceeds_loadIdt.trans <|
    (proceeds_message hlast).trans <| (proceeds_remap 32 40).trans <|
    (proceeds_message remap_prints).trans <| (proceeds_clearIrqMask 1).trans <|
    proceeds_enable.trans (proceeds_message enabled_prints)⟩

end System

/-! ### The whole boot -/

/-- The boot loader's strings, in the memory that `extent` bytes of each may be read from. -/
def brandOf (b : BootMemory) (extent : ℕ) : List Byte := bytesAt b.mem b.bootInfo extent

def versionOf (b : BootMemory) (extent : ℕ) : List Byte := bytesAt b.mem (b.bootInfo + 64) extent

theorem printBanner_eq {b : BootMemory} {extent : ℕ} (hbrand : 0 ∈ brandOf b extent)
    (hversion : 0 ∈ versionOf b extent) : printBanner b.mem b.bootInfo extent =
      (callShape .kernel (bannerText (brandOf b extent) (versionOf b extent))).map .op := by
  have hbrand' : 0 ∈ Arg.bytes ⟨b.bootInfo, brandOf b extent⟩ := hbrand
  have hversion' : 0 ∈ Arg.bytes ⟨b.bootInfo + 64, versionOf b extent⟩ := hversion
  obtain ⟨r, hr⟩ := kprintf_banner hbrand' hversion'
  exact congrArg (fun m => logged (m.map Prod.snd)) hr

/-- What a boot that succeeds outputs. -/
def bootTrace (b : BootMemory) (extent : ℕ) (gdtTable idtTable : Addr) : List Emission :=
  (bannerText (brandOf b extent) (versionOf b extent)).map
      (fun c => ⟨.kernel, .terminal b.terminal, c⟩) ++
    (bootMessages gdtTable idtTable).flatten.flatMap (dputc .host)

/-- **The boot.** Left alone, `_start` succeeds exactly when it is given boot information, the serial
line works and a terminal with a write function is found. It then ends in its loop at rest, and has
printed the banner on the terminal and its messages to the host, in this order and nothing else.
Otherwise it halts for good, and the terminal was not used. -/
theorem boot_output (b : BootMemory) (serialInit : Bool) (beyond : ℕ → Option Handler)
    (addr : Label → Addr) (pics : BootPics) (keyUp byte : Byte) (extent : ℕ)
    (gdtTable idtTable : Addr) (hbrand : 0 ∈ brandOf b extent)
    (hversion : 0 ∈ versionOf b extent) :
    ∃ t, Proceeds b serialInit beyond addr (start b pics keyUp byte extent gdtTable idtTable) t ∧
      if b.bootInfo ≠ 0 ∧ serialInit = true ∧ b.terminal ≠ 0 then
        AtRest (execCalls startCalls pics.pair) t ∧ t.keyUp = keyUp ∧
          t.console.write = b.terminal ∧
          t.console.trace = bootTrace b extent gdtTable idtTable
      else
        HaltedForGood b serialInit beyond addr t ∧ t.console.trace =
          if b.bootInfo = 0 then bootAssertionText.flatMap (dputc .host) else [] := by
  have hstart : start b pics keyUp byte extent gdtTable idtTable =
      calm 0 keyUp pics.pair false false byte []
        (startProgram b.mem b.bootInfo extent gdtTable idtTable) := rfl
  rw [hstart, startProgram, assertBootInfo_eq]
  by_cases hinfo : b.bootInfo = 0
  · -- the assertion fails
    have hthread : ∀ rest,
        plain ((callShape .host bootAssertionText ++ [Op.halt]).map .op) ++ rest =
          plain ((callShape .host bootAssertionText).map .op) ++ (.plain (.op .halt) :: rest) := by
      intro rest
      simp [plain]
    rw [if_pos hinfo, hthread]
    obtain ⟨t, ht, hgood, htrace⟩ := (proceeds_message rfl).andThen proceeds_halt
    refine ⟨t, ht, ?_⟩
    rw [if_neg fun h => h.1 hinfo, if_pos hinfo]
    exact ⟨hgood, htrace⟩
  · rw [if_neg hinfo]
    by_cases hlog : serialInit = true ∧ b.terminal ≠ 0
    · obtain ⟨byte', hinstall⟩ := proceeds_install gdtTable idtTable
      rw [printBanner_eq hbrand hversion]
      refine ⟨_, (proceeds_init hlog).trans <| (proceeds_print _).trans hinstall, ?_⟩
      rw [if_pos ⟨hinfo, hlog⟩]
      exact ⟨⟨⟨rfl, rfl⟩, rfl, rfl, rfl, rfl, rfl, rfl⟩, rfl, rfl, rfl⟩
    · obtain ⟨t, ht, hgood, htrace⟩ := (proceeds_init_halt hlog).andThen proceeds_halt
      refine ⟨t, ht, ?_⟩
      rw [if_neg fun h => hlog h.2, if_neg hinfo]
      exact ⟨hgood, htrace⟩

/-- A boot with the terminal's write function at 0x1000, and empty names. -/
theorem boot_output_terminal :
    ∃ t, Proceeds terminalOnly true (fun _ => none) (fun _ => 0)
        (start terminalOnly maskedPics 0 0 1 0x5000 0x6000) t ∧
      if terminalOnly.bootInfo ≠ 0 ∧ true = true ∧ terminalOnly.terminal ≠ 0 then
        AtRest (execCalls startCalls maskedPics.pair) t ∧ t.keyUp = 0 ∧
          t.console.write = terminalOnly.terminal ∧
          t.console.trace = bootTrace terminalOnly 1 0x5000 0x6000
      else
        HaltedForGood terminalOnly true (fun _ => none) (fun _ => 0) t ∧ t.console.trace =
          if terminalOnly.bootInfo = 0 then bootAssertionText.flatMap (dputc .host) else [] :=
  boot_output terminalOnly true (fun _ => none) (fun _ => 0) maskedPics 0 0 1 0x5000 0x6000
    (by decide) (by decide +kernel)

end MegaOS.Kernel
