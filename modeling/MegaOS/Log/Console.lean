import MegaOS.Foundation.Lines
import MegaOS.Log.Conversion

/-!
# The log

`kputs`, `kprint` and `kprintf` write to the kernel's terminal, `dputs`,
`dprint` and `dprintf` to the host over the serial line. The `d` functions set
the flag `use_serial`, run the code of their `k` counterpart, and clear it; that
code asks the flag where to send each character.

A call is the list of its single steps. With each character is recorded whom the
call was made for, so that a run shows where a message went and where it was
meant to go.
-/

namespace MegaOS.Log

open MegaOS.Memory MegaOS.Emission MegaOS.Lines

/-- The bytes of a string literal, its NUL included. -/
def cstr (s : String) : List Byte := s.toList.map ch ++ [0]

/-- Whom a function writes for: the `k` functions and the `d` functions. -/
inductive Family
  | kernel
  | host
  deriving DecidableEq

/-- Where a byte goes: to the terminal, through the function `write` points to, or to serial. -/
inductive Device
  | terminal (write : Word)
  | serial
  deriving DecidableEq

structure Emission where
  family : Family
  device : Device
  byte : Byte
  deriving DecidableEq

/-- A single step. -/
inductive Op
  /-- `use_serial = b` -/
  | setSerial (b : Bool)
  /-- `putchar(c)`: reads the flag. -/
  | putchar (f : Family) (c : Byte)
  /-- `kputc(c)`, called directly. -/
  | kputc (c : Byte)
  /-- `cpu::halt()` -/
  | halt
  deriving DecidableEq

/-- The globals of the log, whether the processor was halted, and what was output so far. -/
structure Console where
  write : Word
  useSerial : Bool
  halted : Bool
  trace : List Emission

/-- `kputc` -/
def kputc (write : Word) (f : Family) (c : Byte) : List Emission := [⟨f, .terminal write, c⟩]

/-- `dputc`: a CR in front of each LF. -/
def dputc (f : Family) (c : Byte) : List Emission :=
  if c = ch '\n' then [⟨f, .serial, ch '\r'⟩, ⟨f, .serial, c⟩] else [⟨f, .serial, c⟩]

/-- A text as `dputc` sends it. -/
def toWire (text : List Byte) : List Byte := expand (ch '\r') (ch '\n') text

/-- The bytes on the serial line. -/
def serialBytes (trace : List Emission) : List Byte :=
  (trace.filter (·.device = .serial)).map (·.byte)

theorem toWire_append (s t : List Byte) : toWire (s ++ t) = toWire s ++ toWire t :=
  expand_append ..

theorem serialBytes_append (x y : List Emission) :
    serialBytes (x ++ y) = serialBytes x ++ serialBytes y := by
  rw [serialBytes, List.filter_append, List.map_append]
  rfl

theorem serialBytes_dputc (text : List Byte) :
    serialBytes (text.flatMap (dputc .host)) = toWire text := by
  induction text with
  | nil => rfl
  | cons c text ih =>
    have hone : serialBytes (dputc .host c) = if c = ch '\n' then [ch '\r', c] else [c] := by
      rw [dputc]
      split <;> rfl
    rw [List.flatMap_cons, serialBytes_append, ih, hone]
    exact (expand_cons ..).symm

/-- `out_char_funcs` -/
def outCharFuncs (s : Console) (f : Family) (c : Byte) : List Emission :=
  if s.useSerial then dputc f c else kputc s.write f c

def Console.exec (s : Console) : Op → Console
  | .setSerial b => { s with useSerial := b }
  | .putchar f c => { s with trace := s.trace ++ outCharFuncs s f c }
  | .kputc c => { s with trace := s.trace ++ kputc s.write .kernel c }
  | .halt => { s with halted := true }

/-- Steps up to the first halt. -/
def Console.execAll (s : Console) : List Op → Console
  | [] => s
  | op :: ops => if s.halted then s else (s.exec op).execAll ops

/-! ### The functions

The result is the returned value and the steps. A string is `none` for a null pointer. -/

/-- `for (size_t i = 0; string[i] != '\0'; ++i) putchar(string[i]);` -/
def putString (f : Family) : List Byte → Option (List Op)
  | [] => none
  | c :: string => if c = 0 then some [] else (putString f string).map (.putchar f c :: ·)

/-- The body of `kputs`. -/
def putsFor (f : Family) : Option (List Byte) → Option (ℤ × List Op)
  | none => some (0, [])
  | some string => (putString f string).map fun ops => (1, ops ++ [.putchar f (ch '\n')])

/-- The body of `kprint`. -/
def printFor (f : Family) : Option (List Byte) → Option (ℤ × List Op)
  | none => some (0, [])
  | some string => (putString f string).map fun ops => (1, ops)

/-- The body of `kprintf`. -/
def printfFor (f : Family) (format : List Byte) (va : List Arg) : Option (ℤ × List Op) :=
  internalVsnprintf (outChar fun c ops => ops ++ [.putchar f c]) sizeMax false format va []

/-- `use_serial = true; …; use_serial = false;` around a body. -/
def onSerial (body : Option (ℤ × List Op)) : Option (ℤ × List Op) :=
  body.map fun r => (r.1, .setSerial true :: (r.2 ++ [.setSerial false]))

def kputs := putsFor .kernel
def kprint := printFor .kernel
def kprintf := printfFor .kernel
def dputs (string : Option (List Byte)) := onSerial (putsFor .host string)
def dprint (string : Option (List Byte)) := onSerial (printFor .host string)
def dprintf (format : List Byte) (va : List Arg) := onSerial (printfFor .host format va)

/-- A call of one of the six functions. -/
inductive Call
  | kputs (string : Option (List Byte))
  | kprint (string : Option (List Byte))
  | kprintf (format : List Byte) (va : List Arg)
  | dputs (string : Option (List Byte))
  | dprint (string : Option (List Byte))
  | dprintf (format : List Byte) (va : List Arg)

def Call.run : Call → Option (ℤ × List Op)
  | .kputs string => Log.kputs string
  | .kprint string => Log.kprint string
  | .kprintf format va => Log.kprintf format va
  | .dputs string => Log.dputs string
  | .dprint string => Log.dprint string
  | .dprintf format va => Log.dprintf format va

/-- The steps of calls made in turn. -/
def callSteps : List Call → Option (List Op)
  | [] => some []
  | c :: calls => do
    let r ← c.run
    let ops ← callSteps calls
    some (r.2 ++ ops)

/-! ### The shape of the steps -/

theorem cstr_append (s t : String) : cstr (s ++ t) = s.toList.map ch ++ cstr t := by
  rw [cstr, cstr, String.toList_append, List.map_append, List.append_assoc]

theorem zero_mem_cstr (s : String) : 0 ∈ cstr s :=
  List.mem_append_right _ (List.mem_singleton.mpr rfl)

theorem mem_kputc {write : Word} {f : Family} {c : Byte} {x : Emission} (hx : x ∈ kputc write f c) :
    x.family = f ∧ x.device = .terminal write := by
  obtain rfl := List.mem_singleton.mp hx
  exact ⟨rfl, rfl⟩

theorem mem_dputc {f : Family} {c : Byte} {x : Emission} (hx : x ∈ dputc f c) :
    x.family = f ∧ x.device = .serial := by
  rw [dputc] at hx
  split at hx
  · simp only [List.mem_cons, List.not_mem_nil, or_false] at hx
    rcases hx with rfl | rfl
    · exact ⟨rfl, rfl⟩
    · exact ⟨rfl, rfl⟩
  · obtain rfl := List.mem_singleton.mp hx
    exact ⟨rfl, rfl⟩

/-- Characters for `f`, output through `putchar`. -/
def chars (f : Family) (text : List Byte) : List Op := text.map (.putchar f)

theorem execAll_cons (op : Op) (ops : List Op) {s : Console} (hhalted : s.halted = false) :
    s.execAll (op :: ops) = (s.exec op).execAll ops := by
  rw [Console.execAll, if_neg]
  rw [hhalted]
  exact Bool.false_ne_true

/-- After a halt nothing happens. -/
theorem execAll_of_halted {s : Console} (hhalted : s.halted = true) (ops : List Op) :
    s.execAll ops = s := by
  cases ops with
  | nil => rfl
  | cons op ops => exact if_pos hhalted

/-- No step changes where the terminal is. -/
theorem exec_write (s : Console) (op : Op) : (s.exec op).write = s.write := by
  cases op <;> rfl

theorem execAll_write (s : Console) (ops : List Op) : (s.execAll ops).write = s.write := by
  induction ops generalizing s with
  | nil => rfl
  | cons op ops ih =>
    rw [Console.execAll]
    split
    · rfl
    · rw [ih, exec_write]

/-- Characters change nothing but the output, and all go where the flag says. -/
theorem execAll_chars (f : Family) (text : List Byte) {s : Console} (hhalted : s.halted = false) :
    s.execAll (chars f text) = { s with trace := s.trace ++ text.flatMap (outCharFuncs s f) } := by
  induction text generalizing s with
  | nil => simp [chars, Console.execAll]
  | cons c text ih =>
    have hnext : (s.exec (.putchar f c)).halted = false := hhalted
    have hcons : s.execAll (chars f (c :: text)) =
        (s.exec (.putchar f c)).execAll (chars f text) := execAll_cons _ _ hhalted
    rw [hcons, ih hnext, List.flatMap_cons, ← List.append_assoc]
    rfl

theorem execAll_append (s : Console) (ops ops' : List Op) :
    s.execAll (ops ++ ops') = (s.execAll ops).execAll ops' := by
  induction ops generalizing s with
  | nil => rfl
  | cons op ops ih =>
    cases hhalted : s.halted with
    | false =>
      rw [List.cons_append, execAll_cons _ _ hhalted, execAll_cons _ _ hhalted]
      exact ih (s.exec op)
    | true =>
      rw [execAll_of_halted hhalted, execAll_of_halted hhalted, execAll_of_halted hhalted]

theorem putString_chars {f : Family} {string : List Byte} {ops : List Op}
    (h : putString f string = some ops) : ∃ text, ops = chars f text := by
  induction string generalizing ops with
  | nil => exact absurd h nofun
  | cons c string ih =>
    by_cases hc : c = 0
    · rw [putString, if_pos hc] at h
      exact ⟨[], (Option.some.inj h).symm⟩
    · rw [putString, if_neg hc, Option.map_eq_some_iff] at h
      obtain ⟨ops', hops', rfl⟩ := h
      obtain ⟨text, rfl⟩ := ih hops'
      exact ⟨c :: text, rfl⟩

theorem putString_of_mem (f : Family) {string : List Byte} (h : 0 ∈ string) :
    ∃ ops, putString f string = some ops := by
  induction string with
  | nil => exact absurd h List.not_mem_nil
  | cons c string ih =>
    by_cases hc : c = 0
    · exact ⟨[], if_pos hc⟩
    · obtain ⟨ops, hops⟩ := ih ((List.mem_cons.mp h).resolve_left (Ne.symm hc))
      exact ⟨.putchar f c :: ops, by rw [putString, if_neg hc, hops]; rfl⟩

theorem putsFor_chars {f : Family} {string : Option (List Byte)} {r : ℤ × List Op}
    (h : putsFor f string = some r) : ∃ text, r.2 = chars f text := by
  cases string with
  | none =>
    obtain rfl := Option.some.inj h
    exact ⟨[], rfl⟩
  | some string =>
    obtain ⟨ops, hops, rfl⟩ := Option.map_eq_some_iff.mp h
    obtain ⟨text, rfl⟩ := putString_chars hops
    exact ⟨text ++ [ch '\n'], by simp [chars]⟩

theorem printFor_chars {f : Family} {string : Option (List Byte)} {r : ℤ × List Op}
    (h : printFor f string = some r) : ∃ text, r.2 = chars f text := by
  cases string with
  | none =>
    obtain rfl := Option.some.inj h
    exact ⟨[], rfl⟩
  | some string =>
    obtain ⟨ops, hops, rfl⟩ := Option.map_eq_some_iff.mp h
    exact putString_chars hops

/-- A literal is printed in full. -/
theorem kputs_cstr (s : String) : ∃ text, kputs (some (cstr s)) = some (1, chars .kernel text) := by
  obtain ⟨ops, hops⟩ := putString_of_mem .kernel (zero_mem_cstr s)
  have hputs : kputs (some (cstr s)) = some (1, ops ++ [.putchar .kernel (ch '\n')]) := by
    rw [kputs, putsFor, hops]
    rfl
  obtain ⟨text, htext⟩ := putsFor_chars hputs
  exact ⟨text, by rw [hputs, ← htext]⟩

/-- The formatter's characters reach `putchar` one by one, NUL excepted. -/
theorem emit_outChar (f : Family) (maxlen : ℕ) (text : List Byte) (o : Cursor (List Op)) :
    (emit (outChar fun c ops => ops ++ [.putchar f c]) maxlen text o).state =
      o.state ++ chars f (text.filter (· ≠ 0)) := by
  induction text generalizing o with
  | nil => exact (List.append_nil _).symm
  | cons c text ih =>
    rw [emit, ih]
    by_cases hc : c = 0#8
    · simp [put, outChar, outNonzero, chars, hc]
    · simp [put, outChar, outNonzero, chars, hc]

theorem printfFor_chars {f : Family} {format : List Byte} {va : List Arg} {r : ℤ × List Op}
    (h : printfFor f format va = some r) : ∃ text, r.2 = chars f text := by
  obtain ⟨t, last, hstate⟩ := internalVsnprintf_emitted h
  refine ⟨t.filter (· ≠ 0), hstate.trans ?_⟩
  exact emit_outChar f sizeMax t ⟨0, []⟩

/-- The steps of one call: its characters, between setting and clearing the flag for the host. -/
def callShape (f : Family) (text : List Byte) : List Op :=
  match f with
  | .kernel => chars .kernel text
  | .host => .setSerial true :: (chars .host text ++ [.setSerial false])

/-- A message to the host: `dputc` for each character, and a clear flag at the end. -/
theorem execAll_callShape_host (text : List Byte) {s : Console} (hhalted : s.halted = false) :
    s.execAll (callShape .host text) =
      { s with useSerial := false, trace := s.trace ++ text.flatMap (dputc .host) } := by
  have hset : (s.exec (.setSerial true)).halted = false := hhalted
  have hchars := execAll_chars .host text hset
  have hone : outCharFuncs (s.exec (.setSerial true)) .host = dputc .host := by
    funext c
    rfl
  rw [hone] at hchars
  have hmid : ((s.exec (.setSerial true)).execAll (chars .host text)).halted = false := by
    rw [hchars]
    exact hhalted
  rw [callShape, execAll_cons _ _ hhalted, execAll_append, execAll_cons _ _ hmid, hchars]
  rfl

/-- The steps of calls made in turn. -/
def messages (ms : List (Family × List Byte)) : List Op := ms.flatMap fun m => callShape m.1 m.2

theorem onSerial_shape {body : Option (ℤ × List Op)} {r : ℤ × List Op}
    (h : onSerial body = some r) (hbody : ∀ r, body = some r → ∃ text, r.2 = chars .host text) :
    ∃ text, r.2 = callShape .host text := by
  obtain ⟨r', hr', rfl⟩ := Option.map_eq_some_iff.mp h
  obtain ⟨text, htext⟩ := hbody r' hr'
  exact ⟨text, by simp only [callShape, htext]⟩

/-- **Calls** output some text for their family, and do nothing else but set and clear the flag. -/
theorem Call.run_shape {c : Call} {r : ℤ × List Op} (h : c.run = some r) :
    ∃ f text, r.2 = callShape f text := by
  cases c with
  | kputs string => exact ⟨.kernel, putsFor_chars h⟩
  | kprint string => exact ⟨.kernel, printFor_chars h⟩
  | kprintf format va => exact ⟨.kernel, printfFor_chars h⟩
  | dputs string => exact ⟨.host, onSerial_shape h fun _ => putsFor_chars⟩
  | dprint string => exact ⟨.host, onSerial_shape h fun _ => printFor_chars⟩
  | dprintf format va => exact ⟨.host, onSerial_shape h fun _ => printfFor_chars⟩

theorem callSteps_messages {calls : List Call} {ops : List Op} (h : callSteps calls = some ops) :
    ∃ ms, ops = messages ms := by
  induction calls generalizing ops with
  | nil => exact ⟨[], (Option.some.inj h).symm⟩
  | cons c calls ih =>
    simp only [callSteps, Option.bind_eq_bind, Option.bind_eq_some_iff] at h
    obtain ⟨r, hr, rest, hrest, h⟩ := h
    obtain rfl := Option.some.inj h
    obtain ⟨f, text, hshape⟩ := Call.run_shape hr
    obtain ⟨ms, rfl⟩ := ih hrest
    exact ⟨(f, text) :: ms, by rw [hshape]; rfl⟩

end MegaOS.Log
