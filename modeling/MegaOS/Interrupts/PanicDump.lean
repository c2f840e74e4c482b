import MegaOS.Foundation.Lines
import MegaOS.Interrupts.Handlers
import MegaOS.Log.IntegerWidth
import MegaOS.Log.Sinks

/-!
# The panic dump is read back

A panic on a frame sends its dump to the host: a line for each field, with the
field's name and a numeral. Each name labels one line, and the numeral is the
field's value, so the frame can be read out of what the host receives.
-/

namespace MegaOS.Interrupts

open MegaOS.Memory MegaOS.Emission MegaOS.Log MegaOS.Lines MegaOS.Numerals

/-! ### Numerals of a dump -/

/-- What `%d` outputs. -/
def decimalText (w : Word) : List Byte := integerText (ch 'd') ⟨{}, 0, 0⟩ ⟨w, []⟩

/-- What `%#lX` outputs. -/
def hexText (w : Word) : List Byte :=
  integerText (ch 'X') ⟨{ hash := true, long := true }, 0, 0⟩ ⟨w, []⟩

/-- The numeral denotes the number: decimal digits, or `0x` and hexadecimal digits, or a single
`0`. -/
def ReadsAs (isDecimal : Bool) (numeral : List Byte) (n : ℕ) : Prop :=
  if isDecimal then
    numeral ≠ [] ∧ (∀ c ∈ numeral, IsDigit digitValue 10 c) ∧ value digitValue 10 numeral = n
  else
    numeral = [ch '0'] ∧ n = 0 ∨ ∃ ds, numeral = ch '0' :: ch 'x' :: ds ∧ ds ≠ [] ∧
      (∀ c ∈ ds, IsDigit digitValue 16 c) ∧ value digitValue 16 ds = n

/-- A numeral denotes one number. -/
theorem ReadsAs.unique {isDecimal : Bool} {numeral : List Byte} {m n : ℕ}
    (hm : ReadsAs isDecimal numeral m) (hn : ReadsAs isDecimal numeral n) : m = n := by
  cases isDecimal with
  | true => exact hm.2.2.symm.trans hn.2.2
  | false =>
    rcases hm with ⟨hzero, rfl⟩ | ⟨ds, hds, -, -, rfl⟩
    · rcases hn with ⟨-, rfl⟩ | ⟨ds, hds, -⟩
      · rfl
      · rw [hzero] at hds
        exact absurd (List.cons.inj hds).2 (List.cons_ne_nil _ _).symm
    · rcases hn with ⟨hzero, -⟩ | ⟨ds', hds', -, -, rfl⟩
      · rw [hzero] at hds
        exact absurd (List.cons.inj hds).2 (List.cons_ne_nil _ _).symm
      · rw [hds] at hds'
        rw [(List.cons.inj (List.cons.inj hds').2).2]

/-- The places of a numeral without width and precision. -/
theorem places_plain (k : IntegerSpecifier) (flags : Flags) (value : ℤ)
    (hp : flags.precision = false) :
    k.places ⟨flags, 0, 0⟩ value =
      if value = 0 then 1 else min (k.digitCount value) ntoaBufferSize := by
  have hplaces := places_withoutWidth (s := ⟨flags, 0, 0⟩) k value (fun _ => rfl)
  have hwidth := width_withoutWidth k ⟨flags, 0, 0⟩ value
  refine hplaces.trans ?_
  cases hleft : flags.left <;> cases hzero : flags.zeropad <;>
    simp [IntegerSpecifier.leading, Spec.zeroPadded, hp, hleft, hzero, hwidth]

/-- Without width, precision and sign, an integer is its prefix and its digits. -/
theorem integerText_plain (k : IntegerSpecifier) {len : Length} {flags : Flags}
    (h : LengthFlags len flags) (hp : flags.precision = false) (hplus : flags.plus = false)
    (hspace : flags.space = false) {a : Arg} {value : ℤ} (hvalue : value = argumentValue len k a)
    (hpos : 0 ≤ value) (hn : k.digitCount value ≤ 30) :
    ∃ uppercase places, k.digitCount value ≤ places ∧ 0 < places ∧ (value = 0 → places = 1) ∧
      integerText k.byte ⟨flags, 0, 0⟩ a =
        (if k.prefixed ⟨flags, 0, 0⟩ value then k.prefixChars else []) ++
          numeral k.base uppercase value.natAbs places := by
  have harg : IsArgument k value := hvalue ▸ isArgument_argumentValue len k a
  have hsize : ntoaBufferSize = 32 := rfl
  have hplaces := places_plain k flags value hp
  have hwidth := width_withoutWidth k ⟨flags, 0, 0⟩ value
  have hpad : ∀ n, padded flags.left (if Spec.zeroPadded ⟨flags, 0, 0⟩ then 0 else
      k.width ⟨flags, 0, 0⟩ value - n) (k.core ⟨flags, 0, 0⟩ value) =
        k.core ⟨flags, 0, 0⟩ value := by
    intro n
    rw [show k.width ⟨flags, 0, 0⟩ value = 0 from hwidth, Nat.zero_sub, ite_self, padded_zero]
  have hprinted : value = printedValue len k a :=
    hvalue.trans (printedValue_of_nonneg (hvalue ▸ hpos)).symm
  have htext := (integerText_eq (s := ⟨flags, 0, 0⟩) k h hprinted).trans (hpad _)
  have hle : k.digitCount value ≤ k.places ⟨flags, 0, 0⟩ value := by
    rw [hplaces]
    split
    · rename_i hzero
      rw [hzero, k.digitCount_zero]
      exact Nat.zero_le 1
    · omega
  refine ⟨(k.workFlags ⟨flags, 0, 0⟩ value).uppercase, k.places ⟨flags, 0, 0⟩ value, hle, ?_, ?_, ?_⟩
  · rw [hplaces]
    split
    · exact Nat.one_pos
    · rename_i hzero
      have := IntegerSpecifier.digitCount_pos (k := k) hzero
      omega
  · intro hzero
    rw [hplaces, if_pos hzero]
  rw [htext]
  cases hpre : k.prefixed ⟨flags, 0, 0⟩ value with
  | false =>
    have hspec := workFlags_spec k ⟨flags, 0, 0⟩ value
    have hsign : signChars (decide (value < 0)) (k.workFlags ⟨flags, 0, 0⟩ value) 0 = [] := by
      rw [← List.length_eq_zero_iff, length_signChars, hspec.plus, hspec.space, hplus, hspace,
        decide_eq_false (Int.not_lt.mpr hpos)]
      rfl
    rw [core_eq_of_not_prefixed hpre, signChars_of_nil hsign]
    rfl
  | true =>
    obtain ⟨-, hbase, hzero⟩ := (prefixed_iff k _ value).mp hpre
    have hlen : k.prefixChars.length ≤ 2 := by cases k <;> decide
    have hroom : k.places ⟨flags, 0, 0⟩ value + k.prefixChars.length ≤ ntoaBufferSize := by
      rw [hplaces, if_neg hzero]
      omega
    rw [core_eq_of_prefixed harg hpre, if_pos rfl, IntegerSpecifier.prefixedText,
      prefixText_of_room hbase hroom]

/-- Digits with a place for each denote their number. -/
theorem numeral_spec (k : IntegerSpecifier) (uppercase : Bool) {value : ℤ} {places : ℕ}
    (hle : k.digitCount value ≤ places) (hpos : 0 < places) :
    numeral k.base uppercase value.natAbs places ≠ [] ∧
      (∀ c ∈ numeral k.base uppercase value.natAbs places, IsDigit digitValue k.base c) ∧
      Numerals.value digitValue k.base (numeral k.base uppercase value.natAbs places) =
        value.natAbs := by
  refine ⟨?_, isDigit_numeral k uppercase _ _, ?_⟩
  · intro hnil
    have hlen := length_numeral k.base uppercase value.natAbs places
    rw [hnil, List.length_nil] at hlen
    omega
  · exact (value_lowDigits k.two_le_base (digitValue_digitCharOf_of_lt k.base_le _) _ _).trans
      ((mod_pow_eq_self_iff k.two_le_base _ _).mpr hle)

theorem decimalText_readsAs {w : Word} (hw : w.toNat < 2 ^ 31) :
    ReadsAs true (decimalText w) w.toNat := by
  have hvalue : ((w.toNat : ℕ) : ℤ) = argumentValue .none .d ⟨w, []⟩ := by
    have hlow : (w.setWidth 32).toNat = w.toNat := by
      rw [BitVec.toNat_setWidth, Nat.mod_eq_of_lt (by omega)]
    show _ = (w.setWidth 32).toInt
    rw [BitVec.toInt_eq_toNat_of_lt (by omega), hlow]
  have hn : IntegerSpecifier.d.digitCount (w.toNat : ℤ) ≤ 30 := by
    rw [IntegerSpecifier.digitCount_le_iff]
    exact Nat.lt_trans hw (by decide)
  have hplain : LengthFlags .none {} := ⟨rfl, rfl, rfl⟩
  obtain ⟨uppercase, places, hle, hpos, -, htext⟩ :=
    integerText_plain .d hplain rfl rfl rfl hvalue (Int.natCast_nonneg _) hn
  have hbare : IntegerSpecifier.d.prefixed ⟨{}, 0, 0⟩ (w.toNat : ℤ) = false := rfl
  rw [hbare, if_neg Bool.false_ne_true, List.nil_append] at htext
  have hspec := numeral_spec .d uppercase hle hpos
  rw [← htext] at hspec
  exact hspec

theorem hexText_readsAs (w : Word) : ReadsAs false (hexText w) w.toNat := by
  have hvalue : ((w.toNat : ℕ) : ℤ) = argumentValue .l .X ⟨w, []⟩ := by
    show _ = (((w.setWidth 64).toNat : ℕ) : ℤ)
    rw [BitVec.setWidth_eq]
  have hn : IntegerSpecifier.X.digitCount (w.toNat : ℤ) ≤ 30 := by
    rw [IntegerSpecifier.digitCount_le_iff]
    exact Nat.lt_trans w.isLt (by decide)
  have hlong : LengthFlags .l { hash := true, long := true } := ⟨rfl, rfl, rfl⟩
  obtain ⟨uppercase, places, hle, hpos, hone, htext⟩ :=
    integerText_plain .X hlong rfl rfl rfl hvalue (Int.natCast_nonneg _) hn
  have hspec := numeral_spec .X uppercase hle hpos
  by_cases hzero : (w.toNat : ℤ) = 0
  · -- no prefix for a 0
    have hbare : IntegerSpecifier.X.prefixed ⟨{ hash := true, long := true }, 0, 0⟩
        (w.toNat : ℤ) = false := by
      rw [hzero]
      rfl
    rw [hbare, if_neg Bool.false_ne_true, List.nil_append, hone hzero, hzero] at htext
    refine .inl ⟨htext.trans ?_, Int.ofNat.inj hzero⟩
    cases uppercase <;> rfl
  · have hpre : IntegerSpecifier.X.prefixed ⟨{ hash := true, long := true }, 0, 0⟩
        (w.toNat : ℤ) = true := (prefixed_iff _ _ _).mpr ⟨rfl, by decide, hzero⟩
    rw [hpre, if_pos rfl] at htext
    exact .inr ⟨_, htext, hspec⟩

/-! ### The lines of a dump -/

/-- The bytes of a text in the source. -/
def bytes (s : String) : List Byte := s.toList.map ch

/-- A field of the frame, by the name it has in the dump and the spaces that align it. -/
structure DumpField where
  name : String
  gap : ℕ
  isDecimal : Bool
  get : InterruptFrame → Word

def decimalFields : List DumpField :=
  [⟨"err_code", 0, true, (·.errCode)⟩, ⟨"int_no", 2, true, (·.intNo)⟩]

def addressFields : List DumpField :=
  [⟨"rip", 5, false, (·.rip)⟩, ⟨"cs", 6, false, (·.cs)⟩, ⟨"rflags", 2, false, (·.rflags)⟩,
    ⟨"rsp", 5, false, (·.rsp)⟩, ⟨"ss", 6, false, (·.ss)⟩]

def registerFields : List DumpField :=
  [⟨"rax", 0, false, (·.gprs.rax)⟩, ⟨"rbx", 0, false, (·.gprs.rbx)⟩,
    ⟨"rcx", 0, false, (·.gprs.rcx)⟩, ⟨"rdx", 0, false, (·.gprs.rdx)⟩,
    ⟨"rbp", 0, false, (·.gprs.rbp)⟩, ⟨"rdi", 0, false, (·.gprs.rdi)⟩,
    ⟨"rsi", 0, false, (·.gprs.rsi)⟩, ⟨"r8", 1, false, (·.gprs.r8)⟩,
    ⟨"r9", 1, false, (·.gprs.r9)⟩, ⟨"r10", 0, false, (·.gprs.r10)⟩,
    ⟨"r11", 0, false, (·.gprs.r11)⟩, ⟨"r12", 0, false, (·.gprs.r12)⟩,
    ⟨"r13", 0, false, (·.gprs.r13)⟩, ⟨"r14", 0, false, (·.gprs.r14)⟩,
    ⟨"r15", 0, false, (·.gprs.r15)⟩]

/-- The fields of `interrupt_frame`. -/
def dumpFields : List DumpField := decimalFields ++ (addressFields ++ registerFields)

/-- A line `\t- name = numeral`, with more spaces behind some names. -/
def fieldEntry (name : String) (n : ℕ) (numeral : List Byte) : List Byte :=
  entry (bytes "\t- ") (bytes "= ") (ch ' ') (bytes name) n numeral

theorem fieldEntry_append (name : String) (n : ℕ) (numeral t : List Byte) :
    fieldEntry name n numeral ++ t = fieldEntry name n (numeral ++ t) := by
  simp only [fieldEntry, entry, List.append_assoc]

def DumpField.numeral (x : DumpField) (f : InterruptFrame) : List Byte :=
  if x.isDecimal then decimalText (x.get f) else hexText (x.get f)

def DumpField.line (x : DumpField) (f : InterruptFrame) : List Byte :=
  fieldEntry x.name x.gap (x.numeral f)

/-- The label of a line, if it has one. -/
def lineLabel : List Byte → Option (List Byte) := labelOf (bytes "\t- ") (ch ' ')

/-- The bytes a literal outputs. -/
def literalBytes (s : String) : List Byte := (bytes s).filter fun c => c ≠ 0 ∧ c ≠ ch '%'

theorem formatText_literals (s : String) (items : List Item) (va : List Arg) :
    formatText (literals s ++ items) va = (formatText items va).map (literalBytes s ++ ·) := by
  rw [literals, literalBytes, bytes]
  induction s.toList with
  | nil => exact Option.map_id'.symm
  | cons c cs ih =>
    by_cases hc : ch c ≠ 0 ∧ ch c ≠ ch '%'
    · have hkeep : ((c :: cs).map ch).filter (fun c => c ≠ 0 ∧ c ≠ ch '%') =
          ch c :: (cs.map ch).filter fun c => c ≠ 0 ∧ c ≠ ch '%' := by
        rw [List.map_cons, List.filter_cons, if_pos (decide_eq_true hc)]
      rw [List.filterMap_cons_some (dif_pos hc), List.cons_append, formatText, ih, Option.map_map,
        hkeep]
      rfl
    · have hdrop : ((c :: cs).map ch).filter (fun c => c ≠ 0 ∧ c ≠ ch '%') =
          (cs.map ch).filter fun c => c ≠ 0 ∧ c ≠ ch '%' := by
        rw [List.map_cons, List.filter_cons, if_neg (fun h => hc (of_decide_eq_true h))]
      rw [List.filterMap_cons_none (dif_neg hc), ih, hdrop]

/-- What a literal outputs has no NUL. -/
theorem filter_literalBytes (s : String) : (literalBytes s).filter (· ≠ 0) = literalBytes s := by
  rw [List.filter_eq_self]
  intro c hc
  have hkeep : decide (c ≠ 0 ∧ c ≠ ch '%') = true := (List.mem_filter.mp hc).2
  exact decide_eq_true (of_decide_eq_true hkeep).1

theorem literalBytes_lf : literalBytes "\n" = [ch '\n'] := by decide

theorem formatText_lf : formatText (literals "\n") [] = some [ch '\n'] := by
  have hlf := formatText_literals "\n" [] []
  rw [List.append_nil, literalBytes_lf] at hlf
  exact hlf

/-- The text of a line with a directive. -/
theorem formatText_dumpLine {v : Directive} {num : Word → List Byte}
    (hv : ∀ w va, v.text (⟨w, []⟩ :: va) = some (num w, va)) (name : String) (items : List Item)
    (w : Word) (va : List Arg) :
    formatText (dumpLine v name ++ items) (⟨w, []⟩ :: va) = (formatText items va).map
      ((literalBytes ("\t- " ++ name ++ " = ") ++ (num w ++ [ch '\n'])) ++ ·) := by
  have hvalue : formatText (.directive v :: (literals "\n" ++ items)) (⟨w, []⟩ :: va) =
      (formatText (literals "\n" ++ items) va).map (num w ++ ·) := by
    simp only [formatText, hv, Option.bind_eq_bind, Option.bind_some]
  rw [dumpLine, List.append_assoc, formatText_literals, List.cons_append, hvalue,
    formatText_literals, literalBytes_lf, Option.map_map, Option.map_map]
  congr 1
  funext t
  simp only [Function.comp, List.append_assoc]

/-- The text of the lines of some fields. -/
theorem formatText_fields {v : Directive} {num : Word → List Byte}
    (hv : ∀ w va, v.text (⟨w, []⟩ :: va) = some (num w, va)) (f : InterruptFrame)
    {names : List String} {fields : List DumpField}
    (hlabels : List.Forall₂ (fun name x => literalBytes ("\t- " ++ name ++ " = ") =
      fieldEntry x.name x.gap []) names fields)
    (hnum : ∀ x ∈ fields, x.numeral f = num (x.get f)) (items : List Item) (va : List Arg) :
    formatText (names.flatMap (dumpLine v) ++ items) (fields.map (fun x => ⟨x.get f, []⟩) ++ va) =
      (formatText items va).map (unlines (ch '\n') (fields.map (·.line f)) ++ ·) := by
  induction hlabels with
  | nil => exact Option.map_id'.symm
  | @cons name x names fields hlabel _ ih =>
    rw [List.flatMap_cons, List.append_assoc, List.map_cons, List.cons_append,
      formatText_dumpLine hv, ih fun y hy => hnum y (List.mem_cons_of_mem x hy), Option.map_map,
      hlabel]
    congr 1
    funext t
    show fieldEntry x.name x.gap [] ++ (num (x.get f) ++ [ch '\n']) ++
      (unlines (ch '\n') (fields.map (·.line f)) ++ t) = _
    rw [← hnum x List.mem_cons_self, ← List.append_assoc (fieldEntry x.name x.gap []),
      fieldEntry_append, List.nil_append, ← List.append_assoc]
    rfl

theorem decimal_text (w : Word) (va : List Arg) :
    decimal.text (⟨w, []⟩ :: va) = some (decimalText w, va) := rfl

theorem hexadecimal_text (w : Word) (va : List Arg) :
    hexadecimal.text (⟨w, []⟩ :: va) = some (hexText w, va) := rfl

theorem numeral_of_decimal {fields : List DumpField} (h : fields.all (·.isDecimal) = true)
    (f : InterruptFrame) : ∀ x ∈ fields, x.numeral f = decimalText (x.get f) := by
  intro x hx
  rw [DumpField.numeral, if_pos (List.all_eq_true.mp h x hx)]

theorem numeral_of_hexadecimal {fields : List DumpField} (h : fields.any (·.isDecimal) = false)
    (f : InterruptFrame) : ∀ x ∈ fields, x.numeral f = hexText (x.get f) := by
  intro x hx
  have hx' : ¬x.isDecimal = true := fun htrue =>
    Bool.false_ne_true (h.symm.trans (List.any_eq_true.mpr ⟨x, hx, htrue⟩))
  rw [DumpField.numeral, if_neg hx']

/-- "Interrupt Stack Frame:" and its fields. -/
def frameLines (f : InterruptFrame) : List (List Byte) :=
  bytes "Interrupt Stack Frame:" ::
    (decimalFields.map (·.line f) ++ (addressFields.map (·.line f) ++ [[]]))

/-- "General Purpose Registers:" and theirs. -/
def registerLines (f : InterruptFrame) : List (List Byte) :=
  bytes "General Purpose Registers:" :: (registerFields.map (·.line f) ++ [[]])

theorem frameItems_text (f : InterruptFrame) :
    formatText frameItems (frameArgs f) = some (unlines (ch '\n') (frameLines f)) := by
  have hargs : frameArgs f = decimalFields.map (fun x => ⟨x.get f, []⟩) ++
      (addressFields.map (fun x => ⟨x.get f, []⟩) ++ []) := rfl
  have hheading : literalBytes "Interrupt Stack Frame:\n" =
      bytes "Interrupt Stack Frame:" ++ [ch '\n'] := by decide
  rw [frameItems, hargs, formatText_literals,
    formatText_fields decimal_text f (by decide) (numeral_of_decimal (by decide) f),
    formatText_fields hexadecimal_text f (by decide) (numeral_of_hexadecimal (by decide) f),
    formatText_lf, hheading]
  simp only [Option.map_some, frameLines, unlines, List.flatMap_cons, List.flatMap_append,
    List.flatMap_nil, List.append_nil, List.nil_append, List.append_assoc]

theorem registersItems_text (f : InterruptFrame) :
    formatText registersItems (registersArgs f.gprs) =
      some (unlines (ch '\n') (registerLines f)) := by
  have hargs : registersArgs f.gprs = registerFields.map (fun x => ⟨x.get f, []⟩) ++ [] := rfl
  have hheading : literalBytes "General Purpose Registers:\n" =
      bytes "General Purpose Registers:" ++ [ch '\n'] := by decide
  rw [registersItems, hargs, formatText_literals,
    formatText_fields hexadecimal_text f (by decide) (numeral_of_hexadecimal (by decide) f),
    formatText_lf, hheading]
  simp only [Option.map_some, registerLines, unlines, List.flatMap_cons, List.flatMap_append,
    List.flatMap_nil, List.append_nil, List.nil_append, List.append_assoc]

/-- The text of a line with a string. -/
theorem formatText_stringLine (heading s : String) :
    formatText (stringLine heading) [str s] =
      some (literalBytes heading ++ (cString (cstr s) ++ [ch '\n'])) := by
  have htext : Directive.text { specifier := .string } [str s] = some (cString (cstr s), []) := by
    show (if 0 ∈ cstr s then some (stringText ⟨{}, 0, 0⟩ (cString (cstr s)), []) else none) = _
    rw [if_pos (zero_mem_cstr s), stringText, Nat.zero_sub, padded_zero]
    rfl
  rw [stringLine, formatText_literals, stringItem, formatText, htext]
  simp only [Option.bind_eq_bind, Option.bind_some, formatText_lf, Option.map_some]

/-! ### What the host is sent -/

/-- A message to the host: the text of the format, NUL excepted. -/
theorem dprintf_text {items : List Item} {va : List Arg} {t : List Byte}
    (ht : formatText items va = some t) :
    ∃ r, dprintf (formatBytes items) va = some (r, callShape .host (t.filter (· ≠ 0))) := by
  have hfuel : items.length < (formatBytes items).length + 1 :=
    Nat.lt_succ_of_le (length_le_formatBytes items)
  have hstate := emit_outChar .host sizeMax t ⟨0, []⟩
  have hprint : ∃ r, printfFor .host (formatBytes items) va =
      some (r, chars .host (t.filter (· ≠ 0))) := by
    rw [printfFor, internalVsnprintf]
    simp only [Bool.false_eq_true, if_false, vsnprintfLoop_eq_emit _ _ ht hfuel,
      Option.bind_eq_bind, Option.bind_some]
    exact ⟨_, congrArg (fun ops => some (_, ops)) hstate⟩
  obtain ⟨r, hr⟩ := hprint
  exact ⟨r, by rw [dprintf, hr]; rfl⟩

/-- The log is running, and prints to the terminal. -/
structure Idle (s : Console) : Prop where
  halted : s.halted = false
  useSerial : s.useSerial = false

theorem execAll_host (text : List Byte) {s : Console} (hhalted : s.halted = false) :
    Idle (s.execAll (callShape .host text)) ∧
      serialBytes (s.execAll (callShape .host text)).trace = serialBytes s.trace ++ toWire text := by
  rw [execAll_callShape_host text hhalted]
  refine ⟨⟨hhalted, rfl⟩, ?_⟩
  exact (serialBytes_append ..).trans (congrArg _ (serialBytes_dputc text))

theorem execAll_kernel (text : List Byte) {s : Console} (h : Idle s) :
    Idle (s.execAll (callShape .kernel text)) ∧
      serialBytes (s.execAll (callShape .kernel text)).trace = serialBytes s.trace := by
  constructor
  · rw [callShape, execAll_chars _ _ h.halted]
    exact ⟨h.halted, h.useSerial⟩
  · have hterminal : (text.map fun c => (⟨.kernel, .terminal s.write, c⟩ : Emission)).filter
        (·.device = .serial) = [] := by
      rw [List.filter_eq_nil_iff]
      intro x hx
      obtain ⟨c, -, rfl⟩ := List.mem_map.mp hx
      exact of_decide_eq_false rfl
    rw [callShape, serialBytes, trace_chars_terminal text h.useSerial h.halted,
      List.filter_append, hterminal, List.append_nil]
    rfl

/-- The messages to the host. -/
def hostText (ms : List (Family × List Byte)) : List Byte :=
  ms.flatMap fun m => if m.1 = .host then m.2 else []

/-- **Messages**: those to the host are sent, one after the other. -/
theorem execAll_messages (ms : List (Family × List Byte)) {s : Console} (h : Idle s) :
    Idle (s.execAll (messages ms)) ∧
      serialBytes (s.execAll (messages ms)).trace = serialBytes s.trace ++ toWire (hostText ms) := by
  induction ms generalizing s with
  | nil => exact ⟨h, (List.append_nil _).symm⟩
  | cons m ms ih =>
    obtain ⟨family, text⟩ := m
    have hcons : messages ((family, text) :: ms) = callShape family text ++ messages ms := rfl
    cases family with
    | kernel =>
      obtain ⟨hidle, hbytes⟩ := execAll_kernel text h
      obtain ⟨hlast, hsent⟩ := ih hidle
      rw [hcons, execAll_append]
      exact ⟨hlast, hsent.trans (by rw [hbytes]; rfl)⟩
    | host =>
      obtain ⟨hidle, hbytes⟩ := execAll_host text h.halted
      obtain ⟨hlast, hsent⟩ := ih hidle
      rw [hcons, execAll_append]
      refine ⟨hlast, hsent.trans ?_⟩
      have htext : hostText ((.host, text) :: ms) = text ++ hostText ms := rfl
      rw [hbytes, htext, toWire_append, List.append_assoc]

/-! ### The steps of a panic -/

/-- "Interrupt description", for exceptions. -/
def descriptionLines (f : InterruptFrame) : List (List Byte) :=
  if isCpuException f.intNo then
    [bytes "Interrupt description: " ++ cString (cstr (exceptionDesc.getD f.intNo.toNat ""))]
  else []

/-- The lines before the cause. -/
def dumpLines (f : InterruptFrame) : List (List Byte) :=
  frameLines f ++ (descriptionLines f ++ registerLines f)

/-- The last line, which tells the cause. -/
def causeText (cause : String) : List Byte :=
  bytes (red ++ "KERNEL PANIC: ") ++ (cString (cstr cause) ++ [ch '\n'])

/-- Neither NUL nor LF. -/
def Inline (l : List Byte) : Prop := 0 ∉ l ∧ ch '\n' ∉ l

instance (l : List Byte) : Decidable (Inline l) := inferInstanceAs (Decidable (_ ∧ _))

theorem Inline.append {l l' : List Byte} (h : Inline l) (h' : Inline l') : Inline (l ++ l') :=
  ⟨fun hmem => (List.mem_append.mp hmem).elim h.1 h'.1,
    fun hmem => (List.mem_append.mp hmem).elim h.2 h'.2⟩

theorem inline_integerText (k : IntegerSpecifier) (s : Spec) (a : Arg) :
    Inline (integerText k.byte s a) := by
  obtain ⟨hpos, hbase⟩ := baseOf_pos_le k
  have hmem : ∀ c ∈ integerText k.byte s a, c ∈ numeralChars := ntoaText_mem hpos hbase _ _ _ _ _
  exact ⟨fun h => zero_notMem_numeralChars (hmem _ h),
    fun h => absurd (hmem _ h) (by decide)⟩

theorem inline_line {x : DumpField} (hx : Inline (bytes x.name)) (f : InterruptFrame) :
    Inline (x.line f) := by
  have hmark : Inline (bytes "\t- ") := by decide
  have hsep : Inline (bytes "= ") := by decide
  have hspaces : ∀ n, Inline (List.replicate n (ch ' ')) := fun n =>
    ⟨fun h => absurd (List.eq_of_mem_replicate h) (by decide),
      fun h => absurd (List.eq_of_mem_replicate h) (by decide)⟩
  have hnumeral : Inline (x.numeral f) := by
    rw [DumpField.numeral]
    split
    · exact inline_integerText .d _ _
    · exact inline_integerText .X _ _
  exact hmark.append (hx.append ((hspaces _).append (hsep.append hnumeral)))

theorem inline_dumpLines (f : InterruptFrame) : ∀ l ∈ dumpLines f, Inline l := by
  have hfields : ∀ fields : List DumpField, (∀ x ∈ fields, Inline (bytes x.name)) →
      ∀ l ∈ fields.map (·.line f), Inline l := by
    intro fields hnames l hl
    obtain ⟨x, hx, rfl⟩ := List.mem_map.mp hl
    exact inline_line (hnames x hx) f
  have hempty : ∀ l ∈ [([] : List Byte)], Inline l := by decide
  have hdescription : ∀ l ∈ descriptionLines f, Inline l := by
    rw [descriptionLines]
    split
    · rename_i hexc
      have hall : ∀ s ∈ exceptionDesc, ch '\n' ∉ cString (cstr s) := by decide
      have hlt : f.intNo.toNat < exceptionDesc.length := isCpuException_iff.mp hexc
      intro l hl
      obtain rfl := List.mem_singleton.mp hl
      have hdesc : Inline (cString (cstr (exceptionDesc.getD f.intNo.toNat ""))) := by
        refine ⟨zero_notMem_cString _, ?_⟩
        rw [List.getD_eq_getElem?_getD, List.getElem?_eq_getElem hlt, Option.getD_some]
        exact hall _ (List.getElem_mem hlt)
      have hheading : Inline (bytes "Interrupt description: ") := by decide
      exact hheading.append hdesc
    · exact fun l hl => absurd hl List.not_mem_nil
  intro l hl
  simp only [dumpLines, frameLines, registerLines, List.cons_append, List.mem_cons,
    List.mem_append] at hl
  rcases hl with rfl | (hl | hl | hl) | hl | rfl | hl | hl
  · decide
  · exact hfields decimalFields (by decide) l hl
  · exact hfields addressFields (by decide) l hl
  · exact hempty l (List.mem_cons.mpr hl)
  · exact hdescription l hl
  · decide
  · exact hfields registerFields (by decide) l hl
  · exact hempty l (List.mem_cons.mpr hl)

/-- Such lines reach the host as they are. -/
theorem filter_unlines {ls : List (List Byte)} (h : ∀ l ∈ ls, Inline l) :
    (unlines (ch '\n') ls).filter (· ≠ 0) = unlines (ch '\n') ls := by
  rw [List.filter_eq_self]
  intro c hc
  rw [decide_eq_true_iff]
  rintro rfl
  obtain ⟨l, hl, hmem⟩ := List.mem_flatMap.mp hc
  rcases List.mem_append.mp hmem with hmem | hmem
  · exact (h l hl).1 hmem
  · exact absurd (List.mem_singleton.mp hmem) (by decide)

theorem filter_cString (p : List Byte) : (cString p).filter (· ≠ 0) = cString p := by
  rw [List.filter_eq_self]
  intro c hc
  rw [decide_eq_true_iff]
  exact fun heq => zero_notMem_cString p (heq ▸ hc)

/-- A line with a string goes to the host as it is. -/
theorem dprintf_stringLine {heading : String} (h : literalBytes heading = bytes heading)
    (s : String) : ∃ r, dprintf (formatBytes (stringLine heading)) [str s] =
      some (r, callShape .host (bytes heading ++ (cString (cstr s) ++ [ch '\n']))) := by
  obtain ⟨r, hr⟩ := dprintf_text (formatText_stringLine heading s)
  refine ⟨r, hr.trans ?_⟩
  rw [List.filter_append, List.filter_append, filter_literalBytes, filter_cString, h]
  rfl

theorem kpanicCause_text (cause : String) : ∃ screen, kpanicCause cause =
    some (messages [(.kernel, screen), (.host, causeText cause)] ++ [.halt]) := by
  obtain ⟨screen, hscreen⟩ :=
    kputs_cstr (red ++ "KERNEL PANIC OCCURED, CHECK LOGS ON HOST MACHINE !")
  have hheading : literalBytes (red ++ "KERNEL PANIC: ") = bytes (red ++ "KERNEL PANIC: ") := by
    decide
  obtain ⟨r, hlast⟩ := dprintf_stringLine hheading cause
  refine ⟨screen, ?_⟩
  rw [kpanicCause, hscreen, causeLine_bytes, hlast]
  simp [messages, callShape, causeText]

theorem kpanicRegisters_text (cause : String) (f : InterruptFrame) :
    ∃ screen, kpanicRegisters cause (some f.gprs) =
      some (messages [(.host, unlines (ch '\n') (registerLines f)), (.kernel, screen),
        (.host, causeText cause)] ++ [.halt]) := by
  obtain ⟨r, hdump⟩ := dprintf_text (registersItems_text f)
  rw [filter_unlines fun l hl => inline_dumpLines f l (by simp [dumpLines, hl])] at hdump
  obtain ⟨screen, hrest⟩ := kpanicCause_text cause
  refine ⟨screen, ?_⟩
  rw [kpanicRegisters, registersItems_bytes, hdump, hrest]
  simp [messages]

theorem describe_text (f : InterruptFrame) : ∃ ms, describe f = some (messages ms) ∧
    hostText ms = unlines (ch '\n') (descriptionLines f) := by
  by_cases hexc : isCpuException f.intNo = true
  · obtain ⟨s, hs⟩ : ∃ s, s = exceptionDesc.getD f.intNo.toNat "" := ⟨_, rfl⟩
    have hheading : literalBytes "Interrupt description: " = bytes "Interrupt description: " := by
      decide
    obtain ⟨r, h⟩ := dprintf_stringLine hheading s
    refine ⟨[(.host, bytes "Interrupt description: " ++ (cString (cstr s) ++ [ch '\n']))], ?_, ?_⟩
    · rw [describe, if_pos hexc, ← hs, descriptionLine_bytes, h]
      simp [messages]
    · rw [descriptionLines, if_pos hexc, ← hs]
      simp [hostText, unlines]
  · refine ⟨[], by rw [describe, if_neg hexc]; rfl, ?_⟩
    rw [descriptionLines, if_neg hexc]
    rfl

/-- **A panic on a frame** sends its dump and the line of the cause. -/
theorem kpanicFrame_text (cause : String) (f : InterruptFrame) :
    ∃ dump ms, kpanicFrame cause (some f) = some (messages ((.host, dump) :: ms) ++ [.halt]) ∧
      dump ++ hostText ms = unlines (ch '\n') (dumpLines f) ++ causeText cause := by
  obtain ⟨r, hdump⟩ := dprintf_text (frameItems_text f)
  rw [filter_unlines fun l hl => inline_dumpLines f l (by simp [dumpLines, hl])] at hdump
  obtain ⟨ms, hdesc, hms⟩ := describe_text f
  obtain ⟨screen, hrest⟩ := kpanicRegisters_text cause f
  refine ⟨unlines (ch '\n') (frameLines f), ms ++ [(.host, unlines (ch '\n') (registerLines f)),
    (.kernel, screen), (.host, causeText cause)], ?_, ?_⟩
  · rw [kpanicFrame, frameItems_bytes, hdump, hdesc, hrest]
    simp [messages]
  · rw [dumpLines, unlines_append, unlines_append, ← hms]
    simp [hostText]

/-! ### Reading a frame back -/

/-- One line of the dump has the label, and its numeral denotes the number. -/
def LineReads (dump : List Byte) (x : DumpField) (n : ℕ) : Prop :=
  ∃ before after gap numeral,
    dump.splitOn (ch '\n') = before ++ fieldEntry x.name gap numeral :: after ∧
    (∀ l ∈ before ++ after, ∀ gap' numeral', l ≠ fieldEntry x.name gap' numeral') ∧
    ReadsAs x.isDecimal numeral n

/-- The contents a panic can dump: `%d` prints 31 bits. -/
structure Printable (f : InterruptFrame) : Prop where
  errCode : f.errCode.toNat < 2 ^ 31
  intNo : f.intNo.toNat < 2 ^ 31

theorem lineLabel_fieldEntry {name : String} (h : ch ' ' ∉ bytes name) (n : ℕ)
    (numeral : List Byte) : lineLabel (fieldEntry name n numeral) = some (bytes name) :=
  labelOf_entry _ _ h n numeral

theorem name_spec : ∀ x ∈ dumpFields, ch ' ' ∉ bytes x.name := by decide

theorem filterMap_lines (f : InterruptFrame) {fields : List DumpField}
    (h : ∀ x ∈ fields, ch ' ' ∉ bytes x.name) :
    (fields.map (·.line f)).filterMap lineLabel = fields.map fun x => bytes x.name := by
  induction fields with
  | nil => rfl
  | cons x fields ih =>
    have hx : lineLabel (x.line f) = some (bytes x.name) :=
      lineLabel_fieldEntry (h x List.mem_cons_self) x.gap (x.numeral f)
    rw [List.map_cons, List.filterMap_cons_some hx,
      ih fun y hy => h y (List.mem_cons_of_mem x hy), List.map_cons]

/-- The labels of a dump are the names of the fields, in their order. -/
theorem lineLabel_dumpLines (f : InterruptFrame) :
    (dumpLines f ++ [[]]).filterMap lineLabel = dumpFields.map fun x => bytes x.name := by
  have hdescription : (descriptionLines f).filterMap lineLabel = [] := by
    rw [descriptionLines]
    split
    · have hnone : ∀ s : List Byte, lineLabel (bytes "Interrupt description: " ++ s) = none := by
        intro s
        have hmark : (bytes "Interrupt description: " ++ s).take (bytes "\t- ").length =
            bytes "Int" := rfl
        rw [lineLabel, labelOf, hmark]
        exact if_neg (by decide)
      rw [List.filterMap_cons_none (hnone _)]
      rfl
    · rfl
  have hempty : [([] : List Byte)].filterMap lineLabel = [] := by decide
  have hframe : lineLabel (bytes "Interrupt Stack Frame:") = none := by decide
  have hregisters : lineLabel (bytes "General Purpose Registers:") = none := by decide
  rw [dumpLines, frameLines, registerLines, List.filterMap_append, List.filterMap_append,
    List.filterMap_append, List.filterMap_cons_none hframe, List.filterMap_cons_none hregisters,
    List.filterMap_append, List.filterMap_append, List.filterMap_append, hdescription, hempty,
    filterMap_lines f (by decide), filterMap_lines f (by decide), filterMap_lines f (by decide)]
  simp [dumpFields]

theorem nodup_names : (dumpFields.map fun x => bytes x.name).Nodup := by decide

theorem line_mem_dumpLines {x : DumpField} (hx : x ∈ dumpFields) (f : InterruptFrame) :
    x.line f ∈ dumpLines f ++ [[]] := by
  have hmem : ∀ {fields : List DumpField}, x ∈ fields → x.line f ∈ fields.map (·.line f) :=
    fun h => List.mem_map_of_mem h
  rw [dumpFields, List.mem_append, List.mem_append] at hx
  simp only [dumpLines, frameLines, registerLines, List.mem_append, List.mem_cons]
  rcases hx with hx | hx | hx
  · exact .inl (.inl (.inr (.inl (hmem hx))))
  · exact .inl (.inl (.inr (.inr (.inl (hmem hx)))))
  · exact .inl (.inr (.inr (.inr (.inl (hmem hx)))))

theorem numeral_readsAs {x : DumpField} (hx : x ∈ dumpFields) {f : InterruptFrame}
    (h : Printable f) : ReadsAs x.isDecimal (x.numeral f) (x.get f).toNat := by
  rw [dumpFields, List.mem_append] at hx
  rcases hx with hx | hx
  · rw [numeral_of_decimal (by decide) f x hx]
    simp only [decimalFields, List.mem_cons, List.not_mem_nil, or_false] at hx
    rcases hx with rfl | rfl
    · exact decimalText_readsAs h.errCode
    · exact decimalText_readsAs h.intNo
  · have hhex : (addressFields ++ registerFields).any (·.isDecimal) = false := by decide
    have hfalse : x.isDecimal = false := by
      by_contra htrue
      exact Bool.false_ne_true (hhex.symm.trans
        (List.any_eq_true.mpr ⟨x, hx, eq_true_of_ne_false htrue⟩))
    rw [numeral_of_hexadecimal hhex f x hx, hfalse]
    exact hexText_readsAs _

/-- **Each field is read back** from its line. -/
theorem lineReads_dump {f : InterruptFrame} (h : Printable f) {x : DumpField}
    (hx : x ∈ dumpFields) : LineReads (unlines (ch '\n') (dumpLines f)) x (x.get f).toNat := by
  have hname := name_spec x hx
  have hinline : ∀ l ∈ dumpLines f, ch '\n' ∉ l := fun l hl => (inline_dumpLines f l hl).2
  have hsplit := splitOn_unlines (ch '\n') hinline
  have hnodup : ((dumpLines f ++ [[]]).filterMap lineLabel).Nodup := by
    rw [lineLabel_dumpLines]
    exact nodup_names
  obtain ⟨before, after, hlines, hothers⟩ := exists_unique_entry _ hnodup
    (line_mem_dumpLines hx f) (lineLabel_fieldEntry hname x.gap (x.numeral f))
  refine ⟨before, after, x.gap, x.numeral f, hsplit.trans hlines, ?_, numeral_readsAs hx h⟩
  rintro l hl gap numeral rfl
  exact hothers _ hl (lineLabel_fieldEntry hname gap numeral)

/-- A line that reads as two numbers reads as one. -/
theorem LineReads.unique {dump : List Byte} {x : DumpField} {m n : ℕ} (hm : LineReads dump x m)
    (hn : LineReads dump x n) : m = n := by
  obtain ⟨before, after, gap, numeral, hlines, hothers, hreads⟩ := hm
  obtain ⟨before', after', gap', numeral', hlines', -, hreads'⟩ := hn
  have hmem : fieldEntry x.name gap' numeral' ∈ before ++ fieldEntry x.name gap numeral :: after := by
    rw [← hlines, hlines']
    exact List.mem_append_right _ List.mem_cons_self
  have hsame : fieldEntry x.name gap' numeral' = fieldEntry x.name gap numeral := by
    rcases List.mem_append.mp hmem with hmem | hmem
    · exact absurd rfl (hothers _ (List.mem_append_left _ hmem) gap' numeral')
    rcases List.mem_cons.mp hmem with heq | hmem
    · exact heq
    · exact absurd rfl (hothers _ (List.mem_append_right _ hmem) gap' numeral')
  rw [entry_inj _ _ (by decide) (by decide) hsame] at hreads'
  exact hreads.unique hreads'

/-- The fields make up the frame. -/
theorem frame_ext {f g : InterruptFrame} (h : ∀ x ∈ dumpFields, x.get f = x.get g) : f = g := by
  obtain ⟨⟨_, _, _, _, _, _, _, _, _, _, _, _, _, _, _⟩, _, _, _, _, _, _, _⟩ := f
  obtain ⟨⟨_, _, _, _, _, _, _, _, _, _, _, _, _, _, _⟩, _, _, _, _, _, _, _⟩ := g
  simp [dumpFields, decimalFields, addressFields, registerFields] at h
  simp [h]

theorem kpanicFrame_sends (cause : String) (f : InterruptFrame) {s : Console}
    (hs : s.halted = false) : ∃ ops, kpanicFrame cause (some f) = some ops ∧
      serialBytes (s.execAll ops).trace =
        serialBytes s.trace ++ toWire (unlines (ch '\n') (dumpLines f) ++ causeText cause) := by
  obtain ⟨dump, ms, hops, htext⟩ := kpanicFrame_text cause f
  obtain ⟨hidle, hdump⟩ := execAll_host dump hs
  obtain ⟨hlast, hrest⟩ := execAll_messages ms hidle
  refine ⟨_, hops, ?_⟩
  have hcons : messages ((.host, dump) :: ms) = callShape .host dump ++ messages ms := rfl
  have hhalt : ∀ s : Console, s.halted = false →
      serialBytes (s.execAll [.halt]).trace = serialBytes s.trace := by
    intro s hs
    rw [execAll_cons _ _ hs]
    rfl
  rw [hcons, execAll_append, execAll_append, hhalt _ hlast.halted, hrest, hdump, ← htext,
    toWire_append, List.append_assoc]

/-- What a panic leaves on the serial line. -/
def panicBytes (s : Console) (cause : String) (f : InterruptFrame) : Option (List Byte) :=
  (kpanicFrame cause (some f)).map fun ops => serialBytes (s.execAll ops).trace

/-- **The panic dump is read back**: the text before the line of the cause has one line for each
field, with the field's value; so frames that differ are told apart. -/
theorem panic_dump_read_back (cause : String) {s : Console} (hs : s.halted = false)
    {f g : InterruptFrame} (hf : Printable f) (hg : Printable g) :
    (∃ ops dump, kpanicFrame cause (some f) = some ops ∧
      serialBytes (s.execAll ops).trace = serialBytes s.trace ++ toWire (dump ++ causeText cause) ∧
      ∀ x ∈ dumpFields, LineReads dump x (x.get f).toNat) ∧
    (f ≠ g → panicBytes s cause f ≠ panicBytes s cause g) := by
  obtain ⟨ops, hops, hsent⟩ := kpanicFrame_sends cause f hs
  obtain ⟨ops', hops', hsent'⟩ := kpanicFrame_sends cause g hs
  refine ⟨⟨ops, _, hops, hsent, fun x hx => lineReads_dump hf hx⟩, ?_⟩
  intro hne hsame
  rw [panicBytes, panicBytes, hops, hops', Option.map_some, Option.map_some, hsent, hsent']
    at hsame
  have htext := expand_injective (show ch '\r' ≠ ch '\n' by decide)
    (List.append_cancel_left (Option.some.inj hsame))
  have hdump := List.append_cancel_right htext
  refine hne (frame_ext fun x hx => BitVec.eq_of_toNat_eq ?_)
  have hreads := lineReads_dump hf hx
  rw [hdump] at hreads
  exact hreads.unique (lineReads_dump hg hx)

/-- Two frames that differ in `rip`. -/
theorem panic_dump_read_back_rip :
    (∃ ops dump, kpanicFrame "Page Fault" (some (InterruptFrame.load (fun _ => 0) 0)) = some ops ∧
      serialBytes (Console.execAll ⟨0, false, false, []⟩ ops).trace =
        serialBytes [] ++ toWire (dump ++ causeText "Page Fault") ∧
      ∀ x ∈ dumpFields,
        LineReads dump x (x.get (InterruptFrame.load (fun _ => 0) 0)).toNat) ∧
    (InterruptFrame.load (fun _ => 0) 0 ≠ { InterruptFrame.load (fun _ => 0) 0 with rip := 5 } →
      panicBytes ⟨0, false, false, []⟩ "Page Fault" (InterruptFrame.load (fun _ => 0) 0) ≠
        panicBytes ⟨0, false, false, []⟩ "Page Fault"
          { InterruptFrame.load (fun _ => 0) 0 with rip := 5 }) :=
  panic_dump_read_back "Page Fault" rfl ⟨by decide, by decide⟩ ⟨by decide, by decide⟩

end MegaOS.Interrupts
