import MegaOS.Log.Conversion

/-!
# Format strings and what they denote

A format string made of literal characters and complete directives, as a syntax
tree; the bytes it is written with; and the text it denotes for a list of
arguments. The main result says that the formatter, given those bytes, sends
exactly that text to its sink and stops at the terminating NUL.

A width is written without leading zeros: a `0` in front of it is a flag.
-/

namespace MegaOS.Log

open MegaOS.Memory MegaOS.Emission

/-! ### Syntax -/

inductive FlagChar
  | zero | minus | plus | space | hash

inductive Width
  | none
  | number (first : Fin 9) (digits : List (Fin 10))
  | star

/-- With no digits, the precision is a lone dot. -/
inductive Precision
  | none
  | number (digits : List (Fin 10))
  | star

inductive Length
  | none | h | hh | l | ll | j | z | t

inductive IntegerSpecifier
  | d | i | u | x | X | o | b

/-- `c`, `s`, `p`, `%` or one of the integer conversions. -/
inductive Specifier
  | integer (k : IntegerSpecifier)
  | character
  | string
  | pointer
  | percent

structure Directive where
  flags : List FlagChar := []
  width : Width := .none
  precision : Precision := .none
  length : Length := .none
  specifier : Specifier

/-- A character of the format that is output as it is. -/
abbrev Literal := { c : Byte // c ≠ 0 ∧ c ≠ ch '%' }

inductive Item
  | literal (c : Literal)
  | directive (d : Directive)

/-! ### Bytes -/

def digitByte (d : Fin 10) : Byte := BitVec.ofNat 8 (48 + d.val)

def FlagChar.byte : FlagChar → Byte
  | .zero => ch '0'
  | .minus => ch '-'
  | .plus => ch '+'
  | .space => ch ' '
  | .hash => ch '#'

def Width.bytes : Width → List Byte
  | .none => []
  | .number first digits => (first.succ :: digits).map digitByte
  | .star => [ch '*']

def Precision.bytes : Precision → List Byte
  | .none => []
  | .number digits => ch '.' :: digits.map digitByte
  | .star => [ch '.', ch '*']

def Length.bytes : Length → List Byte
  | .none => []
  | .h => [ch 'h']
  | .hh => [ch 'h', ch 'h']
  | .l => [ch 'l']
  | .ll => [ch 'l', ch 'l']
  | .j => [ch 'j']
  | .z => [ch 'z']
  | .t => [ch 't']

def IntegerSpecifier.byte : IntegerSpecifier → Byte
  | .d => ch 'd'
  | .i => ch 'i'
  | .u => ch 'u'
  | .x => ch 'x'
  | .X => ch 'X'
  | .o => ch 'o'
  | .b => ch 'b'

def Specifier.byte : Specifier → Byte
  | .integer k => k.byte
  | .character => ch 'c'
  | .string => ch 's'
  | .pointer => ch 'p'
  | .percent => ch '%'

/-- The directive after its `%`, with the specifier in front of `rest`. -/
def Directive.bytesBefore (d : Directive) (rest : List Byte) : List Byte :=
  d.flags.map FlagChar.byte ++
    (d.width.bytes ++ (d.precision.bytes ++ (d.length.bytes ++ d.specifier.byte :: rest)))

/-- The format string, its NUL included. -/
def formatBytes : List Item → List Byte
  | [] => [0]
  | .literal c :: items => c.val :: formatBytes items
  | .directive d :: items => ch '%' :: d.bytesBefore (formatBytes items)

theorem length_le_formatBytes (items : List Item) :
    items.length ≤ (formatBytes items).length := by
  induction items with
  | nil => exact Nat.zero_le _
  | cons item items ih =>
    cases item with
    | literal c =>
      rw [formatBytes, List.length_cons, List.length_cons]
      omega
    | directive d =>
      rw [formatBytes, Directive.bytesBefore]
      simp only [List.length_cons, List.length_append]
      omega

/-! ### Arguments -/

/-- What an argument has to be: any word, or a string. -/
inductive Kind
  | word | string
  deriving DecidableEq

def Kind.Fits : Kind → Arg → Prop
  | .word, _ => True
  | .string, a => 0 ∈ a.bytes

/-- There are enough arguments, and strings are NUL-terminated. -/
def Fits : List Kind → List Arg → Prop
  | [], _ => True
  | _ :: _, [] => False
  | k :: kinds, a :: va => k.Fits a ∧ Fits kinds va

def Width.kinds : Width → List Kind
  | .star => [.word]
  | _ => []

def Precision.kinds : Precision → List Kind
  | .star => [.word]
  | _ => []

def Specifier.kinds : Specifier → List Kind
  | .percent => []
  | .string => [.string]
  | _ => [.word]

def Directive.kinds (d : Directive) : List Kind :=
  d.width.kinds ++ (d.precision.kinds ++ d.specifier.kinds)

def Item.kinds : Item → List Kind
  | .literal _ => []
  | .directive d => d.kinds

/-- The arguments match the format. -/
def Matches (items : List Item) (va : List Arg) : Prop := Fits (items.flatMap Item.kinds) va

/-! ### Meaning -/

def FlagChar.set (flags : Flags) : FlagChar → Flags
  | .zero => { flags with zeropad := true }
  | .minus => { flags with left := true }
  | .plus => { flags with plus := true }
  | .space => { flags with space := true }
  | .hash => { flags with hash := true }

/-- The number the digits denote, in unsigned 32-bit arithmetic. -/
def digitsValue (i : ℕ) (digits : List (Fin 10)) : ℕ :=
  digits.foldl (fun i d => (i * 10 + d.val) % 2 ^ 32) i

/-- A negative width argument asks for padding on the right. -/
def Width.resolve (flags : Flags) : Width → List Arg → Option (Flags × ℕ × List Arg)
  | .none, va => some (flags, 0, va)
  | .number first digits, va => some (flags, digitsValue 0 (first.succ :: digits), va)
  | .star, [] => Option.none
  | .star, a :: va =>
    if a.int.slt 0 then some ({ flags with left := true }, (-a.int).toNat, va)
    else some (flags, a.int.toNat, va)

def Precision.resolve (flags : Flags) : Precision → List Arg → Option (Flags × ℕ × List Arg)
  | .none, va => some (flags, 0, va)
  | .number digits, va => some ({ flags with precision := true }, digitsValue 0 digits, va)
  | .star, [] => Option.none
  | .star, a :: va =>
    some ({ flags with precision := true }, if (0#32).slt a.int then a.int.toNat else 0, va)

def Length.set (flags : Flags) : Length → Flags
  | .none => flags
  | .h => { flags with short := true }
  | .hh => { flags with short := true, char := true }
  | .ll => { flags with long := true, longLong := true }
  | .l | .j | .z | .t => { flags with long := true }

/-- The locals after the directive has been read. -/
def Directive.resolve (d : Directive) (va : List Arg) : Option (Spec × List Arg) := do
  let (flags, width, va) ← d.width.resolve (d.flags.foldl FlagChar.set {}) va
  let (flags, precision, va) ← d.precision.resolve flags va
  some (⟨d.length.set flags, width, precision⟩, va)

def Specifier.text (s : Spec) : Specifier → List Arg → Option (List Byte × List Arg)
  | .percent, va => some ([ch '%'], va)
  | _, [] => none
  | .integer k, a :: va => some (integerText k.byte s a, va)
  | .character, a :: va => some (characterText s a, va)
  | .string, a :: va => if 0 ∈ a.bytes then some (stringText s (cString a.bytes), va) else none
  | .pointer, a :: va => some (pointerText s a, va)

def Directive.text (d : Directive) (va : List Arg) : Option (List Byte × List Arg) := do
  let (s, va) ← d.resolve va
  d.specifier.text s va

/-- **The text of a format** for its arguments. -/
def formatText : List Item → List Arg → Option (List Byte)
  | [], _ => some []
  | .literal c :: items, va => (formatText items va).map (c.val :: ·)
  | .directive d :: items, va => do
    let (text, va) ← d.text va
    (formatText items va).map (text ++ ·)

/-! ### Matching arguments give a text -/

theorem Fits.cons {k : Kind} {kinds : List Kind} {va : List Arg} (h : Fits (k :: kinds) va) :
    ∃ a va', va = a :: va' ∧ k.Fits a ∧ Fits kinds va' := by
  cases va with
  | nil => exact h.elim
  | cons a va' => exact ⟨a, va', rfl, h.1, h.2⟩

/-- Any arguments are words. -/
theorem fits_words {n : ℕ} {va : List Arg} (h : n ≤ va.length) :
    Fits (List.replicate n .word) va := by
  induction n generalizing va with
  | zero => exact trivial
  | succ n ih =>
    cases va with
    | nil => exact absurd h (Nat.not_succ_le_zero n)
    | cons a va => exact ⟨trivial, ih (Nat.le_of_succ_le_succ h)⟩

theorem Width.resolve_of_fits (w : Width) (flags : Flags) {kinds : List Kind} {va : List Arg}
    (h : Fits (w.kinds ++ kinds) va) :
    ∃ flags' width va', w.resolve flags va = some (flags', width, va') ∧ Fits kinds va' := by
  cases w with
  | none => exact ⟨_, _, va, rfl, h⟩
  | number first digits => exact ⟨_, _, va, rfl, h⟩
  | star =>
    obtain ⟨a, va', rfl, -, hrest⟩ := Fits.cons h
    by_cases hneg : a.int.slt 0 = true
    · exact ⟨_, _, va', if_pos hneg, hrest⟩
    · exact ⟨_, _, va', if_neg hneg, hrest⟩

theorem Precision.resolve_of_fits (p : Precision) (flags : Flags) {kinds : List Kind}
    {va : List Arg} (h : Fits (p.kinds ++ kinds) va) :
    ∃ flags' prec va', p.resolve flags va = some (flags', prec, va') ∧ Fits kinds va' := by
  cases p with
  | none => exact ⟨_, _, va, rfl, h⟩
  | number digits => exact ⟨_, _, va, rfl, h⟩
  | star =>
    obtain ⟨a, va', rfl, -, hrest⟩ := Fits.cons h
    exact ⟨_, _, va', rfl, hrest⟩

theorem Specifier.text_of_fits (sp : Specifier) (s : Spec) {kinds : List Kind} {va : List Arg}
    (h : Fits (sp.kinds ++ kinds) va) :
    ∃ text va', sp.text s va = some (text, va') ∧ Fits kinds va' := by
  cases sp with
  | percent => exact ⟨_, va, rfl, h⟩
  | string =>
    obtain ⟨a, va', rfl, hstr, hrest⟩ := Fits.cons h
    exact ⟨_, va', if_pos hstr, hrest⟩
  | _ =>
    obtain ⟨a, va', rfl, -, hrest⟩ := Fits.cons h
    exact ⟨_, va', rfl, hrest⟩

theorem Directive.text_of_fits (d : Directive) {kinds : List Kind} {va : List Arg}
    (h : Fits (d.kinds ++ kinds) va) :
    ∃ text va', d.text va = some (text, va') ∧ Fits kinds va' := by
  rw [Directive.kinds, List.append_assoc, List.append_assoc] at h
  obtain ⟨flags₁, width, va₁, hw, h₁⟩ :=
    d.width.resolve_of_fits (d.flags.foldl FlagChar.set {}) h
  obtain ⟨flags₂, prec, va₂, hp, h₂⟩ := d.precision.resolve_of_fits flags₁ h₁
  obtain ⟨text, va₃, ht, h₃⟩ :=
    d.specifier.text_of_fits ⟨d.length.set flags₂, width, prec⟩ h₂
  refine ⟨text, va₃, ?_, h₃⟩
  simp only [Directive.text, Directive.resolve, hw, hp, Option.bind_eq_bind, Option.bind_some, ht]

theorem formatText_of_matches {items : List Item} {va : List Arg} (h : Matches items va) :
    ∃ t, formatText items va = some t := by
  induction items generalizing va with
  | nil => exact ⟨[], rfl⟩
  | cons item items ih =>
    cases item with
    | literal c =>
      have hrest : Matches items va := h
      obtain ⟨t, ht⟩ := ih hrest
      exact ⟨c.val :: t, by rw [formatText, ht]; rfl⟩
    | directive d =>
      obtain ⟨text, va', htext, hrest⟩ := d.text_of_fits h
      obtain ⟨t, ht⟩ := ih hrest
      refine ⟨text ++ t, ?_⟩
      simp only [formatText, htext, Option.bind_eq_bind, Option.bind_some, ht, Option.map_some]

/-! ### What the parser keeps -/

/-- The width that is kept. -/
def Width.kept : Width → List Arg → ℕ
  | .none, _ => 0
  | .number first digits, _ => digitsValue 0 (first.succ :: digits)
  | .star, [] => 0
  | .star, a :: _ => if a.int.slt 0 then (-a.int).toNat else a.int.toNat

/-- The sign of a width that is passed stands for the `-` flag. -/
def Width.negative : Width → List Arg → Bool
  | .star, a :: _ => a.int.slt 0
  | _, _ => false

/-- The precision that is kept. -/
def Precision.kept : Precision → List Arg → ℕ
  | .none, _ => 0
  | .number digits, _ => digitsValue 0 digits
  | .star, [] => 0
  | .star, a :: _ => if (0#32).slt a.int then a.int.toNat else 0

def Precision.set (flags : Flags) : Precision → Flags
  | .none => flags
  | _ => { flags with precision := true }

theorem Width.resolve_spec {w : Width} {flags flags' : Flags} {width : ℕ} {va va' : List Arg}
    (h : w.resolve flags va = some (flags', width, va')) :
    va' = va.drop w.kinds.length ∧ width = w.kept va ∧
      flags' = if w.negative va then { flags with left := true } else flags := by
  cases w with
  | star =>
    cases va with
    | nil => exact absurd h.symm (Option.some_ne_none _)
    | cons a va =>
      rw [Width.resolve] at h
      by_cases hneg : a.int.slt 0 = true
      · rw [if_pos hneg] at h
        obtain ⟨rfl, hrest⟩ := Prod.mk.inj (Option.some.inj h)
        obtain ⟨rfl, rfl⟩ := Prod.mk.inj hrest
        exact ⟨rfl, (if_pos hneg).symm, (if_pos hneg).symm⟩
      · rw [if_neg hneg] at h
        obtain ⟨rfl, hrest⟩ := Prod.mk.inj (Option.some.inj h)
        obtain ⟨rfl, rfl⟩ := Prod.mk.inj hrest
        exact ⟨rfl, (if_neg hneg).symm, (if_neg hneg).symm⟩
  | _ =>
    obtain ⟨rfl, hrest⟩ := Prod.mk.inj (Option.some.inj h)
    obtain ⟨rfl, rfl⟩ := Prod.mk.inj hrest
    exact ⟨rfl, rfl, rfl⟩

theorem Precision.resolve_spec {p : Precision} {flags flags' : Flags} {prec : ℕ}
    {va va' : List Arg} (h : p.resolve flags va = some (flags', prec, va')) :
    va' = va.drop p.kinds.length ∧ prec = p.kept va ∧ flags' = p.set flags := by
  cases p with
  | star =>
    cases va with
    | nil => exact absurd h.symm (Option.some_ne_none _)
    | cons a va =>
      obtain ⟨hflags, hrest⟩ := Prod.mk.inj (Option.some.inj h)
      obtain ⟨hprec, rfl⟩ := Prod.mk.inj hrest
      exact ⟨rfl, hprec.symm, hflags.symm⟩
  | _ =>
    obtain ⟨hflags, hrest⟩ := Prod.mk.inj (Option.some.inj h)
    obtain ⟨hprec, rfl⟩ := Prod.mk.inj hrest
    exact ⟨rfl, hprec.symm, hflags.symm⟩

/-- **A directive** keeps its width and precision, and takes the arguments of its stars. -/
theorem Directive.resolve_spec {d : Directive} {va va' : List Arg} {s : Spec}
    (h : d.resolve va = some (s, va')) : ∃ flags va₁,
      d.width.resolve (d.flags.foldl FlagChar.set {}) va = some (flags, s.width, va₁) ∧
      d.precision.resolve flags va₁ = some (d.precision.set flags, s.precision, va') ∧
      s.flags = d.length.set (d.precision.set flags) := by
  simp only [Directive.resolve, Option.bind_eq_bind, Option.bind_eq_some_iff] at h
  obtain ⟨⟨flags₁, width, va₁⟩, hw, ⟨flags₂, prec, va₂⟩, hp, h⟩ := h
  obtain ⟨rfl, rfl⟩ := Prod.mk.inj (Option.some.inj h)
  have hflags := (Precision.resolve_spec hp).2.2
  exact ⟨flags₁, va₁, hw, hflags ▸ hp, congrArg d.length.set hflags⟩

/-- Numbers are read modulo `2^32`. -/
theorem digitsValue_eq_mod (i : ℕ) (digits : List (Fin 10)) :
    digitsValue (i % 2 ^ 32) digits = digits.foldl (fun i d => i * 10 + d.val) i % 2 ^ 32 := by
  induction digits generalizing i with
  | nil => rfl
  | cons d digits ih =>
    have hstep : (i % 2 ^ 32 * 10 + d.val) % 2 ^ 32 = (i * 10 + d.val) % 2 ^ 32 := by omega
    show digitsValue ((i % 2 ^ 32 * 10 + d.val) % 2 ^ 32) digits = _
    rw [hstep, ih]
    rfl

theorem digitsValue_lt (digits : List (Fin 10)) : digitsValue 0 digits < 2 ^ 32 := by
  have hmod : digitsValue 0 digits = _ := digitsValue_eq_mod 0 digits
  rw [hmod]
  exact Nat.mod_lt _ (by decide)

theorem Width.kept_lt (w : Width) (va : List Arg) : w.kept va < 2 ^ 32 := by
  cases w with
  | none => exact Nat.pow_pos (by decide)
  | number first digits => exact digitsValue_lt _
  | star =>
    cases va with
    | nil => decide
    | cons a va =>
      rw [Width.kept]
      split
      · exact BitVec.isLt _
      · exact BitVec.isLt _

theorem Precision.kept_lt (p : Precision) (va : List Arg) : p.kept va < 2 ^ 32 := by
  cases p with
  | none => exact Nat.pow_pos (by decide)
  | number digits => exact digitsValue_lt _
  | star =>
    cases va with
    | nil => decide
    | cons a va =>
      rw [Precision.kept]
      split
      · exact BitVec.isLt _
      · decide

/-! ### Reading a directive back -/

/-- The first of the bytes is none of `cs`. -/
def StartsOutside (cs : List Byte) (l : List Byte) : Prop := ∃ c rest, l = c :: rest ∧ c ∉ cs

def flagChars : List Byte := [ch '0', ch '-', ch '+', ch ' ', ch '#']

def widthChars : List Byte := ch '*' :: (List.finRange 10).map digitByte

def lengthChars : List Byte := [ch 'l', ch 'h', ch 't', ch 'j', ch 'z']

theorem StartsOutside.mono {cs cs' l : List Byte} (h : StartsOutside cs l) (hsub : cs' ⊆ cs) :
    StartsOutside cs' l := by
  obtain ⟨c, rest, hl, hc⟩ := h
  exact ⟨c, rest, hl, fun hmem => hc (hsub hmem)⟩

theorem Specifier.startsOutside (sp : Specifier) (rest : List Byte) :
    StartsOutside (flagChars ++ widthChars ++ ch '.' :: lengthChars) (sp.byte :: rest) := by
  refine ⟨sp.byte, rest, rfl, ?_⟩
  cases sp with
  | integer k => cases k <;> decide
  | _ => decide

theorem Length.startsOutside (len : Length) {rest : List Byte}
    (h : StartsOutside (flagChars ++ widthChars ++ ch '.' :: lengthChars) rest) :
    StartsOutside (flagChars ++ widthChars ++ [ch '.']) (len.bytes ++ rest) := by
  cases len with
  | none => exact h.mono (by decide)
  | _ => exact ⟨_, _, rfl, by decide⟩

theorem Precision.startsOutside (p : Precision) {rest : List Byte}
    (h : StartsOutside (flagChars ++ widthChars ++ [ch '.']) rest) :
    StartsOutside (flagChars ++ widthChars) (p.bytes ++ rest) := by
  cases p with
  | none => exact h.mono (by decide)
  | _ => exact ⟨_, _, rfl, by decide⟩

theorem digitByte_succ_not_flag : ∀ first : Fin 9, digitByte first.succ ∉ flagChars := by decide

theorem Width.startsOutside (w : Width) {rest : List Byte}
    (h : StartsOutside (flagChars ++ widthChars) rest) :
    StartsOutside flagChars (w.bytes ++ rest) := by
  cases w with
  | none => exact h.mono (by decide)
  | number first digits => exact ⟨_, _, rfl, digitByte_succ_not_flag first⟩
  | star => exact ⟨_, _, rfl, by decide⟩

theorem scanFlags_bytes (fs : List FlagChar) (flags : Flags) {rest : List Byte}
    (h : StartsOutside flagChars rest) :
    scanFlags (fs.map FlagChar.byte ++ rest) flags = some (fs.foldl FlagChar.set flags, rest) := by
  induction fs generalizing flags with
  | nil =>
    obtain ⟨c, rest', rfl, hc⟩ := h
    simp only [flagChars, List.mem_cons, List.not_mem_nil, or_false, not_or] at hc
    obtain ⟨h0, h1, h2, h3, h4⟩ := hc
    show scanFlags (c :: rest') flags = _
    rw [scanFlags, if_neg h0, if_neg h1, if_neg h2, if_neg h3, if_neg h4]
    rfl
  | cons f fs ih =>
    have hstep : scanFlags (f.byte :: (fs.map FlagChar.byte ++ rest)) flags =
        scanFlags (fs.map FlagChar.byte ++ rest) (f.set flags) := by
      cases f <;> rfl
    rw [List.map_cons, List.cons_append, hstep, ih]
    rfl

theorem isDigit_digitByte : ∀ d, isDigit (digitByte d) = true := by decide

theorem digitByte_value : ∀ d, (digitByte d).toNat - (ch '0').toNat = d.val := by decide

theorem isDigit_of_mem : ∀ c : Byte, isDigit c = true → c ∈ widthChars := by decide

theorem atoi_bytes (digits : List (Fin 10)) (i : ℕ) {rest : List Byte}
    (h : StartsOutside widthChars rest) :
    atoi (digits.map digitByte ++ rest) i = some (digitsValue i digits, rest) := by
  induction digits generalizing i with
  | nil =>
    obtain ⟨c, rest', rfl, hc⟩ := h
    show atoi (c :: rest') i = _
    rw [atoi, if_neg (fun hd => hc (isDigit_of_mem c hd))]
    rfl
  | cons d digits ih =>
    rw [List.map_cons, List.cons_append, atoi, if_pos (isDigit_digitByte d), digitByte_value, ih]
    rfl

theorem scanWidth_bytes (w : Width) (flags : Flags) (va : List Arg) {rest : List Byte}
    (h : StartsOutside widthChars rest) :
    scanWidth flags (w.bytes ++ rest) va =
      (w.resolve flags va).map fun (flags, width, va) => (flags, width, rest, va) := by
  cases w with
  | none =>
    obtain ⟨c, rest', rfl, hc⟩ := h
    show (if isDigit c then _ else if c = ch '*' then _ else _) = _
    rw [if_neg (fun hd => hc (isDigit_of_mem c hd)),
      if_neg (fun hstar => hc (by rw [hstar]; decide))]
    rfl
  | number first digits =>
    have hatoi := atoi_bytes (first.succ :: digits) 0 h
    rw [List.map_cons, List.cons_append] at hatoi
    show (if isDigit (digitByte first.succ) then _ else _) = _
    rw [if_pos (isDigit_digitByte _)]
    show Option.bind (atoi (digitByte first.succ :: (digits.map digitByte ++ rest)) 0) _ = _
    rw [hatoi]
    rfl
  | star =>
    cases va with
    | nil => rfl
    | cons a va =>
      show (if a.int.slt 0 then _ else _) = Option.map _ (if a.int.slt 0 then _ else _)
      rw [apply_ite (Option.map _)]
      rfl

theorem scanPrecision_bytes (p : Precision) (flags : Flags) (va : List Arg) {rest : List Byte}
    (h : StartsOutside (widthChars ++ [ch '.']) rest) :
    scanPrecision flags (p.bytes ++ rest) va =
      (p.resolve flags va).map fun (flags, prec, va) => (flags, prec, rest, va) := by
  have hwidth : StartsOutside widthChars rest := h.mono (by decide)
  cases p with
  | none =>
    obtain ⟨c, rest', rfl, hc⟩ := h
    show scanPrecision flags (c :: rest') va = _
    rw [scanPrecision, if_neg (fun hdot => hc (by rw [hdot]; decide))]
    rfl
  | number digits =>
    cases digits with
    | nil =>
      obtain ⟨c, rest', rfl, hc⟩ := hwidth
      show scanPrecision flags (ch '.' :: c :: rest') va = _
      rw [scanPrecision, if_pos rfl]
      simp only
      rw [if_neg (fun hd => hc (isDigit_of_mem c hd)),
        if_neg (fun hstar => hc (by rw [hstar]; decide))]
      rfl
    | cons d digits =>
      have hatoi := atoi_bytes (d :: digits) 0 hwidth
      rw [List.map_cons, List.cons_append] at hatoi
      show scanPrecision flags (ch '.' :: digitByte d :: (digits.map digitByte ++ rest)) va = _
      rw [scanPrecision, if_pos rfl]
      simp only
      rw [if_pos (isDigit_digitByte _), hatoi]
      rfl
  | star => cases va <;> rfl

theorem scanLength_bytes (len : Length) (flags : Flags) {rest : List Byte}
    (h : StartsOutside lengthChars rest) :
    scanLength flags (len.bytes ++ rest) = some (len.set flags, rest) := by
  obtain ⟨c, rest', rfl, hc⟩ := h
  simp only [lengthChars, List.mem_cons, List.not_mem_nil, or_false, not_or] at hc
  obtain ⟨hl, hh, ht, hj, hz⟩ := hc
  cases len with
  | none =>
    show scanLength flags (c :: rest') = _
    rw [scanLength, if_neg hl, if_neg hh, if_neg ht, if_neg hj, if_neg hz]
    rfl
  | h =>
    show (if c = ch 'h' then _ else _) = _
    rw [if_neg hh]
    rfl
  | l =>
    show (if c = ch 'l' then _ else _) = _
    rw [if_neg hl]
    rfl
  | _ => rfl

/-- **Directives are read back** as they were written. -/
theorem scanDirective_bytes (d : Directive) (rest : List Byte) (va : List Arg) :
    scanDirective (d.bytesBefore rest) va =
      (d.resolve va).map fun (s, va) => (s, d.specifier.byte :: rest, va) := by
  have h₁ := d.specifier.startsOutside rest
  have h₂ := d.length.startsOutside h₁
  have h₃ := d.precision.startsOutside h₂
  have h₄ := d.width.startsOutside h₃
  rw [scanDirective, Directive.bytesBefore, scanFlags_bytes _ _ h₄]
  simp only [Option.bind_eq_bind, Option.bind_some]
  rw [scanWidth_bytes _ _ _ (h₃.mono (by decide)), Directive.resolve]
  cases d.width.resolve (d.flags.foldl FlagChar.set {}) va with
  | none => rfl
  | some r =>
    obtain ⟨flags, width, va⟩ := r
    simp only [Option.map_some, Option.bind_eq_bind, Option.bind_some]
    rw [scanPrecision_bytes _ _ _ (h₂.mono (by decide))]
    cases d.precision.resolve flags va with
    | none => rfl
    | some r =>
      obtain ⟨flags, prec, va⟩ := r
      simp only [Option.map_some, Option.bind_some]
      rw [scanLength_bytes _ _ (h₁.mono (by decide))]
      rfl

theorem Directive.scan_of_resolve {d : Directive} {va va' : List Arg} {s : Spec}
    (hres : d.resolve va = some (s, va')) (rest : List Byte) :
    scanDirective (d.bytesBefore rest) va = some (s, d.specifier.byte :: rest, va') := by
  rw [scanDirective_bytes, hres]
  rfl

/-! ### The formatter outputs the text -/

section Emit

variable {σ : Type} (out : OutFct σ) (maxlen : ℕ)

theorem outSpecifier_eq_emit {sp : Specifier} {s : Spec} {va va' : List Arg} {text : List Byte}
    (h : sp.text s va = some (text, va')) (o : Cursor σ) :
    outSpecifier out maxlen sp.byte s va o = some (va', emit out maxlen text o) := by
  cases sp with
  | percent =>
    obtain ⟨rfl, rfl⟩ := Prod.mk.inj (Option.some.inj h)
    rfl
  | integer k =>
    cases va with
    | nil => exact absurd h nofun
    | cons a va =>
      obtain ⟨rfl, rfl⟩ := Prod.mk.inj (Option.some.inj h)
      have hk : isInteger k.byte = true := by cases k <;> rfl
      show (if isInteger k.byte then (outInteger out maxlen k.byte s a o).map _ else _) = _
      rw [if_pos hk, outInteger_eq_emit, Option.map_some]
  | character =>
    cases va with
    | nil => exact absurd h nofun
    | cons a va =>
      obtain ⟨rfl, rfl⟩ := Prod.mk.inj (Option.some.inj h)
      rw [← outCharacter_eq_emit]
      rfl
  | string =>
    cases va with
    | nil => exact absurd h nofun
    | cons a va =>
      rw [Specifier.text] at h
      by_cases hstr : 0 ∈ a.bytes
      · rw [if_pos hstr] at h
        obtain ⟨rfl, rfl⟩ := Prod.mk.inj (Option.some.inj h)
        show (outString out maxlen s a o).map _ = _
        rw [outString_eq_emit out maxlen s hstr, Option.map_some]
      · rw [if_neg hstr] at h
        exact absurd h nofun
  | pointer =>
    cases va with
    | nil => exact absurd h nofun
    | cons a va =>
      obtain ⟨rfl, rfl⟩ := Prod.mk.inj (Option.some.inj h)
      show (outPointer out maxlen s a o).map _ = _
      rw [outPointer_eq_emit, Option.map_some]

/-- **The loop** on complete directives and matching arguments sends the text of the format to the
sink and stops at the NUL. Each round consumes an item at least. -/
theorem vsnprintfLoop_eq_emit {items : List Item} {va : List Arg} {t : List Byte} {fuel : ℕ}
    (h : formatText items va = some t) (hfuel : items.length < fuel) (o : Cursor σ) :
    vsnprintfLoop out maxlen fuel (formatBytes items) va o =
      some ([0], emit out maxlen t o) := by
  induction items generalizing va t fuel o with
  | nil =>
    obtain rfl := Option.some.inj h
    cases fuel with
    | zero => exact absurd hfuel (Nat.not_lt_zero _)
    | succ fuel => rfl
  | cons item items ih =>
    cases fuel with
    | zero => exact absurd hfuel (Nat.not_lt_zero _)
    | succ fuel =>
      have hfuel' : items.length < fuel := Nat.lt_of_succ_lt_succ hfuel
      cases item with
      | literal c =>
        rw [formatText, Option.map_eq_some_iff] at h
        obtain ⟨t', ht', rfl⟩ := h
        rw [formatBytes, vsnprintfLoop, if_neg c.property.1, if_pos c.property.2]
        exact ih ht' hfuel' (put out maxlen c.val o)
      | directive d =>
        simp only [formatText, Directive.text, Option.bind_eq_bind] at h
        obtain ⟨⟨text, va₂⟩, htext, h⟩ := Option.bind_eq_some_iff.mp h
        obtain ⟨⟨s, va₁⟩, hres, htext⟩ := Option.bind_eq_some_iff.mp htext
        obtain ⟨t', ht', rfl⟩ := Option.map_eq_some_iff.mp h
        rw [formatBytes, vsnprintfLoop, if_neg (by decide), if_neg (by decide),
          scanDirective_bytes, hres]
        simp only [Option.map_some, Option.bind_eq_bind, Option.bind_some]
        rw [outSpecifier_eq_emit out maxlen htext]
        simp only [Option.bind_some]
        rw [ih ht' hfuel', emit_append]

/-- With matching arguments the formatter returns, whatever the length of the text. -/
theorem internalVsnprintf_of_matches {items : List Item} {va : List Arg} (h : Matches items va)
    (buffer : σ) :
    ∃ r, internalVsnprintf out maxlen false (formatBytes items) va buffer = some r := by
  obtain ⟨t, ht⟩ := formatText_of_matches h
  have hfuel : items.length < (formatBytes items).length + 1 :=
    Nat.lt_succ_of_le (length_le_formatBytes items)
  rw [internalVsnprintf]
  simp only [Bool.false_eq_true, if_false, vsnprintfLoop_eq_emit out maxlen ht hfuel,
    Option.bind_eq_bind, Option.bind_some]
  exact ⟨_, rfl⟩

end Emit

/-- The characters of a string literal, as items of a format. -/
def literals (s : String) : List Item :=
  s.toList.filterMap fun c =>
    if h : ch c ≠ 0 ∧ ch c ≠ ch '%' then some (.literal ⟨ch c, h⟩) else none

end MegaOS.Log
