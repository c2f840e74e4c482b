import MegaOS.Log.Numeral
import MegaOS.Log.Strings

/-!
# Integers are read back

What an integer directive outputs, read as a number again: without the padding,
the sign and the prefix, are the digits left those of the argument? They are,
with exceptions. One comes from the negation: that of the minimum of `int`
overflows. All others come from the conversion buffer: it is too short for the
digits, for the sign or for the prefix, or places are given up for a prefix that
would have fitted.
-/

namespace MegaOS.Log

open MegaOS.Memory MegaOS.Emission MegaOS.Numerals

/-! ### The argument -/

def IntegerSpecifier.signed : IntegerSpecifier → Bool
  | .d | .i => true
  | _ => false

def IntegerSpecifier.base : IntegerSpecifier → ℕ
  | .d | .i | .u => 10
  | .x | .X => 16
  | .o => 8
  | .b => 2

/-- The size of the type a length modifier names. -/
def Length.bits : Length → ℕ
  | .hh => 8
  | .h => 16
  | .none => 32
  | .l | .ll | .j | .z | .t => 64

/-- The argument, converted to the type the directive names. -/
def argumentValue (len : Length) (k : IntegerSpecifier) (a : Arg) : ℤ :=
  if k.signed then (a.word.setWidth len.bits).toInt else ((a.word.setWidth len.bits).toNat : ℤ)

/-- The argument is the minimum of an `int`, and its negation overflows. -/
def NegationOverflows (len : Length) (k : IntegerSpecifier) (a : Arg) : Prop :=
  len.bits ≠ 64 ∧ argumentValue len k a = -2 ^ 31

instance (len : Length) (k : IntegerSpecifier) (a : Arg) : Decidable (NegationOverflows len k a) :=
  inferInstanceAs (Decidable (_ ∧ _))

/-- The value whose sign and digits are output. -/
def printedValue (len : Length) (k : IntegerSpecifier) (a : Arg) : ℤ :=
  if NegationOverflows len k a then -(2 ^ 64 - 2 ^ 31) else argumentValue len k a

theorem printedValue_eq {len : Length} {k : IntegerSpecifier} {a : Arg}
    (h : ¬NegationOverflows len k a) : printedValue len k a = argumentValue len k a := if_neg h

theorem printedValue_of_nonneg {len : Length} {k : IntegerSpecifier} {a : Arg}
    (h : 0 ≤ argumentValue len k a) : printedValue len k a = argumentValue len k a := by
  refine printedValue_eq fun hover => ?_
  have hmin := hover.2
  omega

theorem magnitude_toNat {w : ℕ} (v : BitVec w) : (magnitude v).toNat = v.toInt.natAbs := by
  have hlt := v.isLt
  have hslt : (0#w).slt v = decide (0 < v.toInt) := by
    rw [BitVec.slt, BitVec.toInt_zero]
  rw [magnitude, hslt]
  by_cases hpos : 0 < v.toInt
  · rw [if_pos (decide_eq_true hpos)]
    rw [BitVec.toInt_eq_toNat_cond] at hpos ⊢
    split
    · rfl
    · rename_i hbig
      rw [if_neg hbig] at hpos
      omega
  · rw [if_neg (by rw [decide_eq_true_iff]; exact hpos), BitVec.toNat_sub]
    have hzero : BitVec.toNat (0 : BitVec w) = 0 := BitVec.toNat_zero
    rw [hzero, Nat.add_zero]
    rw [BitVec.toInt_eq_toNat_cond] at hpos ⊢
    split
    · rename_i hsmall
      rw [if_pos hsmall] at hpos
      have hzero : v.toNat = 0 := by omega
      rw [hzero, Nat.sub_zero, Nat.mod_self]
      rfl
    · rename_i hbig
      have hnz : v.toNat ≠ 0 := by omega
      rw [Nat.mod_eq_of_lt (by omega)]
      omega

/-- What `_ntoa_long` gets for an `int`: the sign is extended at the minimum. -/
theorem intMagnitude_toNat (v : BitVec 32) :
    (intMagnitude v).toNat = if v.toInt = -2 ^ 31 then 2 ^ 64 - 2 ^ 31 else v.toInt.natAbs := by
  have hmag := magnitude_toNat v
  have hle : -2 ^ 31 ≤ v.toInt := BitVec.le_toInt v
  have hlt : v.toInt < 2 ^ 31 := BitVec.toInt_lt
  have hlow : ((magnitude v).setWidth 64).toNat = v.toInt.natAbs := by
    rw [BitVec.toNat_setWidth, hmag, Nat.mod_eq_of_lt (by omega)]
  rw [intMagnitude, BitVec.toNat_signExtend, hlow, BitVec.msb_eq_decide, hmag]
  by_cases hmin : v.toInt = -2 ^ 31
  · rw [if_pos hmin, hmin]
    rfl
  · rw [if_neg hmin, decide_eq_false (by omega)]
    rfl

theorem slt_zero_eq {w : ℕ} (v : BitVec w) : v.slt 0 = decide (v.toInt < 0) := by
  rw [BitVec.slt]
  congr 1
  exact congrArg _ BitVec.toInt_zero

/-- A signed type of up to 32 bits is converted through `int`. -/
theorem toInt_signExtend_low (v : Word) {n : ℕ} (hn : n ≤ 32) :
    (((v.setWidth 32 : BitVec 32).setWidth n).signExtend 32).toInt = (v.setWidth n).toInt := by
  rw [BitVec.toInt_signExtend_of_le hn, BitVec.setWidth_setWidth_of_le _ hn]

theorem baseOf_byte (k : IntegerSpecifier) : (baseOf k.byte).toNat = k.base := by cases k <;> rfl

theorem isSigned_byte (k : IntegerSpecifier) : isSigned k.byte = k.signed := by cases k <;> rfl

/-- The flags a length modifier sets. -/
structure LengthFlags (len : Length) (flags : Flags) : Prop where
  char : flags.char = decide (len.bits = 8)
  short : flags.short = decide (len.bits = 8 ∨ len.bits = 16)
  long : (flags.longLong || flags.long) = decide (len.bits = 64)

theorem integerFlags_length {len : Length} {flags : Flags} (h : LengthFlags len flags) (c : Byte) :
    LengthFlags len (integerFlags c flags) := by
  have hkeep : (integerFlags c flags).char = flags.char ∧
      (integerFlags c flags).short = flags.short ∧ (integerFlags c flags).long = flags.long ∧
      (integerFlags c flags).longLong = flags.longLong := by
    rw [integerFlags]
    refine ⟨?_, ?_, ?_, ?_⟩ <;> split_ifs <;> rfl
  obtain ⟨hchar, hshort, hlong, hlongLong⟩ := hkeep
  exact ⟨hchar.trans h.char, hshort.trans h.short, by rw [hlong, hlongLong, h.long]⟩

/-- A signed argument that is not long. -/
theorem intValue_toInt {len : Length} {flags : Flags} (h : LengthFlags len flags)
    (hlong : len.bits ≠ 64) (a : Arg) :
    (intValue flags a).toInt = (a.word.setWidth len.bits).toInt := by
  rw [intValue, h.char, h.short, Arg.int]
  cases len with
  | hh => exact toInt_signExtend_low a.word (by decide)
  | h => exact toInt_signExtend_low a.word (by decide)
  | none => rfl
  | _ => exact absurd rfl hlong

/-- An unsigned one. -/
theorem uintValue_toNat {len : Length} {flags : Flags} (h : LengthFlags len flags)
    (hlong : len.bits ≠ 64) (a : Arg) :
    (uintValue flags a).toNat = (a.word.setWidth len.bits).toNat := by
  have hlow : ∀ n, n ≤ 32 → ((a.word.setWidth 32 : BitVec 32).setWidth n).toNat =
      (a.word.setWidth n).toNat := by
    intro n hn
    rw [BitVec.setWidth_setWidth_of_le _ hn]
  have hwide : ∀ {n} (v : BitVec n), n ≤ 32 → (v.setWidth 32).toNat = v.toNat := by
    intro n v hn
    rw [BitVec.toNat_setWidth, Nat.mod_eq_of_lt]
    exact Nat.lt_of_lt_of_le v.isLt (Nat.pow_le_pow_right (by decide) hn)
  rw [uintValue, h.char, h.short, Arg.int]
  cases len with
  | hh => exact (hwide _ (by decide)).trans (hlow 8 (by decide))
  | h => exact (hwide _ (by decide)).trans (hlow 16 (by decide))
  | none => rfl
  | _ => exact absurd rfl hlong

/-- **The operand** of a conversion is the magnitude and the sign of the value that is output. -/
theorem operand_spec (k : IntegerSpecifier) {len : Length} {flags : Flags}
    (h : LengthFlags len flags) (a : Arg) :
    (operand k.byte flags a).1.toNat = (printedValue len k a).natAbs ∧
      (operand k.byte flags a).2 = decide (printedValue len k a < 0) := by
  have hwide : ∀ v : BitVec 32, (v.setWidth 64).toNat = v.toNat := by
    intro v
    rw [BitVec.toNat_setWidth, Nat.mod_eq_of_lt]
    exact Nat.lt_of_lt_of_le v.isLt (by decide)
  have hword : len.bits = 64 → ∀ {β : Type} (f : (n : ℕ) → BitVec n → β),
      f len.bits (a.word.setWidth len.bits) = f 64 a.word := by
    intro hbits β f
    rw [hbits, BitVec.setWidth_eq]
  have hsign := isSigned_byte k
  rw [operand, hsign, h.long]
  by_cases hlong : len.bits = 64
  · rw [decide_eq_true hlong, printedValue_eq fun hover => hover.1 hlong, argumentValue]
    cases k.signed with
    | true =>
      have hint := hword hlong (fun _ v => v.toInt)
      simp only [if_true, hint]
      exact ⟨magnitude_toNat a.word, slt_zero_eq a.word⟩
    | false =>
      have hnat := hword hlong (fun _ v => v.toNat)
      simp only [Bool.false_eq_true, if_false, if_true, hnat]
      exact ⟨rfl, (decide_eq_false (Int.not_lt.mpr (Int.natCast_nonneg _))).symm⟩
  · rw [decide_eq_false hlong]
    cases hs : k.signed with
    | true =>
      have hint : (intValue flags a).toInt = argumentValue len k a := by
        rw [intValue_toInt h hlong, argumentValue, if_pos hs]
      have hiff : NegationOverflows len k a ↔ argumentValue len k a = -2 ^ 31 :=
        and_iff_right hlong
      simp only [if_true, Bool.false_eq_true, if_false]
      rw [intMagnitude_toNat, slt_zero_eq, hint, printedValue]
      simp only [hiff]
      -- both are negative at the minimum
      split
      · rename_i hmin
        rw [hmin]
        exact ⟨rfl, rfl⟩
      · exact ⟨rfl, rfl⟩
    | false =>
      have hnat : argumentValue len k a = ((a.word.setWidth len.bits).toNat : ℤ) := by
        rw [argumentValue, hs, if_neg Bool.false_ne_true]
      have hnonneg := Int.natCast_nonneg (a.word.setWidth len.bits).toNat
      rw [printedValue_of_nonneg (hnat ▸ hnonneg), hnat]
      simp only [Bool.false_eq_true, if_false]
      rw [hwide, uintValue_toNat h hlong]
      exact ⟨rfl, (decide_eq_false (Int.not_lt.mpr hnonneg)).symm⟩

/-! ### The directive -/

/-- The flags before the length modifier is read. -/
structure NoLength (flags : Flags) : Prop where
  char : flags.char = false
  short : flags.short = false
  long : flags.long = false
  longLong : flags.longLong = false

theorem setFlags_noLength (fs : List FlagChar) {flags : Flags} (h : NoLength flags) :
    NoLength (fs.foldl FlagChar.set flags) := by
  induction fs generalizing flags with
  | nil => exact h
  | cons f fs ih =>
    have hset : NoLength (f.set flags) := by
      cases f <;> exact ⟨h.char, h.short, h.long, h.longLong⟩
    exact ih hset

theorem Width.resolve_noLength {w : Width} {flags flags' : Flags} {width : ℕ} {va va' : List Arg}
    (h : NoLength flags) (hres : w.resolve flags va = some (flags', width, va')) :
    NoLength flags' := by
  rw [(Width.resolve_spec hres).2.2]
  split
  · exact ⟨h.char, h.short, h.long, h.longLong⟩
  · exact h

theorem Precision.set_noLength (p : Precision) {flags : Flags} (h : NoLength flags) :
    NoLength (p.set flags) := by
  cases p with
  | none => exact h
  | _ => exact ⟨h.char, h.short, h.long, h.longLong⟩

/-- Without its flag, there is no precision. -/
theorem Precision.kept_of_not_set {p : Precision} {flags : Flags}
    (h : (p.set flags).precision = false) (va : List Arg) : p.kept va = 0 := by
  cases p with
  | none => rfl
  | _ => exact Bool.noConfusion h

theorem Length.set_flags (len : Length) {flags : Flags} (h : NoLength flags) :
    LengthFlags len (len.set flags) := by
  obtain ⟨hchar, hshort, hlong, hlongLong⟩ := h
  cases len <;> refine ⟨?_, ?_, ?_⟩ <;>
    simp [Length.set, Length.bits, hchar, hshort, hlong, hlongLong]

/-- What the parser leaves for a directive. -/
theorem Directive.resolve_fields {d : Directive} {va va' : List Arg} {s : Spec}
    (h : d.resolve va = some (s, va')) :
    LengthFlags d.length s.flags ∧ (s.flags.precision = false → s.precision = 0) := by
  obtain ⟨flags, va₁, hw, hp, hflags⟩ := Directive.resolve_spec h
  have hstart : NoLength {} := ⟨rfl, rfl, rfl, rfl⟩
  have hwidth := Width.resolve_noLength (setFlags_noLength d.flags hstart) hw
  rw [hflags]
  refine ⟨d.length.set_flags (d.precision.set_noLength hwidth), ?_⟩
  intro hnone
  rw [(Precision.resolve_spec hp).2.1]
  exact Precision.kept_of_not_set ((Length.set_precision d.length _).symm.trans hnone) va₁

/-! ### Reading a text back -/

/-- `0x`, `0b` or `0`. -/
def IntegerSpecifier.prefixChars : IntegerSpecifier → List Byte
  | .x | .X => [ch '0', ch 'x']
  | .b => [ch '0', ch 'b']
  | .o => [ch '0']
  | .d | .i | .u => []

/-- A text taken apart: spaces, sign, prefix, digits, spaces. -/
structure Parts where
  before : ℕ
  sign : List Byte
  pre : List Byte
  digits : List Byte
  after : ℕ

def Parts.text (p : Parts) : List Byte :=
  List.replicate p.before (ch ' ') ++
    (p.sign ++ (p.pre ++ (p.digits ++ List.replicate p.after (ch ' '))))

def signs : List (List Byte) := [[], [ch '-'], [ch '+'], [ch ' ']]

/-- **What reading gives.** The text is taken apart into padding, a sign, the prefix of the
specifier or none, and digits that denote the value; the digits are missing in the case
`noDigits` of the value 0 only. -/
structure Denotes (k : IntegerSpecifier) (noDigits : Prop) (value : ℤ) (text : List Byte)
    (p : Parts) : Prop where
  text_eq : p.text = text
  sign : p.sign ∈ signs
  pre : p.pre = [] ∨ p.pre = k.prefixChars
  digits : ∀ c ∈ p.digits, IsDigit digitValue k.base c
  negative : p.sign = [ch '-'] ↔ value < 0
  denoted : Numerals.value digitValue k.base p.digits = value.natAbs
  missing : p.digits = [] ↔ noDigits ∧ value = 0

/-- What is left of a prefix whose zero did not fit. -/
def IntegerSpecifier.pieces (k : IntegerSpecifier) : List (List Byte) :=
  [[], k.prefixChars, k.prefixChars.tail]

theorem not_isDigit_space (k : IntegerSpecifier) : ¬IsDigit digitValue k.base (ch ' ') := by
  cases k <;> decide

theorem filter_spaces (k : IntegerSpecifier) (n : ℕ) :
    (List.replicate n (ch ' ')).filter (IsDigit digitValue k.base) = [] := by
  rw [List.filter_eq_nil_iff]
  intro c hc
  rw [List.eq_of_mem_replicate hc, decide_eq_true_iff]
  exact not_isDigit_space k

theorem filter_sign (k : IntegerSpecifier) : ∀ sign ∈ signs,
    sign.filter (IsDigit digitValue k.base) = [] := by
  cases k <;> decide

theorem filter_pieces (k : IntegerSpecifier) : ∀ pre ∈ k.pieces,
    pre.filter (IsDigit digitValue k.base) = [] ∨
      pre.filter (IsDigit digitValue k.base) = [ch '0'] := by
  cases k <;> decide

/-- The digits among the characters of a text denote what its digits denote. -/
theorem value_filter_text {k : IntegerSpecifier} {p : Parts} (hsign : p.sign ∈ signs)
    (hpre : p.pre ∈ k.pieces) (hdigits : ∀ c ∈ p.digits, IsDigit digitValue k.base c) :
    Numerals.value digitValue k.base (p.text.filter (IsDigit digitValue k.base)) =
      Numerals.value digitValue k.base p.digits := by
  have hall : p.digits.filter (IsDigit digitValue k.base) = p.digits :=
    List.filter_eq_self.mpr fun c hc => decide_eq_true (hdigits c hc)
  rw [Parts.text, List.filter_append, List.filter_append, List.filter_append, List.filter_append,
    filter_spaces, filter_spaces, filter_sign k _ hsign, hall, List.append_nil, List.nil_append,
    List.nil_append]
  rcases filter_pieces k _ hpre with hnone | hzero
  · rw [hnone, List.nil_append]
  · rw [hzero, List.singleton_append, value_zero_cons _ _ (by decide)]

theorem Denotes.pre_mem {k : IntegerSpecifier} {noDigits : Prop} {value : ℤ} {text : List Byte}
    {p : Parts} (h : Denotes k noDigits value text p) : p.pre ∈ k.pieces := by
  rcases h.pre with hpre | hpre
  · exact hpre ▸ List.mem_cons_self
  · exact hpre ▸ List.mem_cons_of_mem _ List.mem_cons_self

/-- The digits of a text that is read back denote the value. -/
theorem Denotes.value_filter {k : IntegerSpecifier} {noDigits : Prop} {value : ℤ}
    {text : List Byte} {p : Parts} (h : Denotes k noDigits value text p) :
    Numerals.value digitValue k.base (text.filter (IsDigit digitValue k.base)) = value.natAbs := by
  rw [← h.text_eq, value_filter_text h.sign h.pre_mem h.digits, h.denoted]

/-- The minus is the sign, if there is one. -/
theorem minus_mem_text {k : IntegerSpecifier} {p : Parts} (hsign : p.sign ∈ signs)
    (hpre : p.pre ∈ k.pieces) (hdigits : ∀ c ∈ p.digits, IsDigit digitValue k.base c) :
    ch '-' ∈ p.text ↔ p.sign = [ch '-'] := by
  have hspaces : ∀ n, ch '-' ∉ List.replicate n (ch ' ') := by
    intro n h
    exact absurd (List.eq_of_mem_replicate h) (by decide)
  have hpieces : ∀ pre ∈ k.pieces, ch '-' ∉ pre := by cases k <;> decide
  have hnodigit : ch '-' ∉ p.digits := by
    intro h
    have hno : ¬IsDigit digitValue k.base (ch '-') := by cases k <;> decide
    exact hno (hdigits _ h)
  have hsigns : ∀ sign ∈ signs, ch '-' ∈ sign ↔ sign = [ch '-'] := by decide
  rw [Parts.text, List.mem_append, or_iff_right (hspaces _), List.mem_append,
    List.mem_append, List.mem_append, or_iff_left (hspaces _), or_iff_left hnodigit,
    or_iff_left (hpieces _ hpre), hsigns _ hsign]

/-- Spaces do not count at all. -/
theorem filter_ne_spaces (n : ℕ) : (List.replicate n (ch ' ')).filter (· ≠ ch ' ') = [] := by
  rw [List.filter_eq_nil_iff]
  intro c hc
  rw [List.eq_of_mem_replicate hc]
  decide

/-- A letter that is no digit of the base does not come first. -/
theorem letter_not_first {k : IntegerSpecifier} {p : Parts} (hsign : p.sign ∈ signs)
    (hpre : p.pre = [] ∨ p.pre = k.prefixChars)
    (hdigits : ∀ c ∈ p.digits, IsDigit digitValue k.base c) {c : Byte}
    (hc : c ∈ [ch 'x', ch 'b']) (hno : ¬IsDigit digitValue k.base c) :
    (p.text.filter (· ≠ ch ' ')).head? ≠ some c := by
  have hsome : ∀ d, d ∉ [ch 'x', ch 'b'] → some d ≠ some c :=
    fun d hd heq => hd (Option.some.inj heq ▸ hc)
  -- neither the digits nor the prefix begin with it
  have hrest : ((p.digits ++ List.replicate p.after (ch ' ')).filter (· ≠ ch ' ')).head? ≠
      some c := by
    cases hds : p.digits with
    | nil =>
      rw [List.nil_append, filter_ne_spaces]
      exact (Option.some_ne_none c).symm
    | cons d ds =>
      have hd := hdigits d (hds ▸ List.mem_cons_self)
      have hne : d ≠ ch ' ' := fun heq => not_isDigit_space k (heq ▸ hd)
      rw [List.cons_append, List.filter_cons_of_pos (by simpa using hne)]
      intro heq
      exact hno (Option.some.inj heq ▸ hd)
  have hprefixed : ((p.pre ++ (p.digits ++ List.replicate p.after (ch ' '))).filter
      (· ≠ ch ' ')).head? ≠ some c := by
    rcases hpre with hp | hp
    · rw [hp]
      exact hrest
    · rw [hp]
      cases k with
      | d => exact hrest
      | i => exact hrest
      | u => exact hrest
      | _ => exact hsome (ch '0') (by decide)
  rw [Parts.text, List.filter_append, filter_ne_spaces, List.nil_append]
  simp only [signs, List.mem_cons, List.not_mem_nil, or_false] at hsign
  rcases hsign with hs | hs | hs | hs
  · rw [hs]
    exact hprefixed
  · rw [hs]
    exact hsome (ch '-') (by decide)
  · rw [hs]
    exact hsome (ch '+') (by decide)
  · rw [hs]
    exact hprefixed

/-- The text of a conversion, taken apart. -/
def coreParts (k : IntegerSpecifier) (value : ℤ) (flags : Flags) (pad places : ℕ) : Parts where
  before := if flags.left then 0 else pad
  sign := signChars (decide (value < 0)) flags
    (places + (prefixText (BitVec.ofNat 32 k.base) flags.hash places).length)
  pre := prefixText (BitVec.ofNat 32 k.base) flags.hash places
  digits := numeral k.base flags.uppercase value.natAbs places
  after := if flags.left then pad else 0

theorem coreParts_text (k : IntegerSpecifier) (value : ℤ) (flags : Flags) (pad places : ℕ) :
    (coreParts k value flags pad places).text = padded flags.left pad
      (ntoaCore k.base value.natAbs (decide (value < 0)) flags places) := by
  rw [padded]
  cases hleft : flags.left with
  | true => simp [Parts.text, coreParts, ntoaCore, hleft]
  | false => simp [Parts.text, coreParts, ntoaCore, hleft]

theorem signChars_mem (negative : Bool) (flags : Flags) (n : ℕ) :
    signChars negative flags n ∈ signs := by
  rw [signChars]
  split_ifs <;> decide

/-- A prefix with a letter, as far as it fits. -/
theorem prefixText_letter {base : BitVec 32} {c : Byte}
    (hbase : base = 16 ∧ c = ch 'x' ∨ base = 2 ∧ c = ch 'b') (places : ℕ) :
    prefixText base true places =
      if places + 1 < ntoaBufferSize then [ch '0', c]
      else if places < ntoaBufferSize then [c] else [] := by
  rcases hbase with ⟨rfl, rfl⟩ | ⟨rfl, rfl⟩
  · rfl
  · rfl

/-- The letter of a specifier's prefix. -/
def IntegerSpecifier.letter : IntegerSpecifier → Option Byte
  | .x | .X => some (ch 'x')
  | .b => some (ch 'b')
  | _ => none

theorem IntegerSpecifier.tail_eq_letter (k : IntegerSpecifier) :
    ∀ c, k.letter = some c → [c] = k.prefixChars.tail := by
  cases k <;> decide

theorem IntegerSpecifier.length_prefixChars_of_letter (k : IntegerSpecifier) :
    ∀ c, k.letter = some c → k.prefixChars.length = 2 := by
  cases k <;> decide

/-- It is no digit of the base. -/
theorem IntegerSpecifier.letter_spec (k : IntegerSpecifier) : ∀ c, k.letter = some c →
    c ∈ [ch 'x', ch 'b'] ∧ ¬IsDigit digitValue k.base c := by
  cases k <;> decide

/-- What a specifier with a letter outputs in front of its digits. -/
theorem prefixText_of_letter {k : IntegerSpecifier} {c : Byte} (hk : k.letter = some c)
    (places : ℕ) : prefixText (BitVec.ofNat 32 k.base) true places =
      if places + 1 < ntoaBufferSize then k.prefixChars
      else if places < ntoaBufferSize then [c] else [] := by
  cases k with
  | x =>
    obtain rfl := Option.some.inj hk
    exact prefixText_letter (.inl ⟨rfl, rfl⟩) places
  | X =>
    obtain rfl := Option.some.inj hk
    exact prefixText_letter (.inl ⟨rfl, rfl⟩) places
  | b =>
    obtain rfl := Option.some.inj hk
    exact prefixText_letter (.inr ⟨rfl, rfl⟩) places
  | _ => exact absurd hk.symm (Option.some_ne_none c)

theorem prefixText_of_octal {k : IntegerSpecifier} (hk : k.letter = none) (hbase : k.base ≠ 10)
    (places : ℕ) : k = .o ∧ prefixText (BitVec.ofNat 32 k.base) true places =
      if places < ntoaBufferSize then k.prefixChars else [] := by
  cases k with
  | o => exact ⟨rfl, rfl⟩
  | d => exact absurd rfl hbase
  | i => exact absurd rfl hbase
  | u => exact absurd rfl hbase
  | _ => exact absurd hk (Option.some_ne_none _)

/-- Where the prefix fits, it is output as it is. -/
theorem prefixText_of_room {k : IntegerSpecifier} (hbase : k.base ≠ 10) {places : ℕ}
    (hroom : places + k.prefixChars.length ≤ ntoaBufferSize) :
    prefixText (BitVec.ofNat 32 k.base) true places = k.prefixChars := by
  cases hk : k.letter with
  | none =>
    obtain ⟨rfl, hpre⟩ := prefixText_of_octal hk hbase places
    have hlen : IntegerSpecifier.o.prefixChars.length = 1 := rfl
    rw [hpre, if_pos (by omega)]
  | some c =>
    have hlen := k.length_prefixChars_of_letter c hk
    rw [prefixText_of_letter hk, if_pos (by omega)]

theorem prefixText_mem (k : IntegerSpecifier) {hash : Bool} (hbase : hash = true → k.base ≠ 10)
    (places : ℕ) : prefixText (BitVec.ofNat 32 k.base) hash places ∈ k.pieces := by
  cases hash with
  | false => exact List.mem_cons_self
  | true =>
    cases hk : k.letter with
    | none =>
      rw [(prefixText_of_octal hk (hbase rfl) places).2]
      split_ifs
      · exact List.mem_cons_of_mem _ List.mem_cons_self
      · exact List.mem_cons_self
    | some c =>
      rw [prefixText_of_letter hk, k.tail_eq_letter c hk]
      split_ifs
      · exact List.mem_cons_of_mem _ List.mem_cons_self
      · exact List.mem_cons_of_mem _ (List.mem_cons_of_mem _ List.mem_cons_self)
      · exact List.mem_cons_self

theorem IntegerSpecifier.two_le_base (k : IntegerSpecifier) : 2 ≤ k.base := by cases k <;> decide

theorem IntegerSpecifier.base_le (k : IntegerSpecifier) : k.base ≤ 16 := by cases k <;> decide

section CoreParts

variable (k : IntegerSpecifier) (value : ℤ) (fl : Flags) (pad places : ℕ)

theorem coreParts_sign_mem : (coreParts k value fl pad places).sign ∈ signs := signChars_mem _ _ _

theorem coreParts_isDigit :
    ∀ c ∈ (coreParts k value fl pad places).digits, IsDigit digitValue k.base c :=
  isDigit_lowDigits k.two_le_base (digitValue_digitCharOf_of_lt k.base_le _) _ _

theorem coreParts_value :
    Numerals.value digitValue k.base (coreParts k value fl pad places).digits =
      value.natAbs % k.base ^ places :=
  value_lowDigits k.two_le_base (digitValue_digitCharOf_of_lt k.base_le _) _ _

theorem coreParts_digits_eq_nil : (coreParts k value fl pad places).digits = [] ↔ places = 0 := by
  rw [← List.length_eq_zero_iff]
  show (numeral _ _ _ _).length = 0 ↔ _
  rw [length_numeral]

variable {k value fl}

theorem coreParts_pre_mem (hbase : fl.hash = true → k.base ≠ 10) :
    (coreParts k value fl pad places).pre ∈ k.pieces := prefixText_mem k hbase places

theorem coreParts_pre_of_no_hash (hhash : fl.hash = false) :
    (coreParts k value fl pad places).pre = [] := by
  rw [coreParts, hhash]
  rfl

/-- The minus fits when the numeral leaves a place. -/
theorem coreParts_minus (hneg : value < 0) (hhash : fl.hash = false) :
    (coreParts k value fl pad places).sign = [ch '-'] ↔ places < ntoaBufferSize := by
  have hpre : prefixText (BitVec.ofNat 32 k.base) fl.hash places = [] := by
    rw [hhash]
    rfl
  rw [coreParts]
  simp only [hpre, List.length_nil, Nat.add_zero, signChars, decide_eq_true hneg, if_true]
  by_cases hroom : places < ntoaBufferSize
  · rw [if_pos hroom]
    exact iff_of_true rfl hroom
  · rw [if_neg hroom]
    exact iff_of_false (by decide) hroom

theorem coreParts_no_minus (hneg : ¬value < 0) :
    (coreParts k value fl pad places).sign ≠ [ch '-'] := by
  rw [coreParts, signChars, decide_eq_false hneg]
  simp only [Bool.false_eq_true, if_false]
  split_ifs <;> decide

/-- A prefixed number has no sign. -/
theorem coreParts_sign_of_hash (hplus : fl.plus = false) (hspace : fl.space = false)
    (hpos : 0 < value) : (coreParts k value fl pad places).sign = [] := by
  rw [coreParts, signChars, decide_eq_false (Int.not_lt.mpr (Int.le_of_lt hpos)), hplus, hspace]
  simp only [Bool.false_eq_true, if_false, ite_self]

/-- The prefix is whole or missing, unless its letter takes the last place. -/
theorem coreParts_pre_whole (hbase : fl.hash = true → k.base ≠ 10)
    (hletter : fl.hash = true → k.letter ≠ none → places + 1 ≠ ntoaBufferSize) :
    (coreParts k value fl pad places).pre = [] ∨
      (coreParts k value fl pad places).pre = k.prefixChars := by
  cases hf : fl.hash with
  | false => exact .inl (coreParts_pre_of_no_hash pad places hf)
  | true =>
    rw [coreParts, hf]
    cases hk : k.letter with
    | none =>
      obtain ⟨-, hpre⟩ := prefixText_of_octal hk (hbase hf) places
      simp only [hpre]
      split
      · exact .inr rfl
      · exact .inl rfl
    | some c =>
      have hfits := hletter hf (hk ▸ Option.some_ne_none c)
      simp only [prefixText_of_letter hk]
      split
      · exact .inr rfl
      · rename_i hsize
        rw [if_neg (by omega)]
        exact .inl rfl

theorem coreParts_pre_of_last (hf : fl.hash = true) {c : Byte} (hc : k.letter = some c)
    (hplaces : places + 1 = ntoaBufferSize) : (coreParts k value fl pad places).pre = [c] := by
  have hsize : ¬places + 1 < ntoaBufferSize := by omega
  have hsize' : places < ntoaBufferSize := by omega
  rw [coreParts, hf, prefixText_of_letter hc, if_neg hsize, if_pos hsize']

end CoreParts

/-- A text that begins with a lone letter is not read back. -/
theorem not_denotes_of_letter {k : IntegerSpecifier} {noDigits : Prop} {value : ℤ} {p q : Parts}
    {c : Byte} (hc : k.letter = some c) (hsign : q.sign = []) (hpre : q.pre = [c]) :
    ¬Denotes k noDigits value q.text p := by
  intro hp
  have hmem := k.letter_spec c hc
  have hne : c ≠ ch ' ' := fun heq => absurd (heq ▸ hmem.1) (by decide)
  have hhead : (q.text.filter (· ≠ ch ' ')).head? = some c := by
    rw [Parts.text, hsign, hpre, List.filter_append, filter_ne_spaces, List.nil_append,
      List.nil_append, List.singleton_append, List.filter_cons_of_pos (by simpa using hne)]
    rfl
  rw [← hp.text_eq] at hhead
  exact letter_not_first hp.sign hp.pre hp.digits hmem.1 hmem.2 hhead

/-- A text without a digit is read back in the excepted case only. -/
theorem Denotes.noDigits {k : IntegerSpecifier} {noDigits : Prop} {value : ℤ} {p q : Parts}
    (hp : Denotes k noDigits value q.text p) (hsign : q.sign ∈ signs) (hpre : q.pre = [])
    (hdigits : q.digits = []) : noDigits := by
  by_contra hno
  have hsome : p.digits ≠ [] := fun h => hno (hp.missing.mp h).1
  obtain ⟨c, ds, hds⟩ := List.exists_cons_of_ne_nil hsome
  have hc : c ∈ p.digits := hds ▸ List.mem_cons_self
  have hmem : c ∈ q.text.filter (IsDigit digitValue k.base) := by
    rw [← hp.text_eq, List.mem_filter, Parts.text]
    exact ⟨by simp [hc], decide_eq_true (hp.digits c hc)⟩
  rw [Parts.text, hdigits, hpre, List.filter_append, List.filter_append, filter_spaces,
    filter_sign k _ hsign, List.nil_append, List.nil_append, List.nil_append, List.nil_append,
    filter_spaces] at hmem
  exact absurd hmem List.not_mem_nil

/-- **When the text of a conversion is read back**: the places hold the value, the letter of a
prefix does not stand alone, a minus fits, and a 0 has a digit. -/
theorem denotes_iff (k : IntegerSpecifier) {fl : Flags} {value : ℤ} {places pad : ℕ}
    {noDigits : Prop}
    (hhash : fl.hash = true → k.base ≠ 10 ∧ fl.plus = false ∧ fl.space = false ∧ 0 < value)
    (hmissing : noDigits → value = 0 → places = 0) :
    (∃ p, Denotes k noDigits value (padded fl.left pad
      (ntoaCore k.base value.natAbs (decide (value < 0)) fl places)) p) ↔
    value.natAbs % k.base ^ places = value.natAbs ∧
      (fl.hash = true → k.letter ≠ none → places + 1 ≠ ntoaBufferSize) ∧
      (value < 0 → places < ntoaBufferSize) ∧ (value = 0 → ¬noDigits → places ≠ 0) := by
  rw [← coreParts_text]
  have hbase : fl.hash = true → k.base ≠ 10 := fun h => (hhash h).1
  have hsign := coreParts_sign_mem k value fl pad places
  have hpre : (coreParts k value fl pad places).pre ∈ k.pieces := coreParts_pre_mem pad places hbase
  have hdigits := coreParts_isDigit k value fl pad places
  -- a value that is not positive has no prefix
  have hnohash : value ≤ 0 → fl.hash = false := by
    intro hle
    cases hf : fl.hash with
    | false => rfl
    | true => exact absurd (hhash hf).2.2.2 (Int.not_lt.mpr hle)
  constructor
  · rintro ⟨p, hp⟩
    refine ⟨?_, ?_, ?_, ?_⟩
    · rw [← coreParts_value k value fl pad, ← value_filter_text hsign hpre hdigits, hp.value_filter]
    · intro hf hletter hplaces
      obtain ⟨-, hplus, hspace, hpos⟩ := hhash hf
      obtain ⟨c, hc⟩ := Option.ne_none_iff_exists'.mp hletter
      exact not_denotes_of_letter hc (coreParts_sign_of_hash pad places hplus hspace hpos)
        (coreParts_pre_of_last pad places hf hc hplaces) hp
    · intro hneg
      rw [← coreParts_minus pad places hneg (hnohash (Int.le_of_lt hneg)),
        ← minus_mem_text hsign hpre hdigits, ← hp.text_eq,
        minus_mem_text hp.sign hp.pre_mem hp.digits]
      exact hp.negative.mpr hneg
    · intro hzero hno hplaces
      exact hno (hp.noDigits hsign (coreParts_pre_of_no_hash pad places
        (hnohash (Int.le_of_eq hzero))) ((coreParts_digits_eq_nil ..).mpr hplaces))
  · rintro ⟨hholds, hletter, hroom, hdigit⟩
    refine ⟨coreParts k value fl pad places, rfl, hsign,
      coreParts_pre_whole pad places hbase hletter, hdigits, ?_,
      (coreParts_value ..).trans hholds, ?_⟩
    · by_cases hneg : value < 0
      · exact iff_of_true ((coreParts_minus pad places hneg
          (hnohash (Int.le_of_lt hneg))).mpr (hroom hneg)) hneg
      · exact iff_of_false (coreParts_no_minus pad places hneg) hneg
    · rw [coreParts_digits_eq_nil]
      constructor
      · intro hplaces
        have hzero : value = 0 := by
          rw [hplaces, pow_zero, Nat.mod_one] at hholds
          omega
        refine ⟨?_, hzero⟩
        by_contra hno
        exact hdigit hzero hno hplaces
      · exact fun h => hmissing h.1 h.2

/-! ### The text of a directive -/

/-- `0` as it counts: not with `-`, and not with a precision. -/
def Spec.zeroPadded (s : Spec) : Bool :=
  s.flags.zeropad && !s.flags.left && !s.flags.precision

/-- `#` as it counts: not for decimals, and not for 0. -/
def IntegerSpecifier.prefixed (k : IntegerSpecifier) (s : Spec) (value : ℤ) : Bool :=
  s.flags.hash && k.base ≠ 10 && value ≠ 0

/-- The flags a conversion of `value` works with. -/
def IntegerSpecifier.workFlags (k : IntegerSpecifier) (s : Spec) (value : ℤ) : Flags :=
  if value = 0 then { integerFlags k.byte s.flags with hash := false }
  else integerFlags k.byte s.flags

/-- How they come from the flags of the directive. -/
structure WorkFlags (k : IntegerSpecifier) (s : Spec) (value : ℤ) (fl : Flags) : Prop where
  hash : fl.hash = k.prefixed s value
  left : fl.left = s.flags.left
  precision : fl.precision = s.flags.precision
  zeropad : fl.zeropad = (s.flags.zeropad && !s.flags.precision)
  plus : fl.plus = (s.flags.plus && k.signed)
  space : fl.space = (s.flags.space && k.signed)

theorem workFlags_spec (k : IntegerSpecifier) (s : Spec) (value : ℤ) :
    WorkFlags k s value (k.workFlags s value) := by
  have hinteger : WorkFlags k s 1 (integerFlags k.byte s.flags) := by
    cases hprec : s.flags.precision <;> cases k <;>
      constructor <;> simp [IntegerSpecifier.prefixed, integerFlags, IntegerSpecifier.byte, baseOf,
        isSigned, ch, IntegerSpecifier.base, IntegerSpecifier.signed, hprec]
  obtain ⟨hhash, hleft, hprec, hzero, hplus, hspace⟩ := hinteger
  rw [IntegerSpecifier.workFlags]
  split
  · rename_i h
    refine ⟨?_, hleft, hprec, hzero, hplus, hspace⟩
    rw [IntegerSpecifier.prefixed, decide_eq_false (not_not.mpr h), Bool.and_false]
  · rename_i h
    refine ⟨?_, hleft, hprec, hzero, hplus, hspace⟩
    rw [hhash, IntegerSpecifier.prefixed, IntegerSpecifier.prefixed, decide_eq_true h]
    rfl

/-- The places of the numeral. -/
def IntegerSpecifier.places (k : IntegerSpecifier) (s : Spec) (value : ℤ) : ℕ :=
  ntoaPlaces k.base value.natAbs (decide (value < 0)) s.precision s.width (k.workFlags s value)

/-- Sign, prefix and numeral. -/
def IntegerSpecifier.core (k : IntegerSpecifier) (s : Spec) (value : ℤ) : List Byte :=
  ntoaCore k.base value.natAbs (decide (value < 0)) (k.workFlags s value) (k.places s value)

/-- The width left for the numeral when a sign goes in front of padding zeros. -/
def IntegerSpecifier.width (k : IntegerSpecifier) (s : Spec) (value : ℤ) : ℕ :=
  digitsWidth (decide (value < 0)) s.width (k.workFlags s value)

theorem integerText_eq (k : IntegerSpecifier) {len : Length} {s : Spec}
    (h : LengthFlags len s.flags) {a : Arg} {value : ℤ} (hvalue : value = printedValue len k a) :
    integerText k.byte s a = padded s.flags.left
      (if s.zeroPadded then 0 else k.width s value - (k.core s value).length) (k.core s value) := by
  obtain ⟨habs, hneg⟩ := operand_spec k (integerFlags_length h k.byte) a
  rw [← hvalue] at habs hneg
  have hb : 2 ≤ (baseOf k.byte).toNat := (baseOf_byte k).symm ▸ k.two_le_base
  have hb' : (baseOf k.byte).toNat ≤ 16 := (baseOf_byte k).symm ▸ k.base_le
  have hfl : k.workFlags s value =
      if (operand k.byte (integerFlags k.byte s.flags) a).1 = 0 then
        { integerFlags k.byte s.flags with hash := false } else integerFlags k.byte s.flags := by
    have hzero : (operand k.byte (integerFlags k.byte s.flags) a).1 = 0 ↔ value = 0 := by
      rw [← Int.natAbs_eq_zero, ← habs]
      exact ⟨fun h => congrArg BitVec.toNat h, fun h => BitVec.eq_of_toNat_eq h⟩
    rw [IntegerSpecifier.workFlags]
    simp only [hzero]
  have hplaces : k.places s value = ntoaPlaces (baseOf k.byte).toNat
      (operand k.byte (integerFlags k.byte s.flags) a).1.toNat
      (operand k.byte (integerFlags k.byte s.flags) a).2 s.precision s.width
      (k.workFlags s value) := by
    rw [habs, hneg, baseOf_byte]
    rfl
  have hcore : k.core s value = ntoaCore (baseOf k.byte).toNat
      (operand k.byte (integerFlags k.byte s.flags) a).1.toNat
      (operand k.byte (integerFlags k.byte s.flags) a).2 (k.workFlags s value)
      (k.places s value) := by
    rw [habs, hneg, baseOf_byte]
    rfl
  have htext := ntoaText_eq hb hb' (operand k.byte (integerFlags k.byte s.flags) a).1
    (operand k.byte (integerFlags k.byte s.flags) a).2 s.precision s.width hfl hplaces hcore
  have hspec := workFlags_spec k s value
  rw [integerText]
  refine htext.trans ?_
  rw [hneg, hspec.left, hspec.zeropad, Spec.zeroPadded]
  congr 1
  cases s.flags.zeropad <;> cases s.flags.left <;> cases s.flags.precision <;> rfl

end MegaOS.Log
