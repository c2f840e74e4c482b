import MegaOS.Log.Integers

/-!
# When an integer directive keeps its value

The places a numeral gets, from the flags, the width, the precision and the number
of digits; and from them the arguments that can be read back.
-/

namespace MegaOS.Log

open MegaOS.Memory MegaOS.Emission MegaOS.Numerals

/-! ### Digits of an argument -/

/-- The digits a value has in the base of the specifier; none for 0. -/
def IntegerSpecifier.digitCount (k : IntegerSpecifier) (value : ℤ) : ℕ :=
  (k.base.digits value.natAbs).length

/-- What an argument converts to. -/
structure IsArgument (k : IntegerSpecifier) (value : ℤ) : Prop where
  lt : value.natAbs < 2 ^ 64
  nonneg : k.signed = false → 0 ≤ value

theorem isArgument_argumentValue (len : Length) (k : IntegerSpecifier) (a : Arg) :
    IsArgument k (argumentValue len k a) := by
  have hbits : len.bits ≤ 64 := by cases len <;> decide
  have hlt : (a.word.setWidth len.bits).toNat < 2 ^ 64 :=
    Nat.lt_of_lt_of_le (BitVec.isLt _) (Nat.pow_le_pow_right (by decide) hbits)
  have hpow : 2 ^ len.bits ≤ 2 ^ 64 := Nat.pow_le_pow_right (by decide) hbits
  rw [argumentValue]
  constructor
  · split
    · rw [BitVec.toInt_eq_toNat_cond]
      split
      · exact hlt
      · have := (a.word.setWidth len.bits).isLt
        omega
    · exact hlt
  · intro hsigned
    rw [hsigned, if_neg Bool.false_ne_true]
    exact Int.natCast_nonneg _

theorem isArgument_printedValue (len : Length) (k : IntegerSpecifier) (a : Arg) :
    IsArgument k (printedValue len k a) := by
  have harg := isArgument_argumentValue len k a
  rw [printedValue]
  split
  · rename_i hover
    refine ⟨by decide, fun hsigned => ?_⟩
    have hnonneg := harg.nonneg hsigned
    rw [hover.2] at hnonneg
    exact absurd hnonneg (by decide)
  · exact harg

theorem IntegerSpecifier.digitCount_le_iff (k : IntegerSpecifier) (value : ℤ) (n : ℕ) :
    k.digitCount value ≤ n ↔ value.natAbs < k.base ^ n :=
  Nat.digits_length_le_iff k.two_le_base value.natAbs

theorem IntegerSpecifier.digitCount_pos {k : IntegerSpecifier} {value : ℤ} (h : value ≠ 0) :
    0 < k.digitCount value := by
  rw [IntegerSpecifier.digitCount, List.length_pos_iff, Nat.digits_ne_nil_iff_ne_zero]
  exact Int.natAbs_ne_zero.mpr h

theorem IntegerSpecifier.digitCount_zero (k : IntegerSpecifier) : k.digitCount 0 = 0 := by
  rw [IntegerSpecifier.digitCount, Int.natAbs_zero, Nat.digits_zero, List.length_nil]

/-- The digits of 64 bits. -/
theorem IsArgument.digitCount_le {k : IntegerSpecifier} {value : ℤ} (h : IsArgument k value) :
    k.digitCount value ≤ 64 ∧ (k.base = 8 → k.digitCount value ≤ 22) ∧
      (k.base = 10 → k.digitCount value ≤ 20) ∧ (k.base = 16 → k.digitCount value ≤ 16) := by
  have hlt := h.lt
  refine ⟨?_, ?_, ?_, ?_⟩
  · rw [k.digitCount_le_iff]
    exact Nat.lt_of_lt_of_le hlt (Nat.pow_le_pow_left k.two_le_base 64)
  · intro hbase
    rw [k.digitCount_le_iff, hbase]
    exact Nat.lt_of_lt_of_le hlt (by decide)
  · intro hbase
    rw [k.digitCount_le_iff, hbase]
    exact Nat.lt_of_lt_of_le hlt (by decide)
  · intro hbase
    rw [k.digitCount_le_iff, hbase]
    exact Nat.lt_of_lt_of_le hlt (by decide)

theorem IntegerSpecifier.base_cases (k : IntegerSpecifier) :
    k.base = 2 ∨ k.base = 8 ∨ k.base = 10 ∨ k.base = 16 := by
  cases k <;> decide

theorem IntegerSpecifier.base_of_signed {k : IntegerSpecifier} (h : k.signed = true) :
    k.base = 10 := by
  cases k with
  | d => rfl
  | i => rfl
  | _ => exact absurd h Bool.false_ne_true

/-- Only signed arguments are negated. -/
theorem NegationOverflows.base {len : Length} {k : IntegerSpecifier} {a : Arg}
    (h : NegationOverflows len k a) : k.base = 10 := by
  refine IntegerSpecifier.base_of_signed ?_
  by_contra hs
  have hnonneg := (isArgument_argumentValue len k a).nonneg (eq_false_of_ne_true hs)
  rw [h.2] at hnonneg
  exact absurd hnonneg (by decide)

theorem IntegerSpecifier.letter_eq_none_iff (k : IntegerSpecifier) :
    k.letter = none ↔ k.base = 8 ∨ k.base = 10 := by
  cases k <;> decide

/-! ### The places of a numeral -/

/-- The characters in the buffer before the prefix. -/
def IntegerSpecifier.leading (k : IntegerSpecifier) (s : Spec) (value : ℤ) : ℕ :=
  let n := if value = 0 then if s.flags.precision then 0 else 1
    else min (k.digitCount value) ntoaBufferSize
  if s.flags.left then n
  else if s.zeroPadded then max n (min (k.width s value) ntoaBufferSize)
  else max n (min s.precision ntoaBufferSize)

theorem leadingLength_eq (k : IntegerSpecifier) {s : Spec} (value : ℤ)
    (hprec : s.flags.precision = false → s.precision = 0) :
    leadingLength s.precision (k.width s value) (k.workFlags s value)
      (digitsLength k.base value.natAbs (k.workFlags s value)) = k.leading s value := by
  have hspec := workFlags_spec k s value
  have hlen : digitsLength k.base value.natAbs (k.workFlags s value) =
      if value = 0 then if s.flags.precision then 0 else 1
      else min (k.digitCount value) ntoaBufferSize := by
    rw [digitsLength, hspec.precision]
    simp only [Int.natAbs_eq_zero]
    rfl
  rw [leadingLength, hlen, hspec.left, hspec.zeropad, IntegerSpecifier.leading, Spec.zeroPadded]
  cases hleft : s.flags.left with
  | true => rfl
  | false =>
    cases hzero : s.flags.zeropad with
    | false => rfl
    | true =>
      cases hp : s.flags.precision with
      | true => rfl
      | false => simp [hprec hp]

theorem leading_pos {k : IntegerSpecifier} {s : Spec} {value : ℤ} (hvalue : value ≠ 0) :
    0 < k.leading s value := by
  have hpos := IntegerSpecifier.digitCount_pos (k := k) hvalue
  have hmin : 0 < min (k.digitCount value) ntoaBufferSize := Nat.lt_min.mpr ⟨hpos, by decide⟩
  rw [IntegerSpecifier.leading, if_neg hvalue]
  split
  · exact hmin
  split
  · exact Nat.lt_of_lt_of_le hmin (Nat.le_max_left _ _)
  · exact Nat.lt_of_lt_of_le hmin (Nat.le_max_left _ _)

theorem leading_of_precision (k : IntegerSpecifier) {s : Spec} {value : ℤ} (hvalue : value ≠ 0)
    (hp : s.flags.precision = true) : k.leading s value =
      if s.flags.left then min (k.digitCount value) ntoaBufferSize
      else max (min (k.digitCount value) ntoaBufferSize) (min s.precision ntoaBufferSize) := by
  have hzero : s.zeroPadded = false := by
    rw [Spec.zeroPadded, hp, Bool.not_true, Bool.and_false]
  rw [IntegerSpecifier.leading, if_neg hvalue, hzero]
  rfl

/-- Without a precision, the zeros are those of the width. -/
theorem leading_of_no_precision (k : IntegerSpecifier) {s : Spec} {value : ℤ} (hvalue : value ≠ 0)
    (hzero : s.precision = 0) : k.leading s value =
      if s.zeroPadded then
        max (min (k.digitCount value) ntoaBufferSize) (min (k.width s value) ntoaBufferSize)
      else min (k.digitCount value) ntoaBufferSize := by
  rw [IntegerSpecifier.leading, if_neg hvalue, hzero, Nat.zero_min, Nat.max_zero]
  cases hleft : s.flags.left with
  | true =>
    have hnone : s.zeroPadded = false := by
      rw [Spec.zeroPadded, hleft, Bool.not_true, Bool.and_false, Bool.false_and]
    rw [hnone]
    rfl
  | false => rfl

theorem places_eq (k : IntegerSpecifier) {s : Spec} (value : ℤ)
    (hprec : s.flags.precision = false → s.precision = 0) : k.places s value =
      if k.prefixed s value ∧ s.flags.precision = false ∧ k.leading s value = k.width s value then
        if 2 ≤ k.leading s value ∧ k.base = 16 then k.leading s value - 2
        else k.leading s value - 1
      else k.leading s value := by
  have hspec := workFlags_spec k s value
  have hbase : BitVec.ofNat 32 k.base = 16 ↔ k.base = 16 := by cases k <;> decide
  have hroom : (k.workFlags s value).hash ∧ !(k.workFlags s value).precision ∧
      k.leading s value ≠ 0 ∧
        (k.leading s value = s.precision ∨ k.leading s value = k.width s value) ↔
      k.prefixed s value ∧ s.flags.precision = false ∧ k.leading s value = k.width s value := by
    rw [hspec.hash, hspec.precision, Bool.not_eq_true']
    refine and_congr_right fun hpre => ?_
    have hvalue : value ≠ 0 := by
      simp only [IntegerSpecifier.prefixed, Bool.and_eq_true, decide_eq_true_eq] at hpre
      exact hpre.2
    have hpos := leading_pos (k := k) (s := s) hvalue
    refine and_congr_right fun hp => ?_
    rw [hprec hp]
    omega
  show places _ _ (k.width s value) _ (leadingLength _ (k.width s value) _ _) = _
  rw [leadingLength_eq k value hprec, places]
  simp only [hroom, hbase]

/-! ### The values that are kept -/

/-- **When the value can be read back.** `stated` is the precision the directive states. -/
structure ValueKept (k : IntegerSpecifier) (stated : Option ℕ) (s : Spec) (value : ℤ) : Prop where
  /-- The buffer has room for 32 binary digits. -/
  binary : k.base = 2 → value.natAbs < 2 ^ 32
  /-- Digits are given up for the prefix when they fill the width, not counting padding zeros. -/
  prefixRoom : k.prefixed s value → s.flags.precision = false →
    s.width ≠ k.digitCount value ∧
      (k.base = 16 → s.zeroPadded → s.width ≠ k.digitCount value + 1)
  /-- With 31 characters in the buffer, the letter of the prefix loses its zero. -/
  letter : k.prefixed s value → k.letter ≠ none →
    (s.flags.precision →
      (if s.flags.left then k.digitCount value else max (k.digitCount value) s.precision) ≠ 31) ∧
    (s.flags.precision = false → k.digitCount value = 31 → s.zeroPadded ∧ 32 < s.width) ∧
    (s.zeroPadded → k.base = 2 → s.width ≠ 32)
  /-- With 32, the sign is lost. -/
  minus : value < 0 → s.flags.left = false →
    (s.flags.precision → s.precision < 32) ∧ (s.zeroPadded → s.width ≤ 32)
  /-- With a precision, a 0 has the padding zeros only. -/
  zero : value = 0 → s.flags.precision → stated = some 0 ∨ s.flags.left = false ∧ s.precision ≠ 0
  /-- The minimum of `int` cannot be negated there. -/
  negation : value = -2 ^ 31 → s.flags.longLong || s.flags.long

theorem binary_iff {k : IntegerSpecifier} {value : ℤ} (harg : IsArgument k value) :
    (k.base = 2 → value.natAbs < 2 ^ 32) ↔ k.digitCount value ≤ ntoaBufferSize := by
  obtain ⟨-, h8, h10, h16⟩ := harg.digitCount_le
  have hiff := k.digitCount_le_iff value ntoaBufferSize
  rcases k.base_cases with h | h | h | h
  · rw [h] at hiff
    exact ⟨fun hlt => hiff.mpr (hlt h), fun hle _ => hiff.mp hle⟩
  · exact iff_of_true (fun h2 => by omega) (Nat.le_trans (h8 h) (by decide))
  · exact iff_of_true (fun h2 => by omega) (Nat.le_trans (h10 h) (by decide))
  · exact iff_of_true (fun h2 => by omega) (Nat.le_trans (h16 h) (by decide))

theorem prefixed_iff (k : IntegerSpecifier) (s : Spec) (value : ℤ) :
    k.prefixed s value = true ↔ s.flags.hash = true ∧ k.base ≠ 10 ∧ value ≠ 0 := by
  simp [IntegerSpecifier.prefixed, and_assoc]

/-- A prefixed number has no sign. -/
theorem width_of_prefixed {k : IntegerSpecifier} {s : Spec} {value : ℤ}
    (harg : IsArgument k value) (hpre : k.prefixed s value = true) :
    0 < value ∧ (k.workFlags s value).plus = false ∧ (k.workFlags s value).space = false ∧
      k.width s value = s.width := by
  obtain ⟨-, hbase, hvalue⟩ := (prefixed_iff k s value).mp hpre
  have hsigned : k.signed = false := by
    cases hs : k.signed with
    | false => rfl
    | true => exact absurd (IntegerSpecifier.base_of_signed hs) hbase
  have hpos : 0 < value := lt_of_le_of_ne (harg.nonneg hsigned) (Ne.symm hvalue)
  have hspec := workFlags_spec k s value
  have hplus : (k.workFlags s value).plus = false := by rw [hspec.plus, hsigned, Bool.and_false]
  have hspace : (k.workFlags s value).space = false := by rw [hspec.space, hsigned, Bool.and_false]
  refine ⟨hpos, hplus, hspace, ?_⟩
  rw [IntegerSpecifier.width, digitsWidth, decide_eq_false (Int.not_lt.mpr (Int.le_of_lt hpos)),
    hplus, hspace]
  simp

/-- What a prefixed number asks for. -/
theorem valueKept_iff_of_prefixed {k : IntegerSpecifier} {s : Spec} {value : ℤ}
    {stated : Option ℕ} (harg : IsArgument k value) (hpre : k.prefixed s value = true) :
    ValueKept k stated s value ↔ k.digitCount value ≤ ntoaBufferSize ∧
      (s.flags.precision = false → s.width ≠ k.digitCount value ∧
        (k.base = 16 → s.zeroPadded → s.width ≠ k.digitCount value + 1)) ∧
      (k.base ≠ 8 →
        (s.flags.precision →
          (if s.flags.left then k.digitCount value else max (k.digitCount value) s.precision) ≠ 31) ∧
        (s.flags.precision = false → k.digitCount value = 31 → s.zeroPadded ∧ 32 < s.width) ∧
        (s.zeroPadded → k.base = 2 → s.width ≠ 32)) := by
  obtain ⟨-, hbase, hvalue⟩ := (prefixed_iff k s value).mp hpre
  have hpos := (width_of_prefixed harg hpre).1
  rw [← binary_iff harg]
  constructor
  · intro h
    refine ⟨h.binary, h.prefixRoom hpre, fun h8 => h.letter hpre ?_⟩
    rw [Ne, k.letter_eq_none_iff]
    exact not_or.mpr ⟨h8, hbase⟩
  · rintro ⟨hbinary, hroom, hlett⟩
    refine ⟨hbinary, fun _ => hroom, fun _ hl => hlett ?_, ?_, ?_, ?_⟩
    · intro h8
      exact hl (k.letter_eq_none_iff.mpr (.inl h8))
    · intro hneg
      exact absurd hpos (Int.not_lt.mpr (Int.le_of_lt hneg))
    · intro hzero
      exact absurd hzero hvalue
    · intro hmin
      rw [hmin] at hpos
      exact absurd hpos (by decide)

theorem keeps_iff_of_prefixed {k : IntegerSpecifier} {s : Spec} {value : ℤ} {stated : Option ℕ}
    (harg : IsArgument k value) (hprec : s.flags.precision = false → s.precision = 0)
    (hpre : k.prefixed s value = true) :
    (k.digitCount value ≤ k.places s value ∧
      (k.letter ≠ none → k.places s value + 1 ≠ ntoaBufferSize)) ↔
      ValueKept k stated s value := by
  obtain ⟨-, -, -, hwidth⟩ := width_of_prefixed harg hpre
  obtain ⟨-, hbase, hvalue⟩ := (prefixed_iff k s value).mp hpre
  obtain ⟨-, h8, -, h16⟩ := harg.digitCount_le
  have hn := k.digitCount_pos hvalue
  have hcases := k.base_cases
  have hsize : ntoaBufferSize = 32 := rfl
  have hletter : k.letter ≠ none ↔ k.base ≠ 8 := by
    rw [Ne, k.letter_eq_none_iff, or_iff_left hbase]
  rw [valueKept_iff_of_prefixed harg hpre, hletter, places_eq k value hprec, hwidth]
  cases hp : s.flags.precision with
  | true =>
    -- nothing is given up for the prefix
    rw [if_neg (fun h => Bool.noConfusion h.2.1), leading_of_precision k hvalue hp]
    have hnone : s.zeroPadded = false := by
      rw [Spec.zeroPadded, hp, Bool.not_true, Bool.and_false]
    simp only [hnone, Bool.false_eq_true, reduceCtorEq, false_imp_iff, true_imp_iff, and_true,
      true_and]
    split <;> omega
  | false =>
    obtain ⟨m, hm⟩ : ∃ m, m = min (k.digitCount value) ntoaBufferSize := ⟨_, rfl⟩
    rw [leading_of_no_precision k hvalue (hprec hp), hwidth, ← hm]
    simp only [hpre, true_and, true_imp_iff, Bool.false_eq_true, false_imp_iff]
    cases hpad : s.zeroPadded with
    | false =>
      simp only [Bool.false_eq_true, if_false, false_imp_iff, false_and, and_true, implies_true,
        imp_false]
      split_ifs <;> omega
    | true =>
      simp only [if_true, true_imp_iff, true_and]
      split_ifs <;> omega

/-- The minus takes a place of padding zeros. -/
theorem width_of_neg {k : IntegerSpecifier} {s : Spec} {value : ℤ} (hneg : value < 0) :
    k.width s value = if s.zeroPadded then s.width - 1 else s.width := by
  have hspec := workFlags_spec k s value
  rw [IntegerSpecifier.width, digitsWidth, hspec.left, hspec.zeropad, decide_eq_true hneg,
    Spec.zeroPadded]
  cases s.flags.left <;> cases s.flags.zeropad <;> cases s.flags.precision <;> simp
  omega

theorem keeps_iff_of_not_prefixed {k : IntegerSpecifier} {s : Spec} {value : ℤ}
    {stated : Option ℕ} (harg : IsArgument k value)
    (hmin : value = -2 ^ 31 → s.flags.longLong || s.flags.long)
    (hprec : s.flags.precision = false → s.precision = 0) (hpre : k.prefixed s value = false) :
    (k.digitCount value ≤ k.places s value ∧ (value < 0 → k.places s value < ntoaBufferSize) ∧
      (value = 0 → stated ≠ some 0 → k.places s value ≠ 0)) ↔ ValueKept k stated s value := by
  obtain ⟨h64, -, h10, -⟩ := harg.digitCount_le
  have hbin := binary_iff harg
  have hnot : ¬k.prefixed s value = true := by rw [hpre]; exact Bool.false_ne_true
  have hkept : ValueKept k stated s value ↔ k.digitCount value ≤ ntoaBufferSize ∧
      (value < 0 → s.flags.left = false →
        (s.flags.precision → s.precision < 32) ∧ (s.zeroPadded → s.width ≤ 32)) ∧
      (value = 0 → s.flags.precision → stated = some 0 ∨ s.flags.left = false ∧ s.precision ≠ 0) := by
    rw [← hbin]
    constructor
    · exact fun h => ⟨h.binary, h.minus, h.zero⟩
    · rintro ⟨hbinary, hminus, hzero⟩
      exact ⟨hbinary, fun h => absurd h hnot, fun h => absurd h hnot, hminus, hzero, hmin⟩
  have hplaces : k.places s value = k.leading s value := by
    rw [places_eq k value hprec, if_neg (fun h => hnot h.1)]
  rw [hkept, hplaces]
  rcases lt_trichotomy value 0 with hneg | rfl | hpos
  · have hsigned : k.signed = true := by
      by_contra h
      exact absurd (harg.nonneg (eq_false_of_ne_true h)) (Int.not_le.mpr hneg)
    have hn := h10 (IntegerSpecifier.base_of_signed hsigned)
    have hwidth := width_of_neg (k := k) (s := s) hneg
    rw [IntegerSpecifier.leading, if_neg (Int.ne_of_lt hneg), hwidth, Spec.zeroPadded]
    simp only [ntoaBufferSize]
    cases hp : s.flags.precision with
    | true => cases hleft : s.flags.left <;> simp <;> omega
    | false =>
      have hzero := hprec hp
      cases hleft : s.flags.left <;> cases hpad : s.flags.zeropad <;> simp [hzero] <;> omega
  · -- the 0 of a conversion with a precision comes from the padding
    rw [IntegerSpecifier.leading, if_pos rfl, k.digitCount_zero, Spec.zeroPadded]
    simp only [ntoaBufferSize]
    by_cases hstated : stated = some 0
    · simp [hstated]
    cases hp : s.flags.precision with
    | true => cases hleft : s.flags.left <;> simp [hstated]
    | false => cases hleft : s.flags.left <;> cases hpad : s.flags.zeropad <;> simp
  · have hle : min (k.digitCount value) ntoaBufferSize ≤ k.leading s value := by
      rw [IntegerSpecifier.leading, if_neg (Int.ne_of_gt hpos)]
      split
      · exact Nat.le_refl _
      split
      · exact Nat.le_max_left _ _
      · exact Nat.le_max_left _ _
    have hle' : k.leading s value ≤ ntoaBufferSize := by
      rw [← leadingLength_eq k value hprec]
      exact (leadingLength_le _ _ _ (digitsLength_le _ _ _)).2
    omega

/-- The conditions of reading a text back, for the places the conversion has. -/
theorem keeps_iff {k : IntegerSpecifier} {s : Spec} {value : ℤ} {stated : Option ℕ}
    (harg : IsArgument k value) (hmin : value = -2 ^ 31 → s.flags.longLong || s.flags.long)
    (hprec : s.flags.precision = false → s.precision = 0) :
    (value.natAbs % k.base ^ k.places s value = value.natAbs ∧
      ((k.workFlags s value).hash = true → k.letter ≠ none →
        k.places s value + 1 ≠ ntoaBufferSize) ∧
      (value < 0 → k.places s value < ntoaBufferSize) ∧
      (value = 0 → stated ≠ some 0 → k.places s value ≠ 0)) ↔ ValueKept k stated s value := by
  rw [mod_pow_eq_self_iff k.two_le_base, (workFlags_spec k s value).hash]
  cases hpre : k.prefixed s value with
  | true =>
    have hpos := (width_of_prefixed harg hpre).1
    rw [← keeps_iff_of_prefixed harg hprec hpre]
    constructor
    · exact fun h => ⟨h.1, h.2.1 rfl⟩
    · exact fun h => ⟨h.1, fun _ => h.2, fun hneg => absurd hpos (Int.not_lt.mpr (Int.le_of_lt hneg)),
        fun hzero => absurd hzero (Int.ne_of_gt hpos)⟩
  | false =>
    rw [← keeps_iff_of_not_prefixed harg hmin hprec hpre]
    constructor
    · exact fun h => ⟨h.1, h.2.2⟩
    · exact fun h => ⟨h.1, fun hfalse => Bool.noConfusion hfalse, h.2⟩

/-- The directive outputs a text that is read back as its argument. -/
def ReadsBack (d : Directive) (k : IntegerSpecifier) (va : List Arg) (a : Arg) : Prop :=
  ∃ s va', (∀ rest, scanDirective (d.bytesBefore rest) va = some (s, k.byte :: rest, a :: va')) ∧
    ∃ text, (∀ (σ : Type) (out : OutFct σ) (maxlen : ℕ) (o : Cursor σ),
        outInteger out maxlen k.byte s a o = some (emit out maxlen text o)) ∧
      ∃ p, Denotes k (d.precision.stated (va.drop d.width.kinds.length) = some 0)
        (argumentValue d.length k a) text p

theorem readsBack_iff_denotes {d : Directive} {k : IntegerSpecifier}
    (hd : d.specifier = .integer k) {va va' : List Arg} {a : Arg} {s : Spec}
    (hres : d.resolve va = some (s, a :: va')) :
    ReadsBack d k va a ↔ ∃ p, Denotes k
      (d.precision.stated (va.drop d.width.kinds.length) = some 0) (argumentValue d.length k a)
      (integerText k.byte s a) p := by
  have hscan : ∀ rest, scanDirective (d.bytesBefore rest) va =
      some (s, k.byte :: rest, a :: va') := by
    intro rest
    have hread := Directive.scan_of_resolve hres rest
    rw [hd] at hread
    exact hread
  constructor
  · rintro ⟨s', va₂, hscan', text, hout, hp⟩
    obtain ⟨rfl, -⟩ := Prod.mk.inj (Option.some.inj ((hscan []).symm.trans (hscan' [])))
    have hrec := (outInteger_eq_emit record 0 k.byte s a ⟨0, []⟩).symm.trans
      (hout _ record 0 ⟨0, []⟩)
    rw [emit_record_inj (Option.some.inj hrec)]
    exact hp
  · intro hp
    refine ⟨s, va', hscan, integerText k.byte s a, ?_, hp⟩
    exact fun σ out maxlen o => outInteger_eq_emit out maxlen k.byte s a o

/-- The last digits give the overflowed negation away, however many there are. -/
theorem overflow_mod_ne (places : ℕ) : (2 ^ 64 - 2 ^ 31) % 10 ^ places ≠ 2 ^ 31 := by
  rcases Nat.lt_or_ge places 3 with hfew | hmany
  · have hlt : (2 ^ 64 - 2 ^ 31) % 10 ^ places < 10 ^ 3 :=
      Nat.lt_of_lt_of_le (Nat.mod_lt _ (Nat.pow_pos (by decide)))
        (Nat.pow_le_pow_right (by decide) (Nat.le_of_lt hfew))
    omega
  · intro heq
    have hlow := Nat.mod_mod_of_dvd (2 ^ 64 - 2 ^ 31) (Nat.pow_dvd_pow 10 hmany)
    rw [heq] at hlow
    exact absurd hlow (by decide)

/-- The minimum of `int` is not read back. -/
theorem not_denotes_of_overflow {k : IntegerSpecifier} {len : Length} {s : Spec} {a : Arg}
    (h : LengthFlags len s.flags) (hover : NegationOverflows len k a) {noDigits : Prop}
    {p : Parts} : ¬Denotes k noDigits (argumentValue len k a) (integerText k.byte s a) p := by
  intro hp
  have hprinted : printedValue len k a = -(2 ^ 64 - 2 ^ 31) := if_pos hover
  have hhash : (k.workFlags s (printedValue len k a)).hash = true → k.base ≠ 10 := by
    intro hh
    rw [(workFlags_spec k s _).hash] at hh
    exact ((prefixed_iff k s _).mp hh).2.1
  have hdigits := hp.value_filter
  rw [integerText_eq k h rfl, ← (workFlags_spec k s (printedValue len k a)).left,
    IntegerSpecifier.core, ← coreParts_text, value_filter_text (coreParts_sign_mem ..)
      (coreParts_pre_mem _ _ hhash) (coreParts_isDigit k _ _ _ _), coreParts_value, hover.base,
    hover.2, hprinted] at hdigits
  exact overflow_mod_ne _ hdigits

/-- `%d` of -2147483648. -/
example : integerText (ch 'd') ⟨{}, 0, 0⟩ ⟨0x80000000, []⟩ =
    "-18446744071562067968".toList.map ch := by decide

/-- **Integers are read back** if and only if the argument can be negated, no digit is cut off or
given up for the prefix, the prefix and the sign fit, and a 0 gets its digit. -/
theorem readsBack_iff {d : Directive} {k : IntegerSpecifier} (hd : d.specifier = .integer k)
    {va va' : List Arg} {a : Arg} {s : Spec} (hres : d.resolve va = some (s, a :: va')) :
    ReadsBack d k va a ↔ ValueKept k (d.precision.stated (va.drop d.width.kinds.length)) s
      (argumentValue d.length k a) := by
  obtain ⟨hlength, hprec⟩ := Directive.resolve_fields hres
  rw [readsBack_iff_denotes hd hres]
  by_cases hover : NegationOverflows d.length k a
  · refine iff_of_false (fun ⟨p, hp⟩ => not_denotes_of_overflow hlength hover hp) fun hkept => ?_
    have hlong := hkept.negation hover.2
    rw [hlength.long, decide_eq_true_iff] at hlong
    exact hover.1 hlong
  obtain ⟨value, hvalue⟩ : ∃ value, value = argumentValue d.length k a := ⟨_, rfl⟩
  have harg : IsArgument k value := hvalue ▸ isArgument_argumentValue d.length k a
  have hprinted : value = printedValue d.length k a := hvalue.trans (printedValue_eq hover).symm
  have hmin : value = -2 ^ 31 → s.flags.longLong || s.flags.long := by
    intro heq
    rw [hlength.long, decide_eq_true_iff]
    by_contra hbits
    exact hover ⟨hbits, hvalue ▸ heq⟩
  have hhash : (k.workFlags s value).hash = true → k.base ≠ 10 ∧
      (k.workFlags s value).plus = false ∧ (k.workFlags s value).space = false ∧ 0 < value := by
    intro h
    have hpre := (workFlags_spec k s value).hash.symm.trans h
    obtain ⟨hpos, hplus, hspace, -⟩ := width_of_prefixed harg hpre
    exact ⟨((prefixed_iff k s value).mp hpre).2.1, hplus, hspace, hpos⟩
  have hmissing : d.precision.stated (va.drop d.width.kinds.length) = some 0 → value = 0 →
      k.places s value = 0 := by
    intro hstated hzero
    obtain ⟨hflag, hprec', -⟩ := Directive.resolve_stated hres hstated
    rw [places_eq k value hprec, if_neg (by rw [hflag]; exact fun h => Bool.noConfusion h.2.1),
      IntegerSpecifier.leading, if_pos hzero, hflag, hprec']
    simp [Spec.zeroPadded, hflag]
  rw [← hvalue, ← keeps_iff harg hmin hprec, integerText_eq k hlength hprinted,
    ← (workFlags_spec k s value).left]
  exact denotes_iff k hhash hmissing

/-- `%-#10lx` of 57005. -/
theorem readsBack_iff_left :
    ReadsBack ⟨[.minus, .hash], .number 0 [0], .none, .l, .integer .x⟩ .x [⟨57005, []⟩]
        ⟨57005, []⟩ ↔
      ValueKept .x none ⟨{ left := true, hash := true, long := true }, 10, 0⟩
        (argumentValue .l .x ⟨57005, []⟩) := by
  have hres : Directive.resolve ⟨[.minus, .hash], .number 0 [0], .none, .l, .integer .x⟩
      [⟨57005, []⟩] =
        some (⟨{ left := true, hash := true, long := true }, 10, 0⟩, [⟨57005, []⟩]) := rfl
  exact readsBack_iff rfl hres

/-- `%#1x` of 5 is `0x`. -/
theorem prefix_of_width_not_read_back :
    ¬ReadsBack { flags := [.hash], width := .number 0 [], specifier := .integer .x } .x
      [⟨5, []⟩] ⟨5, []⟩ := by
  intro h
  have hres : Directive.resolve
      { flags := [.hash], width := .number 0 [], specifier := .integer .x } [⟨5, []⟩] =
        some (⟨{ hash := true }, 1, 0⟩, [⟨5, []⟩]) := rfl
  obtain ⟨p, hp⟩ := (readsBack_iff_denotes rfl hres).mp h
  have htext : integerText IntegerSpecifier.x.byte ⟨{ hash := true }, 1, 0⟩ ⟨5, []⟩ =
      [ch '0', ch 'x'] := by decide
  have hdigits := hp.value_filter
  rw [htext] at hdigits
  exact absurd hdigits (by decide)

end MegaOS.Log
