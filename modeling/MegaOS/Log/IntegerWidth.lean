import MegaOS.Log.ReadBack

/-!
# The width of an integer

What a width makes of the text an integer has without one: spaces on one of its
sides, or zeros behind the sign or prefix. The zeros are put into the conversion
buffer, which ends, and the places for the prefix are taken from them, or from
digits that are taken for zeros.
-/

namespace MegaOS.Log

open MegaOS.Memory MegaOS.Emission MegaOS.Numerals

/-! ### Padding -/

theorem padded_zero (left : Bool) (text : List Byte) : padded left 0 text = text := by
  cases left with
  | true => exact List.append_nil text
  | false => rfl

theorem length_padded (left : Bool) (n : ℕ) (text : List Byte) :
    (padded left n text).length = n + text.length := by
  cases left <;> simp [padded, Nat.add_comm]

theorem padded_inj (left : Bool) {m n : ℕ} (text : List Byte) :
    padded left m text = padded left n text ↔ m = n := by
  constructor
  · intro h
    have hlen := congrArg List.length h
    rw [length_padded, length_padded] at hlen
    exact Nat.add_right_cancel hlen
  · exact fun h => h ▸ rfl

/-! ### Numerals and signs in the buffer -/

theorem numeral_add {base n k : ℕ} (uppercase : Bool) (h : (base.digits n).length ≤ k) (j : ℕ) :
    numeral base uppercase n (k + j) =
      List.replicate j (ch '0') ++ numeral base uppercase n k := by
  rw [numeral, numeral, lowDigits_add h, List.map_append, List.map_replicate, digitCharOf_zero,
    List.reverse_append, List.reverse_replicate]

theorem isDigit_numeral (k : IntegerSpecifier) (uppercase : Bool) (n places : ℕ) :
    ∀ c ∈ numeral k.base uppercase n places, IsDigit digitValue k.base c :=
  isDigit_lowDigits k.two_le_base (digitValue_digitCharOf_of_lt k.base_le _) _ _

theorem length_prefixText {k : IntegerSpecifier} (hbase : k.base ≠ 10) {places : ℕ}
    (hplaces : places ≤ ntoaBufferSize) :
    (prefixText (BitVec.ofNat 32 k.base) true places).length =
      min k.prefixChars.length (ntoaBufferSize - places) := by
  cases hk : k.letter with
  | none =>
    obtain ⟨rfl, hpre⟩ := prefixText_of_octal hk hbase places
    have hlen : IntegerSpecifier.o.prefixChars.length = 1 := rfl
    rw [hpre, hlen]
    split
    · omega
    · rw [List.length_nil]
      omega
  | some c =>
    have hlen := k.length_prefixChars_of_letter c hk
    rw [prefixText_of_letter hk, hlen]
    split_ifs
    · omega
    · rw [List.length_singleton]
      omega
    · rw [List.length_nil]
      omega

theorem signChars_of_lt (negative : Bool) (flags : Flags) {n : ℕ} (hn : n < ntoaBufferSize) :
    signChars negative flags n = signChars negative flags 0 := by
  have hzero : 0 < ntoaBufferSize := by decide
  rw [signChars, signChars, if_pos hn, if_pos hzero]

theorem signChars_of_nil {negative : Bool} {flags : Flags}
    (h : signChars negative flags 0 = []) (n : ℕ) : signChars negative flags n = [] := by
  by_cases hn : n < ntoaBufferSize
  · rw [signChars_of_lt negative flags hn, h]
  · rw [signChars, if_neg hn]

theorem length_signChars (negative : Bool) (flags : Flags) :
    (signChars negative flags 0).length = if negative || flags.plus || flags.space then 1 else 0 := by
  have hzero : 0 < ntoaBufferSize := by decide
  rw [signChars, if_pos hzero]
  cases negative <;> cases flags.plus <;> cases flags.space <;> rfl

theorem length_signChars_le (negative : Bool) (flags : Flags) {n : ℕ} (hn : n ≤ ntoaBufferSize) :
    (signChars negative flags n).length + n ≤ ntoaBufferSize := by
  by_cases hlt : n < ntoaBufferSize
  · rw [signChars_of_lt negative flags hlt, length_signChars]
    split <;> omega
  · rw [signChars, if_neg hlt, List.length_nil]
    omega

/-- Padding zeros take the width the sign leaves. -/
theorem width_of_zeroPadded {k : IntegerSpecifier} {s : Spec} {value : ℤ}
    (hzero : s.zeroPadded = true) : k.width s value =
      s.width - (signChars (decide (value < 0)) (k.workFlags s value) 0).length := by
  have hspec := workFlags_spec k s value
  simp only [Spec.zeroPadded, Bool.and_eq_true, Bool.not_eq_true'] at hzero
  obtain ⟨⟨hpad, hleft⟩, hp⟩ := hzero
  rw [IntegerSpecifier.width, digitsWidth, length_signChars, hspec.left, hspec.zeropad, hpad, hleft,
    hp]
  cases decide (value < 0) || (k.workFlags s value).plus || (k.workFlags s value).space with
  | true =>
    simp
    omega
  | false => simp

theorem width_of_not_zeroPadded {k : IntegerSpecifier} {s : Spec} {value : ℤ}
    (hzero : s.zeroPadded = false) : k.width s value = s.width := by
  have hspec := workFlags_spec k s value
  rw [IntegerSpecifier.width, digitsWidth, hspec.left, hspec.zeropad]
  rw [Spec.zeroPadded] at hzero
  cases hl : s.flags.left <;> cases hz : s.flags.zeropad <;> cases hp : s.flags.precision <;>
    simp [hl, hz, hp] at hzero ⊢

theorem width_withoutWidth (k : IntegerSpecifier) (s : Spec) (value : ℤ) :
    k.width { s with width := 0 } value = 0 := by
  rw [IntegerSpecifier.width, digitsWidth]
  simp

/-- The places without a width. -/
theorem places_withoutWidth (k : IntegerSpecifier) {s : Spec} (value : ℤ)
    (hprec : s.flags.precision = false → s.precision = 0) :
    k.places { s with width := 0 } value = k.leading { s with width := 0 } value := by
  rw [places_eq (s := { s with width := 0 }) k value hprec]
  refine if_neg ?_
  rintro ⟨hpre, -, heq⟩
  have hvalue := ((prefixed_iff k _ value).mp hpre).2.2
  have hpos := leading_pos (k := k) (s := { s with width := 0 }) hvalue
  have hwidth := width_withoutWidth k s value
  omega

/-- A width adds zeros only. -/
theorem leading_eq (k : IntegerSpecifier) {s : Spec} (value : ℤ) :
    k.leading s value =
      if s.zeroPadded then
        max (k.leading { s with width := 0 } value) (min (k.width s value) ntoaBufferSize)
      else k.leading { s with width := 0 } value := by
  have hwidth := width_withoutWidth k s value
  cases hl : s.flags.left <;> cases hz : s.flags.zeropad <;> cases hp : s.flags.precision <;>
    simp [IntegerSpecifier.leading, hwidth, Spec.zeroPadded, hl, hz, hp]

/-! ### A prefix and its digits -/

/-- The text of a prefixed number in so many places. -/
def IntegerSpecifier.prefixedText (k : IntegerSpecifier) (uppercase : Bool) (n places : ℕ) :
    List Byte :=
  prefixText (BitVec.ofNat 32 k.base) true places ++ numeral k.base uppercase n places

theorem length_prefixedText {k : IntegerSpecifier} (hbase : k.base ≠ 10) (uppercase : Bool)
    (n places : ℕ) (hplaces : places ≤ ntoaBufferSize) :
    (k.prefixedText uppercase n places).length =
      min k.prefixChars.length (ntoaBufferSize - places) + places := by
  rw [IntegerSpecifier.prefixedText, List.length_append, length_prefixText hbase hplaces,
    length_numeral]

/-- The binary prefix loses its zero in the last place but one, and its letter in the last. -/
theorem head_prefixedText_binary (uppercase : Bool) (n places : ℕ) :
    (IntegerSpecifier.b.prefixedText uppercase n places).head? = some (ch 'b') ↔
      places + 1 = ntoaBufferSize := by
  have hpre := prefixText_of_letter (k := .b) rfl places
  rw [IntegerSpecifier.prefixedText, hpre]
  by_cases hzero : places + 1 < ntoaBufferSize
  · rw [if_pos hzero]
    exact iff_of_false (by show ¬some (ch '0') = some (ch 'b'); decide) (by omega)
  by_cases hletter : places < ntoaBufferSize
  · rw [if_neg hzero, if_pos hletter]
    exact iff_of_true rfl (by omega)
  · rw [if_neg hzero, if_neg hletter, List.nil_append]
    refine iff_of_false ?_ (by omega)
    intro hhead
    have hmem := isDigit_numeral .b uppercase n places _ (List.mem_of_mem_head? hhead)
    exact absurd hmem (by decide)

/-- Digits given up for the prefix show. -/
theorem prefixedText_ne {k : IntegerSpecifier} (hbase : k.base ≠ 10) (uppercase : Bool) (n : ℕ)
    {places places' : ℕ} (hlt : places < places') (hle : places' ≤ ntoaBufferSize)
    (hsmall : k.base ≠ 2 → places' + 2 ≤ ntoaBufferSize)
    (hone : k.base = 2 → places + 1 = places') :
    k.prefixedText uppercase n places ≠ k.prefixedText uppercase n places' := by
  intro heq
  have hlen := congrArg List.length heq
  rw [length_prefixedText hbase uppercase n places (by omega),
    length_prefixedText hbase uppercase n places' hle]
    at hlen
  have hpre : k.prefixChars.length ≤ 2 := by cases k <;> decide
  have htwo : k.base = 2 := by
    by_contra h
    have := hsmall h
    omega
  -- the lengths agree at the end of the buffer only, and there the heads differ
  have hb : k = .b := by
    cases k with
    | b => rfl
    | _ => exact absurd htwo (by decide)
  subst hb
  have hstep := hone htwo
  have hlast : ntoaBufferSize ≤ places + 2 := by omega
  have hsize : ntoaBufferSize = 32 := rfl
  have hhead := head_prefixedText_binary uppercase n places
  have hhead' := head_prefixedText_binary uppercase n places'
  rw [heq] at hhead
  have hiff := hhead.symm.trans hhead'
  omega

/-! ### The law of the width -/

/-- `n` zeros between the sign or prefix and the digits. -/
def ZeroExtended (k : IntegerSpecifier) (n : ℕ) (text text' : List Byte) : Prop :=
  ∃ sign pre digits, sign ∈ signs ∧ (pre = [] ∨ pre = k.prefixChars) ∧
    (∀ c ∈ digits, IsDigit digitValue k.base c) ∧ text = sign ++ (pre ++ digits) ∧
    text' = sign ++ (pre ++ (List.replicate n (ch '0') ++ digits))

/-- The text with a width, by the one without. -/
def IntegerExtended (k : IntegerSpecifier) (s : Spec) (text text' : List Byte) : Prop :=
  if s.zeroPadded then
    if text.length < s.width then ZeroExtended k (s.width - text.length) text text'
    else text' = text
  else text' = padded s.flags.left (s.width - text.length) text

theorem ZeroExtended.length {k : IntegerSpecifier} {n : ℕ} {text text' : List Byte}
    (h : ZeroExtended k n text text') : text'.length = n + text.length := by
  obtain ⟨sign, pre, digits, -, -, -, rfl, rfl⟩ := h
  simp only [List.length_append, List.length_replicate]
  omega

theorem IntegerExtended.length {k : IntegerSpecifier} {s : Spec} {text text' : List Byte}
    (h : IntegerExtended k s text text') : text'.length = max s.width text.length := by
  rw [IntegerExtended] at h
  split at h
  · split at h
    · rw [h.length]
      omega
    · rw [h]
      omega
  · rw [h, length_padded]
    omega

/-- A text that meets the width stays as it is. -/
theorem IntegerExtended.eq_of_le {k : IntegerSpecifier} {s : Spec} {text text' : List Byte}
    (h : IntegerExtended k s text text') (hle : s.width ≤ text.length) : text' = text := by
  rw [IntegerExtended] at h
  split at h
  · rwa [if_neg (Nat.not_lt.mpr hle)] at h
  · rw [h, Nat.sub_eq_zero_of_le hle, padded_zero]

/-- Zeros behind the sign or the prefix extend the text to its width. -/
theorem extended_of_front {k : IntegerSpecifier} {s : Spec} (hzero : s.zeroPadded = true)
    {sign pre : List Byte} (hsign : sign ∈ signs) (hpre : pre = [] ∨ pre = k.prefixChars)
    (uppercase : Bool) {n p q : ℕ} (hq : q = max p (s.width - (sign.length + pre.length)))
    (hn : p < q → (k.base.digits n).length ≤ p) :
    IntegerExtended k s (sign ++ (pre ++ numeral k.base uppercase n p))
      (sign ++ (pre ++ numeral k.base uppercase n q)) := by
  have hlen : (sign ++ (pre ++ numeral k.base uppercase n p)).length =
      sign.length + (pre.length + p) := by
    rw [List.length_append, List.length_append, length_numeral]
  rw [IntegerExtended, if_pos hzero, hlen]
  split
  · have hmore : q = p + (s.width - (sign.length + (pre.length + p))) := by omega
    refine ⟨sign, pre, _, hsign, hpre, isDigit_numeral k uppercase n p, rfl, ?_⟩
    rw [← numeral_add _ (hn (by omega)), ← hmore]
  · have hsame : q = p := by omega
    rw [hsame]

/-- No letter comes first. -/
theorem ZeroExtended.head {k : IntegerSpecifier} {n : ℕ} {text text' : List Byte}
    (h : ZeroExtended k n text text') (hn : 0 < n) : text'.head? ≠ some (ch 'b') := by
  obtain ⟨sign, pre, digits, hsign, hpre, -, -, rfl⟩ := h
  obtain ⟨n, rfl⟩ := Nat.exists_eq_succ_of_ne_zero (Nat.pos_iff_ne_zero.mp hn)
  simp only [signs, List.mem_cons, List.not_mem_nil, or_false] at hsign
  rcases hsign with rfl | rfl | rfl | rfl
  · rcases hpre with rfl | rfl
    · show some (ch '0') ≠ _
      decide
    · cases k <;> exact (by decide : some (ch '0') ≠ some (ch 'b'))
  · show some (ch '-') ≠ _
    decide
  · show some (ch '+') ≠ _
    decide
  · show some (ch ' ') ≠ _
    decide

/-- **When an integer meets its width.** -/
structure WidthRoom (k : IntegerSpecifier) (s : Spec) (value : ℤ) : Prop where
  /-- Padding zeros end with the buffer. -/
  zeros : s.zeroPadded → s.width ≤ 32
  /-- Places are given up for a prefix where the width is met already: all of them by digits, or
  some by padding zeros, and then as many as the prefix has characters but for the binary one. -/
  prefixRoom : k.prefixed s value → s.flags.precision = false →
    s.width ≠ min (k.digitCount value) 32 ∧
      (s.zeroPadded → (k.base = 16 → s.width ≠ k.digitCount value + 1) ∧
        (k.base = 2 → s.width ≤ min (k.digitCount value) 32 + 1))

theorem core_eq_of_prefixed {k : IntegerSpecifier} {s : Spec} {value : ℤ}
    (harg : IsArgument k value) (hpre : k.prefixed s value = true) :
    k.core s value =
      k.prefixedText (k.workFlags s value).uppercase value.natAbs (k.places s value) := by
  obtain ⟨hpos, hplus, hspace, -⟩ := width_of_prefixed harg hpre
  have hsign := coreParts_sign_of_hash (k := k) 0 (k.places s value) hplus hspace hpos
  have hhash : (k.workFlags s value).hash = true := (workFlags_spec k s value).hash.trans hpre
  show (coreParts k value (k.workFlags s value) 0 (k.places s value)).sign ++
    (prefixText _ (k.workFlags s value).hash _ ++ _) = _
  rw [hsign, hhash]
  rfl

theorem core_eq_of_not_prefixed {k : IntegerSpecifier} {s : Spec} {value : ℤ}
    (hpre : k.prefixed s value = false) : k.core s value =
      signChars (decide (value < 0)) (k.workFlags s value) (k.places s value) ++
        numeral k.base (k.workFlags s value).uppercase value.natAbs (k.places s value) := by
  have hhash : (k.workFlags s value).hash = false := (workFlags_spec k s value).hash.trans hpre
  rw [IntegerSpecifier.core, ntoaCore, hhash]
  rfl

theorem places_le_size (k : IntegerSpecifier) (s : Spec) (value : ℤ) :
    k.places s value ≤ ntoaBufferSize := by
  refine Nat.le_trans (places_le _ _ _ _ _) ?_
  exact (leadingLength_le _ _ _ (digitsLength_le _ _ _)).2

theorem length_core_le {k : IntegerSpecifier} {s : Spec} {value : ℤ} (harg : IsArgument k value) :
    (k.core s value).length ≤ ntoaBufferSize := by
  have hplaces := places_le_size k s value
  cases hpre : k.prefixed s value with
  | true =>
    have hbase := ((prefixed_iff k s value).mp hpre).2.1
    rw [core_eq_of_prefixed harg hpre, length_prefixedText hbase _ _ _ hplaces]
    omega
  | false =>
    rw [core_eq_of_not_prefixed hpre, List.length_append, length_numeral]
    exact length_signChars_le _ _ hplaces

/-- In the same places, the text is the same but for spaces. -/
theorem extended_of_places {k : IntegerSpecifier} {s : Spec} {value : ℤ}
    (hzero : s.zeroPadded = false)
    (hplaces : k.places s value = k.places { s with width := 0 } value) :
    IntegerExtended k s (k.core { s with width := 0 } value)
      (padded s.flags.left (if s.zeroPadded then 0 else k.width s value - (k.core s value).length)
        (k.core s value)) := by
  have hcore : k.core s value = k.core { s with width := 0 } value := by
    rw [IntegerSpecifier.core, hplaces]
    rfl
  rw [IntegerExtended, hzero, if_neg Bool.false_ne_true, if_neg Bool.false_ne_true, hcore,
    width_of_not_zeroPadded hzero]

theorem leading_of_not_zeroPadded {k : IntegerSpecifier} {s : Spec} (value : ℤ)
    (hzero : s.zeroPadded = false) :
    k.leading s value = k.leading { s with width := 0 } value := by
  rw [leading_eq, hzero, if_neg Bool.false_ne_true]

/-- The places of a zero-padded integer without a width. -/
theorem leading_withoutWidth (k : IntegerSpecifier) {s : Spec} (value : ℤ)
    (hzero : s.zeroPadded = true) : k.leading { s with width := 0 } value =
      if value = 0 then 1 else min (k.digitCount value) ntoaBufferSize := by
  have hwidth := width_withoutWidth k s value
  simp only [Spec.zeroPadded, Bool.and_eq_true, Bool.not_eq_true'] at hzero
  obtain ⟨⟨hpad, hleft⟩, hp⟩ := hzero
  simp [IntegerSpecifier.leading, hwidth, Spec.zeroPadded, hpad, hleft, hp]

/-- Only signed conversions have a sign. -/
theorem signed_of_signChars {k : IntegerSpecifier} {s : Spec} {value : ℤ}
    (harg : IsArgument k value)
    (h : signChars (decide (value < 0)) (k.workFlags s value) 0 ≠ []) : k.signed = true := by
  by_contra hsigned
  have hfalse := eq_false_of_ne_true hsigned
  have hspec := workFlags_spec k s value
  have hpos := harg.nonneg hfalse
  apply h
  rw [← List.length_eq_zero_iff, length_signChars, hspec.plus, hspec.space, hfalse,
    decide_eq_false (Int.not_lt.mpr hpos)]
  simp

theorem extended_iff_of_not_prefixed {k : IntegerSpecifier} {s : Spec} {value : ℤ}
    (harg : IsArgument k value) (hprec : s.flags.precision = false → s.precision = 0)
    (hpre : k.prefixed s value = false) :
    IntegerExtended k s (k.core { s with width := 0 } value)
      (padded s.flags.left (if s.zeroPadded then 0 else k.width s value - (k.core s value).length)
        (k.core s value)) ↔ (s.zeroPadded → s.width ≤ 32) := by
  have hplaces₀ := places_withoutWidth k value hprec
  have hplaces : k.places s value = k.leading s value := by
    rw [places_eq k value hprec, if_neg (fun h => Bool.false_ne_true (hpre.symm.trans h.1))]
  have hcore₀ := core_eq_of_not_prefixed (s := { s with width := 0 }) hpre
  have hcore := core_eq_of_not_prefixed (s := s) hpre
  have hflags : k.workFlags { s with width := 0 } value = k.workFlags s value := rfl
  rw [hplaces₀, hflags] at hcore₀
  rw [hplaces, leading_eq] at hcore
  cases hzero : s.zeroPadded with
  | false =>
    refine iff_of_true ?_ (fun h => Bool.noConfusion h)
    have hsame := hplaces.trans ((leading_of_not_zeroPadded value hzero).trans hplaces₀.symm)
    have hextended := extended_of_places hzero hsame
    rw [hzero] at hextended
    exact hextended
  | true =>
    rw [if_pos rfl, padded_zero, imp_iff_right rfl]
    constructor
    · intro h
      have hlen := h.length
      have hle := length_core_le (s := s) harg
      have hsize : ntoaBufferSize = 32 := rfl
      omega
    · intro hw
      obtain ⟨c, hc⟩ : ∃ c, c = signChars (decide (value < 0)) (k.workFlags s value) 0 := ⟨_, rfl⟩
      obtain ⟨p, hp⟩ : ∃ p, p = k.leading { s with width := 0 } value := ⟨_, rfl⟩
      have hp' := hp.trans (leading_withoutWidth k value hzero)
      rw [hzero, if_pos rfl, width_of_zeroPadded hzero, ← hc, ← hp] at hcore
      rw [← hp] at hcore₀
      have hsize : ntoaBufferSize = 32 := rfl
      have hfit : ∀ m ≤ max p (s.width - c.length),
          signChars (decide (value < 0)) (k.workFlags s value) m = c := by
        intro m hm
        by_cases hnil : c = []
        · rw [signChars_of_nil (hc.symm.trans hnil), hnil]
        · have hten := harg.digitCount_le.2.2.1
            (IntegerSpecifier.base_of_signed (signed_of_signChars harg (hc ▸ hnil)))
          have hpos : 0 < c.length := List.length_pos_iff.mpr hnil
          rw [hc, signChars_of_lt]
          split at hp' <;> omega
      have hlast : min (s.width - c.length) ntoaBufferSize = s.width - c.length := by omega
      have hdigits : p < max p (s.width - c.length) →
          (k.base.digits value.natAbs).length ≤ p := by
        intro hlt
        by_cases hvalue : value = 0
        · rw [hvalue, Int.natAbs_zero, Nat.digits_zero]
          exact Nat.zero_le p
        · rw [if_neg hvalue] at hp'
          show k.digitCount value ≤ p
          omega
      rw [hlast, hfit _ (Nat.le_refl _)] at hcore
      rw [hfit p (Nat.le_max_left _ _)] at hcore₀
      rw [hcore, hcore₀]
      exact extended_of_front hzero (hc ▸ signChars_mem _ _ _) (.inl rfl) _ rfl hdigits

/-- The places of a prefixed number without a precision. -/
theorem places_of_prefixed {k : IntegerSpecifier} {s : Spec} {value : ℤ}
    (harg : IsArgument k value) (hpre : k.prefixed s value = true)
    (hp : s.flags.precision = false) (hzero : s.precision = 0) {m : ℕ}
    (hm : m = min (k.digitCount value) ntoaBufferSize) :
    k.places { s with width := 0 } value = m ∧
      k.places s value =
        if s.width = m ∨ s.zeroPadded ∧ m < s.width ∧ s.width ≤ ntoaBufferSize then
          if 2 ≤ s.width ∧ k.base = 16 then s.width - 2 else s.width - 1
        else if s.zeroPadded ∧ ntoaBufferSize < s.width then ntoaBufferSize else m := by
  have hprec : s.flags.precision = false → s.precision = 0 := fun _ => hzero
  have hvalue := ((prefixed_iff k s value).mp hpre).2.2
  have hwidth := (width_of_prefixed harg hpre).2.2.2
  have hwidth₀ : k.width { s with width := 0 } value = 0 :=
    (width_of_prefixed (s := { s with width := 0 }) harg hpre).2.2.2
  have hlead : k.leading { s with width := 0 } value = m := by
    rw [hm, IntegerSpecifier.leading, if_neg hvalue, hwidth₀]
    simp [hzero]
  refine ⟨(places_withoutWidth k value hprec).trans hlead, ?_⟩
  have hsize : ntoaBufferSize = 32 := rfl
  have hpos : 0 < m := by
    have := IntegerSpecifier.digitCount_pos (k := k) hvalue
    omega
  rw [places_eq k value hprec, leading_eq, hlead, hwidth]
  cases hpad : s.zeroPadded with
  | false =>
    simp only [hpre, hp, true_and, Bool.false_eq_true, false_and, or_false, if_false, eq_comm]
    split_ifs <;> omega
  | true =>
    simp only [hpre, hp, true_and, if_true]
    split_ifs <;> omega

/-- Where the prefix fits in front of its zeros, they extend the text. -/
theorem extended_of_room {k : IntegerSpecifier} {s : Spec} (hbase : k.base ≠ 10) (uppercase : Bool)
    {n m : ℕ} (hn : (k.base.digits n).length ≤ m) (hzero : s.zeroPadded = true)
    (hroom : m + k.prefixChars.length ≤ s.width) (hwidth : s.width ≤ ntoaBufferSize) :
    IntegerExtended k s (k.prefixedText uppercase n m)
      (k.prefixedText uppercase n (s.width - k.prefixChars.length)) := by
  have hq : s.width - k.prefixChars.length =
      max m (s.width - (([] : List Byte).length + k.prefixChars.length)) := by
    rw [List.length_nil, Nat.zero_add]
    omega
  rw [IntegerSpecifier.prefixedText, IntegerSpecifier.prefixedText,
    prefixText_of_room hbase (by omega), prefixText_of_room hbase (by omega)]
  have hsign : [] ∈ signs := List.mem_cons_self
  have hextended := extended_of_front hzero hsign (.inr rfl) uppercase hq (fun _ => hn)
  exact hextended

/-- The binary prefix has a place less than it needs. -/
theorem not_extended_of_binary {s : Spec} (uppercase : Bool) {n m : ℕ} (hzero : s.zeroPadded = true)
    (hroom : m + 2 ≤ s.width) (hwidth : s.width ≤ ntoaBufferSize) :
    ¬IntegerExtended .b s (IntegerSpecifier.b.prefixedText uppercase n m)
      (IntegerSpecifier.b.prefixedText uppercase n (s.width - 1)) := by
  intro h
  have hsize : ntoaBufferSize = 32 := rfl
  have hpre : IntegerSpecifier.b.prefixChars.length = 2 := rfl
  have hbase : IntegerSpecifier.b.base ≠ 10 := by decide
  have hlen₀ := length_prefixedText hbase uppercase n m (by omega)
  have hlen := length_prefixedText hbase uppercase n (s.width - 1) (by omega)
  have hmax := h.length
  have hlast : s.width = 32 := by omega
  have hhead := (head_prefixedText_binary uppercase n (s.width - 1)).mpr (by omega)
  rw [IntegerExtended, if_pos hzero] at h
  split at h
  · exact h.head (by omega) hhead
  · rw [h, head_prefixedText_binary] at hhead
    omega

theorem extended_iff_of_hex {k : IntegerSpecifier} {s : Spec} (hk : k = .x ∨ k = .X)
    (uppercase : Bool) {n m places : ℕ} (hn : (k.base.digits n).length ≤ m)
    (hpos : 0 < m) (hzero : s.zeroPadded = true) (hlt : m < s.width)
    (hwidth : s.width ≤ ntoaBufferSize)
    (h16 : k.base = 16 → m ≤ 16)
    (hplaces : places = if 2 ≤ s.width ∧ k.base = 16 then s.width - 2 else s.width - 1) :
    IntegerExtended k s (k.prefixedText uppercase n m) (k.prefixedText uppercase n places) ↔
      (k.base = 16 → s.width ≠ m + 1) ∧ (k.base = 2 → s.width ≤ m + 1) := by
  have hsize : ntoaBufferSize = 32 := rfl
  have hbase : k.base = 16 := by rcases hk with rfl | rfl <;> rfl
  have hpre : k.prefixChars.length = 2 := by rcases hk with rfl | rfl <;> rfl
  have hten : k.base ≠ 10 := by omega
  have hm := h16 hbase
  by_cases hfits : m + 2 ≤ s.width
  · have hlast : places = s.width - k.prefixChars.length := by
      rw [hplaces, if_pos ⟨by omega, hbase⟩, hpre]
    rw [hlast]
    exact iff_of_true (extended_of_room hten uppercase hn hzero (by omega) hwidth)
      ⟨fun _ => by omega, fun h => by omega⟩
  · -- a digit is given up
    refine iff_of_false (fun h => ?_) (fun h => h.1 hbase (by omega))
    have hlen := length_prefixedText hten uppercase n m (by omega)
    have hlen' := length_prefixedText hten uppercase n places (by
      rw [hplaces]
      split <;> omega)
    have heq := h.eq_of_le (by omega)
    rw [heq] at hlen'
    split at hplaces <;> omega

/-- Padding zeros give up a place for each character of the prefix, the binary one apart. -/
theorem extended_iff_of_zeros {k : IntegerSpecifier} {s : Spec} (hbase : k.base ≠ 10)
    (uppercase : Bool) {n m places : ℕ} (hn : (k.base.digits n).length ≤ m)
    (hpos : 0 < m) (hzero : s.zeroPadded = true) (hlt : m < s.width)
    (hwidth : s.width ≤ ntoaBufferSize)
    (h16 : k.base = 16 → m ≤ 16)
    (hplaces : places = if 2 ≤ s.width ∧ k.base = 16 then s.width - 2 else s.width - 1) :
    IntegerExtended k s (k.prefixedText uppercase n m) (k.prefixedText uppercase n places) ↔
      (k.base = 16 → s.width ≠ m + 1) ∧ (k.base = 2 → s.width ≤ m + 1) := by
  have hsize : ntoaBufferSize = 32 := rfl
  have hlen := length_prefixedText hbase uppercase n m (by omega)
  cases k with
  | b =>
    have hpre : IntegerSpecifier.b.prefixChars.length = 2 := rfl
    rw [if_neg (fun h => absurd h.2 (by decide))] at hplaces
    rw [hplaces, forall_prop_of_false (by decide), true_and,
      imp_iff_right (show IntegerSpecifier.b.base = 2 from rfl)]
    by_cases hone : s.width = m + 1
    · rw [hone, Nat.add_sub_cancel, IntegerExtended, hzero, if_pos rfl, if_neg (by omega)]
      exact iff_of_true rfl (Nat.le_refl _)
    · exact iff_of_false (not_extended_of_binary _ hzero (by omega) hwidth) (by omega)
  | o =>
    have hpre : IntegerSpecifier.o.prefixChars.length = 1 := rfl
    rw [if_neg (fun h => absurd h.2 (by decide))] at hplaces
    rw [hplaces]
    exact iff_of_true (extended_of_room hbase _ hn hzero hlt hwidth)
      ⟨fun h => absurd h (by decide), fun h => absurd h (by decide)⟩
  | x => exact extended_iff_of_hex (.inl rfl) uppercase hn hpos hzero hlt hwidth h16 hplaces
  | X => exact extended_iff_of_hex (.inr rfl) uppercase hn hpos hzero hlt hwidth h16 hplaces
  | _ => exact absurd rfl hbase

/-- The room of a prefixed number without a precision. -/
theorem widthRoom_iff_of_prefixed {k : IntegerSpecifier} {s : Spec} {value : ℤ} {m : ℕ}
    (hpre : k.prefixed s value = true) (hp : s.flags.precision = false)
    (hm : m = min (k.digitCount value) 32) (h16 : k.base = 16 → k.digitCount value ≤ 16) :
    WidthRoom k s value ↔ (s.zeroPadded → s.width ≤ 32) ∧ s.width ≠ m ∧
      (s.zeroPadded → (k.base = 16 → s.width ≠ m + 1) ∧ (k.base = 2 → s.width ≤ m + 1)) := by
  have hcount : k.base = 16 → k.digitCount value = m := by
    intro h
    have := h16 h
    omega
  constructor
  · intro h
    obtain ⟨hne, hpad⟩ := h.prefixRoom hpre hp
    rw [← hm] at hne hpad
    exact ⟨h.zeros, hne, fun hz => ⟨fun hx => hcount hx ▸ (hpad hz).1 hx, (hpad hz).2⟩⟩
  · rintro ⟨hzeros, hne, hpad⟩
    refine ⟨hzeros, fun _ _ => ?_⟩
    rw [← hm]
    exact ⟨hne, fun hz => ⟨fun hx => (hcount hx).symm ▸ (hpad hz).1 hx, (hpad hz).2⟩⟩

/-- Digits that fill the width are given up for the prefix. -/
theorem not_extended_of_lost {k : IntegerSpecifier} {s : Spec} (hbase : k.base ≠ 10)
    (uppercase : Bool) {n places : ℕ} (hpos : 0 < s.width) (hle : s.width ≤ ntoaBufferSize)
    (hsmall : k.base ≠ 2 → s.width + 2 ≤ ntoaBufferSize)
    (hplaces : places = if 2 ≤ s.width ∧ k.base = 16 then s.width - 2 else s.width - 1) :
    ¬IntegerExtended k s (k.prefixedText uppercase n s.width) (padded s.flags.left
      (if s.zeroPadded then 0 else s.width - (k.prefixedText uppercase n places).length)
      (k.prefixedText uppercase n places)) := by
  have hsize : ntoaBufferSize = 32 := rfl
  have hless : places < s.width := by split at hplaces <;> omega
  have hone : k.base = 2 → places + 1 = s.width := by
    intro h
    rw [if_neg (by omega)] at hplaces
    omega
  have hmet : s.width ≤ (k.prefixedText uppercase n places).length := by
    rw [length_prefixedText hbase uppercase n places (by omega)]
    cases k with
    | d => exact absurd rfl hbase
    | i => exact absurd rfl hbase
    | u => exact absurd rfl hbase
    | o =>
      have hpre : IntegerSpecifier.o.prefixChars.length = 1 := rfl
      rw [if_neg (fun h => absurd h.2 (by decide))] at hplaces
      omega
    | b =>
      have hpre : IntegerSpecifier.b.prefixChars.length = 2 := rfl
      have := hone rfl
      omega
    | x =>
      have hpre : IntegerSpecifier.x.prefixChars.length = 2 := rfl
      split at hplaces <;> omega
    | X =>
      have hpre : IntegerSpecifier.X.prefixChars.length = 2 := rfl
      split at hplaces <;> omega
  have hnone : (if s.zeroPadded then 0
      else s.width - (k.prefixedText uppercase n places).length) = 0 := by
    split
    · rfl
    · exact Nat.sub_eq_zero_of_le hmet
  rw [hnone, padded_zero]
  intro h
  have hlen := length_prefixedText hbase uppercase n s.width hle
  exact prefixedText_ne hbase uppercase n hless hle hsmall hone (h.eq_of_le (by omega))

theorem extended_iff_of_prefixed {k : IntegerSpecifier} {s : Spec} {value : ℤ}
    (harg : IsArgument k value) (hpre : k.prefixed s value = true)
    (hp : s.flags.precision = false) (hprec : s.precision = 0) :
    IntegerExtended k s (k.core { s with width := 0 } value)
      (padded s.flags.left (if s.zeroPadded then 0 else k.width s value - (k.core s value).length)
        (k.core s value)) ↔ WidthRoom k s value := by
  obtain ⟨-, hbase, hvalue⟩ := (prefixed_iff k s value).mp hpre
  obtain ⟨-, h8, -, h16⟩ := harg.digitCount_le
  have hn := IntegerSpecifier.digitCount_pos (k := k) hvalue
  have hsize : ntoaBufferSize = 32 := rfl
  obtain ⟨m, hm⟩ : ∃ m, m = min (k.digitCount value) ntoaBufferSize := ⟨_, rfl⟩
  obtain ⟨hplaces₀, hplaces⟩ := places_of_prefixed harg hpre hp hprec hm
  have hcore₀ := core_eq_of_prefixed (s := { s with width := 0 }) harg hpre
  have hcore := core_eq_of_prefixed (s := s) harg hpre
  have hwidth := (width_of_prefixed harg hpre).2.2.2
  have hflags : k.workFlags { s with width := 0 } value = k.workFlags s value := rfl
  have hsmall : k.base ≠ 2 → m + 2 ≤ ntoaBufferSize := by
    intro htwo
    rcases k.base_cases with h | h | h | h
    · exact absurd h htwo
    · have := h8 h
      omega
    · exact absurd h hbase
    · have := h16 h
      omega
  rw [hplaces₀, hflags] at hcore₀
  rw [widthRoom_iff_of_prefixed hpre hp hm h16, hcore₀, hcore, hwidth]
  by_cases hlost : s.width = m
  · rw [if_pos (.inl hlost)] at hplaces
    refine iff_of_false ?_ (fun h => h.2.1 hlost)
    rw [← hlost] at hsmall ⊢
    exact not_extended_of_lost hbase _ (by omega) (by omega) hsmall hplaces
  have hlen₀ := length_prefixedText hbase (k.workFlags s value).uppercase value.natAbs m (by omega)
  cases hzero : s.zeroPadded with
  | false =>
    rw [if_neg (by simp [hlost, hzero]), if_neg (by simp [hzero])] at hplaces
    rw [hplaces, if_neg Bool.false_ne_true, IntegerExtended, hzero, if_neg Bool.false_ne_true]
    exact iff_of_true rfl ⟨fun h => Bool.noConfusion h, hlost, fun h => Bool.noConfusion h⟩
  | true =>
    rw [if_pos rfl, padded_zero, imp_iff_right rfl, imp_iff_right rfl, and_iff_right hlost]
    simp only [hzero, true_and, hlost, false_or] at hplaces
    by_cases hbig : ntoaBufferSize < s.width
    · -- the zeros end with the buffer
      refine iff_of_false (fun h => ?_) (fun h => by omega)
      have hmax := h.length
      have hle := places_le_size k s value
      have hlen := length_prefixedText hbase (k.workFlags s value).uppercase value.natAbs _ hle
      omega
    rw [and_iff_right (by omega)]
    by_cases hless : s.width < m
    · rw [if_neg (by omega), if_neg hbig] at hplaces
      rw [hplaces, IntegerExtended, hzero, if_pos rfl, if_neg (by omega)]
      exact iff_of_true rfl ⟨fun _ => by omega, fun _ => by omega⟩
    rw [if_pos (by omega)] at hplaces
    have hdigits : k.digitCount value ≤ m := by omega
    have h16' : k.base = 16 → m ≤ 16 := fun h =>
      hm.symm ▸ Nat.le_trans (Nat.min_le_left _ _) (h16 h)
    exact extended_iff_of_zeros hbase _ hdigits (by omega) hzero (by omega) (by omega) h16' hplaces

end MegaOS.Log
