import MegaOS.Foundation.Numerals
import MegaOS.Log.Conversion

/-!
# The parts of a number

An integer conversion outputs a sign, a prefix and a numeral, with padding around
them. The conversion buffer holds 32 characters: how many places the numeral
gets, and whether the prefix and the sign still fit, depends on the precision,
the width and the flags. That is all that does: the numeral is the number in so
many places.
-/

namespace MegaOS.Log

open MegaOS.Memory MegaOS.Emission MegaOS.Numerals

/-! ### Digits -/

/-- The number a character stands for as a digit. -/
def digitValue (c : Byte) : Option ℕ :=
  if '0'.toNat ≤ c.toNat ∧ c.toNat ≤ '9'.toNat then some (c.toNat - '0'.toNat)
  else if 'a'.toNat ≤ c.toNat ∧ c.toNat ≤ 'f'.toNat then some (c.toNat - 'a'.toNat + 10)
  else if 'A'.toNat ≤ c.toNat ∧ c.toNat ≤ 'F'.toNat then some (c.toNat - 'A'.toNat + 10)
  else none

def digitCharOf (uppercase : Bool) (d : ℕ) : Byte := digitChar uppercase (BitVec.ofNat 8 d)

theorem digitValue_digitCharOf : ∀ (uppercase : Bool) (d : Fin 16),
    digitValue (digitCharOf uppercase d) = some d.val := by
  decide

theorem digitValue_digitCharOf_of_lt {base : ℕ} (hbase : base ≤ 16) (uppercase : Bool) :
    ∀ d < base, digitValue (digitCharOf uppercase d) = some d :=
  fun d hd => digitValue_digitCharOf uppercase ⟨d, Nat.lt_of_lt_of_le hd hbase⟩

theorem digitCharOf_zero (uppercase : Bool) : digitCharOf uppercase 0 = ch '0' := by
  cases uppercase <;> rfl

/-- The number `n` in `k` places. -/
def numeral (base : ℕ) (uppercase : Bool) (n k : ℕ) : List Byte :=
  ((lowDigits base n k).map (digitCharOf uppercase)).reverse

theorem length_numeral (base : ℕ) (uppercase : Bool) (n k : ℕ) :
    (numeral base uppercase n k).length = k := by
  rw [numeral, List.length_reverse, List.length_map, length_lowDigits]

/-- The digit loop produces the digits of the value. -/
theorem digitsText_eq {base : Word} (hb : 2 ≤ base.toNat) (hb' : base.toNat ≤ 16) (uppercase : Bool)
    (fuel : ℕ) {value : Word} (hvalue : value.toNat ≠ 0) :
    digitsText base uppercase fuel value =
      ((base.toNat.digits value.toNat).take fuel).map (digitCharOf uppercase) := by
  induction fuel generalizing value with
  | zero => rfl
  | succ fuel ih =>
    have hdigit : digitChar uppercase ((value % base).setWidth 8) =
        digitCharOf uppercase (value.toNat % base.toNat) := by
      have hlow : (value % base).setWidth 8 = BitVec.ofNat 8 (value.toNat % base.toNat) := by
        apply BitVec.eq_of_toNat_eq
        rw [BitVec.toNat_setWidth, BitVec.toNat_umod, BitVec.toNat_ofNat]
      rw [hlow]
      rfl
    have hdiv : (value / base).toNat = value.toNat / base.toNat := BitVec.toNat_udiv
    rw [digitsText, hdigit, Nat.digits_eq_cons_digits_div (by omega) hvalue, List.take_succ_cons,
      List.map_cons]
    congr 1
    by_cases hmore : value / base = 0
    · have hzero : value.toNat / base.toNat = 0 := by
        rw [← hdiv, hmore]
        rfl
      rw [if_neg (not_not.mpr hmore), hzero]
      simp
    · have hpos : (value / base).toNat ≠ 0 := fun h => hmore (BitVec.eq_of_toNat_eq h)
      rw [if_pos hmore, ih hpos, hdiv]

/-! ### Lengths -/

/-- The characters in the buffer before padding zeros. -/
def digitsLength (base value : ℕ) (flags : Flags) : ℕ :=
  if value = 0 then if flags.precision then 0 else 1
  else min (base.digits value).length ntoaBufferSize

/-- And with them. -/
def leadingLength (prec width : ℕ) (flags : Flags) (len : ℕ) : ℕ :=
  if flags.left then len
  else if flags.zeropad then max (max len (min prec ntoaBufferSize)) (min width ntoaBufferSize)
  else max len (min prec ntoaBufferSize)

/-- The places of the numeral, when those given up for the prefix are taken off. -/
def places (base : BitVec 32) (prec width : ℕ) (flags : Flags) (len : ℕ) : ℕ :=
  if flags.hash ∧ !flags.precision ∧ len ≠ 0 ∧ (len = prec ∨ len = width) then
    if 2 ≤ len ∧ base = 16 then len - 2 else len - 1
  else len

/-- The prefix, as far as it fits behind `k` places. -/
def prefixText (base : BitVec 32) (hash : Bool) (k : ℕ) : List Byte :=
  if !hash then []
  else if base = 16 then
    if k + 1 < ntoaBufferSize then [ch '0', ch 'x']
    else if k < ntoaBufferSize then [ch 'x'] else []
  else if base = 2 then
    if k + 1 < ntoaBufferSize then [ch '0', ch 'b']
    else if k < ntoaBufferSize then [ch 'b'] else []
  else if k < ntoaBufferSize then [ch '0'] else []

/-- The sign, if it fits behind `k` characters. -/
def signChars (negative : Bool) (flags : Flags) (k : ℕ) : List Byte :=
  if k < ntoaBufferSize then
    if negative then [ch '-'] else if flags.plus then [ch '+']
    else if flags.space then [ch ' '] else []
  else []

section Parts

variable {base : Word} (hb : 2 ≤ base.toNat) (hb' : base.toNat ≤ 16)

include hb hb'

theorem convertText_eq (value : Word) (flags : Flags) : convertText value base flags =
    if value = 0 then if flags.precision then [] else [ch '0']
    else ((base.toNat.digits value.toNat).take ntoaBufferSize).map (digitCharOf flags.uppercase) := by
  rw [convertText]
  by_cases hvalue : value = 0
  · subst hvalue
    have hzero : digitsText base flags.uppercase ntoaBufferSize 0 = [ch '0'] := by
      have hmod : (0 : Word) % base = 0 := BitVec.zero_umod
      have hdiv : (0 : Word) / base = 0 := BitVec.zero_udiv
      rw [ntoaBufferSize, digitsText, hmod, hdiv, if_neg (fun h => h rfl)]
      exact congrArg (fun c => [c]) (digitCharOf_zero flags.uppercase)
    rw [if_pos rfl, hzero]
    cases flags.precision <;> rfl
  · have hpos : value.toNat ≠ 0 := fun h => hvalue (BitVec.eq_of_toNat_eq h)
    rw [if_neg hvalue, if_pos (.inr hvalue), digitsText_eq hb hb' _ _ hpos]

theorem length_convertText (value : Word) (flags : Flags) :
    (convertText value base flags).length = digitsLength base.toNat value.toNat flags := by
  rw [convertText_eq hb hb', digitsLength]
  by_cases hvalue : value = 0
  · subst hvalue
    rw [if_pos rfl, if_pos (show (0 : Word).toNat = 0 from rfl)]
    cases flags.precision <;> rfl
  · have hpos : value.toNat ≠ 0 := fun h => hvalue (BitVec.eq_of_toNat_eq h)
    rw [if_neg hvalue, if_neg hpos, List.length_map, List.length_take, Nat.min_comm]

/-- Digits and padding zeros, cut off, are the value in so many places. -/
theorem take_convertText (value : Word) (flags : Flags) {k z : ℕ} (hk : k ≤ ntoaBufferSize)
    (hz : k ≤ (convertText value base flags).length + z) :
    (convertText value base flags ++ List.replicate z (ch '0')).take k =
      (lowDigits base.toNat value.toNat k).map (digitCharOf flags.uppercase) := by
  rw [convertText_eq hb hb'] at hz ⊢
  have hzeros : ∀ m, List.replicate m (ch '0') =
      (List.replicate m 0).map (digitCharOf flags.uppercase) := by
    intro m
    rw [List.map_replicate, digitCharOf_zero]
  by_cases hvalue : value = 0
  · subst hvalue
    have hlow : lowDigits base.toNat (0 : Word).toNat k = List.replicate k 0 := by
      rw [lowDigits_of_le (by simp)]
      simp
    rw [if_pos rfl] at hz ⊢
    rw [hlow, ← hzeros]
    cases hprec : flags.precision with
    | true =>
      rw [hprec] at hz
      rw [if_pos rfl, List.nil_append, List.take_replicate, Nat.min_eq_left]
      simpa using hz
    | false =>
      rw [hprec] at hz
      rw [if_neg Bool.false_ne_true, List.singleton_append, ← List.replicate_succ,
        List.take_replicate, Nat.min_eq_left]
      simpa [Nat.add_comm] using hz
  · rw [if_neg hvalue] at hz ⊢
    rw [List.length_map, List.length_take] at hz
    rw [hzeros, ← List.map_append, ← List.map_take]
    congr 1
    rcases Nat.le_total (base.toNat.digits value.toNat).length ntoaBufferSize with hn | hn
    · rw [List.take_of_length_le hn]
      rcases Nat.le_total k (base.toNat.digits value.toNat).length with hkn | hkn
      · rw [lowDigits_of_ge hkn, List.take_append_of_le_length hkn]
      · rw [lowDigits_of_le hkn, List.take_append, List.take_of_length_le hkn, List.take_replicate,
          Nat.min_eq_left (by omega)]
    · rw [lowDigits_of_ge (Nat.le_trans hk hn), List.take_append_of_le_length, List.take_take,
        Nat.min_eq_left hk]
      rw [List.length_take, Nat.min_eq_left hn]
      exact hk

end Parts

theorem leadingText_eq (prec width : ℕ) (flags : Flags) (ds : List Byte) :
    leadingText prec width flags ds =
      ds ++ List.replicate (leadingLength prec width flags ds.length - ds.length) (ch '0') := by
  rw [leadingText, leadingLength]
  cases flags.left with
  | true => simp
  | false =>
    cases flags.zeropad with
    | false =>
      rw [if_neg Bool.false_ne_true, if_neg Bool.false_ne_true, if_neg Bool.false_ne_true,
        if_neg Bool.false_ne_true, padText]
      congr 2
      omega
    | true =>
      rw [if_neg Bool.false_ne_true, if_pos rfl, if_neg Bool.false_ne_true, if_pos rfl, padText,
        padText, List.append_assoc, List.replicate_append_replicate, List.length_append,
        List.length_replicate]
      congr 2
      omega

theorem pushText_eq (c : Byte) (ds : List Byte) :
    pushText c ds = ds ++ if ds.length < ntoaBufferSize then [c] else [] := by
  rw [pushText]
  split
  · rfl
  · exact (List.append_nil ds).symm

theorem roomText_eq (base : BitVec 32) (prec width : ℕ) {flags : Flags} (hhash : flags.hash = true)
    (ds : List Byte) :
    roomText base prec width flags ds = ds.take (places base prec width flags ds.length) := by
  rw [roomText, places, hhash]
  simp only [true_and]
  split
  · rename_i hroom
    rw [List.length_dropLast]
    by_cases h16 : ds.length - 1 ≠ 0 ∧ base = 16
    · have htwo : 2 ≤ ds.length ∧ base = 16 := ⟨by omega, h16.2⟩
      rw [if_pos h16, if_pos htwo, List.dropLast_eq_take, List.dropLast_eq_take, List.take_take,
        List.length_take]
      congr 1
      omega
    · have htwo : ¬(2 ≤ ds.length ∧ base = 16) := fun h => h16 ⟨by omega, h.2⟩
      rw [if_neg h16, if_neg htwo, List.dropLast_eq_take]
  · rw [List.take_length]

theorem places_le (base : BitVec 32) (prec width : ℕ) (flags : Flags) (len : ℕ) :
    places base prec width flags len ≤ len := by
  rw [places]
  split
  · split <;> omega
  · exact Nat.le_refl _

/-- A letter and a zero, as far as they fit. -/
theorem pushText_letter (c : Byte) (kept : List Byte) :
    pushText (ch '0') (pushText c kept) = kept ++
      (if kept.length + 1 < ntoaBufferSize then [ch '0', c]
        else if kept.length < ntoaBufferSize then [c] else []).reverse := by
  rw [pushText_eq, pushText_eq, List.append_assoc]
  congr 1
  by_cases hletter : kept.length < ntoaBufferSize
  · rw [if_pos hletter, List.length_append, List.length_singleton]
    by_cases hzero : kept.length + 1 < ntoaBufferSize
    · rw [if_pos hzero, if_pos hzero]
      rfl
    · rw [if_neg hzero, if_neg hzero]
      rfl
  · rw [if_neg hletter, List.append_nil, if_neg hletter,
      if_neg (fun h => hletter (Nat.lt_of_succ_lt h))]
    rfl

/-- The places of the numeral and the prefix, in the buffer. -/
theorem hashText_eq (base : BitVec 32) (prec width : ℕ) (flags : Flags) (ds : List Byte) :
    hashText base prec width flags ds =
      ds.take (places base prec width flags ds.length) ++
        (prefixText base flags.hash (places base prec width flags ds.length)).reverse := by
  rw [hashText, prefixText]
  cases hhash : flags.hash with
  | false =>
    have hall : places base prec width flags ds.length = ds.length := by
      rw [places, hhash, if_neg (fun h => Bool.false_ne_true h.1)]
    rw [hall, List.take_length]
    exact (List.append_nil ds).symm
  | true =>
    have hlen : (ds.take (places base prec width flags ds.length)).length =
        places base prec width flags ds.length := by
      rw [List.length_take, Nat.min_eq_left (places_le ..)]
    rw [if_pos rfl, roomText_eq _ _ _ hhash, letterText, Bool.not_true,
      if_neg Bool.false_ne_true]
    by_cases h16 : base = 16
    · rw [if_pos h16, if_pos h16, pushText_letter, hlen]
    by_cases h2 : base = 2
    · rw [if_neg h16, if_pos h2, if_neg h16, if_pos h2, pushText_letter, hlen]
    · rw [if_neg h16, if_neg h2, if_neg h16, if_neg h2, pushText_eq, hlen]
      split <;> rfl

theorem signText_eq (negative : Bool) (flags : Flags) (ds : List Byte) :
    signText negative flags ds = ds ++ (signChars negative flags ds.length).reverse := by
  rw [signText, signChars]
  by_cases hroom : ds.length < ntoaBufferSize
  · rw [if_pos hroom]
    simp only [pushText, if_pos hroom]
    split
    · rfl
    split
    · rfl
    split
    · rfl
    · exact (List.append_nil ds).symm
  · rw [if_neg hroom]
    simp only [pushText, if_neg hroom, ite_self]
    exact (List.append_nil ds).symm

/-! ### The text -/

/-- The places of the numeral of an integer conversion. -/
def ntoaPlaces (base value : ℕ) (negative : Bool) (prec width : ℕ) (flags : Flags) : ℕ :=
  places (BitVec.ofNat 32 base) prec (digitsWidth negative width flags) flags
    (leadingLength prec (digitsWidth negative width flags) flags (digitsLength base value flags))

/-- Sign, prefix and numeral. -/
def ntoaCore (base value : ℕ) (negative : Bool) (flags : Flags) (k : ℕ) : List Byte :=
  let pre := prefixText (BitVec.ofNat 32 base) flags.hash k
  signChars negative flags (k + pre.length) ++ (pre ++ numeral base flags.uppercase value k)

theorem leadingLength_le (prec width : ℕ) (flags : Flags) {len : ℕ} (hlen : len ≤ ntoaBufferSize) :
    len ≤ leadingLength prec width flags len ∧
      leadingLength prec width flags len ≤ ntoaBufferSize := by
  rw [leadingLength]
  split
  · exact ⟨Nat.le_refl _, hlen⟩
  split
  · omega
  · omega

theorem digitsLength_le (base value : ℕ) (flags : Flags) :
    digitsLength base value flags ≤ ntoaBufferSize := by
  rw [digitsLength]
  split
  · split <;> decide
  · exact Nat.min_le_right _ _

/-- **The text of an integer conversion**: sign, prefix and numeral, padded with spaces. -/
theorem ntoaText_eq {base : Word} (hb : 2 ≤ base.toNat) (hb' : base.toNat ≤ 16) (value : Word)
    (negative : Bool) (prec width : ℕ) {flags fl : Flags}
    (hfl : fl = if value = 0 then { flags with hash := false } else flags) {k : ℕ}
    (hk : k = ntoaPlaces base.toNat value.toNat negative prec width fl) {core : List Byte}
    (hcore : core = ntoaCore base.toNat value.toNat negative fl k) :
    ntoaText value negative base prec width flags =
      padded fl.left (if fl.left || !fl.zeropad then digitsWidth negative width fl - core.length
        else 0) core := by
  have hbase : base.setWidth 32 = BitVec.ofNat 32 base.toNat := by
    apply BitVec.eq_of_toNat_eq
    rw [BitVec.toNat_setWidth, BitVec.toNat_ofNat]
  have hlen := length_convertText hb hb' value fl
  obtain ⟨hle, hle'⟩ := leadingLength_le prec (digitsWidth negative width fl) fl
    (digitsLength_le base.toNat value.toNat fl)
  have hkle : k ≤ leadingLength prec (digitsWidth negative width fl) fl
      (digitsLength base.toNat value.toNat fl) := by
    rw [hk]
    exact places_le ..
  have hlead : leadingText prec (digitsWidth negative width fl) fl (convertText value base fl) =
      convertText value base fl ++ List.replicate (leadingLength prec
        (digitsWidth negative width fl) fl (digitsLength base.toNat value.toNat fl) -
          digitsLength base.toNat value.toNat fl) (ch '0') := by
    rw [leadingText_eq, hlen]
  have hlength : (leadingText prec (digitsWidth negative width fl) fl
      (convertText value base fl)).length = leadingLength prec (digitsWidth negative width fl) fl
        (digitsLength base.toNat value.toNat fl) := by
    rw [hlead, List.length_append, List.length_replicate, hlen]
    omega
  have hhash : hashText (base.setWidth 32) prec (digitsWidth negative width fl) fl
      (leadingText prec (digitsWidth negative width fl) fl (convertText value base fl)) =
      (lowDigits base.toNat value.toNat k).map (digitCharOf fl.uppercase) ++
        (prefixText (base.setWidth 32) fl.hash k).reverse := by
    have hplaces : places (base.setWidth 32) prec (digitsWidth negative width fl) fl
        (leadingLength prec (digitsWidth negative width fl) fl
          (digitsLength base.toNat value.toNat fl)) = k := by
      rw [hk, hbase, ntoaPlaces]
    rw [hashText_eq, hlength, hplaces, hlead,
      take_convertText hb hb' value fl (Nat.le_trans hkle hle') (by rw [hlen]; omega)]
  have htext : (signText negative fl (hashText (base.setWidth 32) prec
      (digitsWidth negative width fl) fl (leadingText prec (digitsWidth negative width fl) fl
        (convertText value base fl)))).reverse = core := by
    rw [hhash, signText_eq, List.reverse_append, List.reverse_append, List.reverse_reverse,
      List.reverse_reverse, List.length_append, List.length_map, length_lowDigits,
      List.length_reverse, hcore, ntoaCore, hbase]
    rfl
  rw [ntoaText, ← hfl]
  show revText _ fl _ = _
  rw [revText, htext, ← List.length_reverse, htext]

end MegaOS.Log
