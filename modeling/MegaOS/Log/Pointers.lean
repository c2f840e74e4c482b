import MegaOS.Log.ReadBack

/-!
# Pointers are read back

`%p` sets the width to sixteen and pads with zeros, whatever the format says. So
with `#` the digits always fill the width, and two of them are given up for the
prefix; with a sign in front the width is one less, and the largest pointers are
the ones that escape.
-/

namespace MegaOS.Log

open MegaOS.Memory MegaOS.Numerals MegaOS.Emission

/-- The number that the hexadecimal digits of a text denote, whatever stands between them. -/
def readHex (text : List Byte) : ℕ :=
  value digitValue 16 (text.filter (IsDigit digitValue 16))

/-- The flags of the conversion of a pointer. -/
def pointerFlags (s : Spec) (w : Word) : Flags :=
  if w = 0 then { s.flags with zeropad := true, uppercase := true, hash := false }
  else { s.flags with zeropad := true, uppercase := true }

/-- The places the digits get. -/
def pointerPlaces (s : Spec) (w : Word) : ℕ :=
  ntoaPlaces 16 w.toNat false s.precision 16 (pointerFlags s w)

theorem readHex_pointerText (s : Spec) (a : Arg) :
    readHex (pointerText s a) = a.word.toNat % 16 ^ pointerPlaces s a.word := by
  obtain ⟨fl, hfl⟩ : ∃ fl, fl = pointerFlags s a.word := ⟨_, rfl⟩
  obtain ⟨k, hk⟩ : ∃ k, k = pointerPlaces s a.word := ⟨_, rfl⟩
  have hnonneg : decide ((a.word.toNat : ℤ) < 0) = false :=
    decide_eq_false (Int.not_lt.mpr (Int.natCast_nonneg _))
  have hparts : ∀ pad, padded fl.left pad (ntoaCore 16 a.word.toNat false fl k) =
      (coreParts .X (a.word.toNat : ℤ) fl pad k).text := by
    intro pad
    rw [coreParts_text, hnonneg]
    rfl
  have hbase : 2 ≤ (16 : Word).toNat ∧ (16 : Word).toNat ≤ 16 := by decide
  have htext := ntoaText_eq hbase.1 hbase.2 a.word false s.precision 16
    (hfl.trans rfl) (hk.trans (by rw [pointerPlaces, ← hfl]; rfl)) rfl
  rw [readHex, pointerText, htext]
  refine (congrArg (fun t => value digitValue 16 (t.filter (IsDigit digitValue 16)))
    (hparts _)).trans ?_
  rw [← hk]
  exact (value_filter_text (k := .X) (coreParts_sign_mem .X _ _ _ _)
    (coreParts_pre_mem _ _ fun _ => by decide) (coreParts_isDigit .X _ _ _ _)).trans
      (coreParts_value .X _ _ _ _)

/-- The pointers that lose digits to the prefix. -/
def PointerCut (flags : Flags) (w : ℕ) : Prop :=
  flags.hash = true ∧ flags.precision = false ∧
    if flags.left then 16 ^ 15 ≤ w
    else if flags.plus || flags.space then 16 ^ 13 ≤ w ∧ w < 16 ^ 15
    else 16 ^ 14 ≤ w

instance (flags : Flags) (w : ℕ) : Decidable (PointerCut flags w) :=
  inferInstanceAs (Decidable (_ ∧ _ ∧ _))

/-- The digits have their places, unless the prefix takes some. -/
theorem pointerPlaces_ge_iff (s : Spec) (w : Word)
    (hprec : s.flags.precision = false → s.precision = 0) :
    (Nat.digits 16 w.toNat).length ≤ pointerPlaces s w ↔ ¬PointerCut s.flags w.toNat := by
  obtain ⟨n, hn⟩ : ∃ n, n = (Nat.digits 16 w.toNat).length := ⟨_, rfl⟩
  have hle : ∀ k, n ≤ k ↔ w.toNat < 16 ^ k := fun k => hn ▸ Nat.digits_length_le_iff (by decide) _
  have h16 : n ≤ 16 := (hle 16).mpr (Nat.lt_of_lt_of_le w.isLt (by decide))
  have hcut : PointerCut s.flags w.toNat ↔ s.flags.hash = true ∧ s.flags.precision = false ∧
      if s.flags.left then 15 < n
      else if s.flags.plus || s.flags.space then 13 < n ∧ n ≤ 15 else 14 < n := by
    simp only [PointerCut, ← Nat.not_lt, ← hle, not_not]
  rw [← hn, hcut, pointerPlaces, ntoaPlaces]
  by_cases hw : w = 0
  · -- no prefix
    have hzero : n = 0 := by
      rw [hn, hw]
      rfl
    rw [hzero]
    refine iff_of_true (Nat.zero_le _) ?_
    rintro ⟨-, -, h⟩
    split_ifs at h <;> omega
  · have hpos : 0 < n := by
      rw [hn, List.length_pos_iff, Ne, Nat.digits_eq_nil_iff_eq_zero]
      exact fun h => hw (BitVec.eq_of_toNat_eq h)
    have hlen : digitsLength 16 w.toNat (pointerFlags s w) = n := by
      have hne : w.toNat ≠ 0 := fun h => hw (BitVec.eq_of_toNat_eq h)
      rw [digitsLength, if_neg hne, ← hn, Nat.min_eq_left (Nat.le_trans h16 (by decide))]
    rw [hlen, pointerFlags, if_neg hw, places, leadingLength, digitsWidth]
    simp only [ntoaBufferSize]
    cases hhash : s.flags.hash with
    | false => cases hleft : s.flags.left <;> simp
    | true =>
      cases hp : s.flags.precision with
      | true => cases hleft : s.flags.left <;> simp
      | false =>
        have hzero := hprec hp
        cases hleft : s.flags.left with
        | true =>
          simp only [hzero, Bool.not_false, Bool.not_true, Bool.false_and, Bool.false_eq_true,
            if_false, if_true, true_and]
          split_ifs <;> omega
        | false =>
          cases s.flags.plus <;> cases s.flags.space <;> simp [hzero] <;> split_ifs <;> omega

/-- **Pointers are read back**, except those whose prefix takes the place of digits: with `#` and
no precision, the pointers of fifteen and sixteen digits; of sixteen digits, if they are put left;
of fourteen and fifteen, with a sign in front. -/
theorem pointer_read_back_iff {d : Directive} (hd : d.specifier = .pointer) {va va' : List Arg}
    {text : List Byte} (h : d.text va = some (text, va')) :
    ∃ s a, d.resolve va = some (s, a :: va') ∧
      (∀ rest, scanDirective (d.bytesBefore rest) va = some (s, ch 'p' :: rest, a :: va')) ∧
      (∀ (σ : Type) (out : OutFct σ) (maxlen : ℕ) (o : Cursor σ),
        outSpecifier out maxlen (ch 'p') s (a :: va') o = some (va', emit out maxlen text o)) ∧
      (readHex text = a.word.toNat ↔ ¬PointerCut s.flags a.word.toNat) := by
  simp only [Directive.text, hd, Option.bind_eq_bind, Option.bind_eq_some_iff] at h
  obtain ⟨⟨s, rest⟩, hres, htext⟩ := h
  cases rest with
  | nil => exact absurd htext.symm (Option.some_ne_none _)
  | cons a rest =>
    obtain ⟨rfl, rfl⟩ := Prod.mk.inj (Option.some.inj htext)
    refine ⟨s, a, hres, fun following => ?_,
      fun σ out maxlen o => @outSpecifier_eq_emit σ out maxlen .pointer _ _ _ _ htext o, ?_⟩
    · have hread := Directive.scan_of_resolve hres following
      rw [hd] at hread
      exact hread
    · rw [readHex_pointerText, mod_pow_eq_self_iff (by decide)]
      exact pointerPlaces_ge_iff s a.word (Directive.resolve_fields hres).2

/-- `%#p` of an address of the kernel. -/
theorem pointer_read_back_iff_kernel : ∃ s a,
    Directive.resolve { flags := [.hash], specifier := .pointer } [⟨0xFFFFFFFF80000000, []⟩] =
      some (s, a :: []) ∧
    (∀ rest, scanDirective (Directive.bytesBefore { flags := [.hash], specifier := .pointer } rest)
      [⟨0xFFFFFFFF80000000, []⟩] = some (s, ch 'p' :: rest, a :: [])) ∧
    (∀ (σ : Type) (out : OutFct σ) (maxlen : ℕ) (o : Cursor σ),
      outSpecifier out maxlen (ch 'p') s (a :: []) o =
        some ([], emit out maxlen ("0xFFFFFF80000000".toList.map ch) o)) ∧
    (readHex ("0xFFFFFF80000000".toList.map ch) = a.word.toNat ↔
      ¬PointerCut s.flags a.word.toNat) := by
  have htext : Directive.text { flags := [.hash], specifier := .pointer }
      [⟨0xFFFFFFFF80000000, []⟩] = some ("0xFFFFFF80000000".toList.map ch, []) := by
    decide
  exact pointer_read_back_iff rfl htext

end MegaOS.Log
