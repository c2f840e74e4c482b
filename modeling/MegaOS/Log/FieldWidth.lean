import MegaOS.Log.IntegerWidth

/-!
# The field width

A width asks for so many characters at least. Integers, characters and strings each
have their own loop for it; what they output is compared with what the directive
outputs without its width.
-/

namespace MegaOS.Log

open MegaOS.Memory MegaOS.Emission MegaOS.Numerals

/-! ### Directives without their width -/

/-- A width as it is written or passed. -/
def Width.stated : Width → List Arg → ℕ
  | .none, _ => 0
  | .number first digits, _ => (first.succ :: digits).foldl (fun i d => i * 10 + d.val) 0
  | .star, [] => 0
  | .star, a :: _ => a.int.toInt.natAbs

def Directive.withoutWidth (d : Directive) (va : List Arg) : Directive :=
  { d with
    flags := if d.width.negative va then d.flags ++ [.minus] else d.flags
    width := .none }

/-- The directive outputs the text, on every sink. -/
def Directive.Emits (d : Directive) (va : List Arg) (text : List Byte) : Prop :=
  ∃ s va₁ va₂,
    (∀ rest, scanDirective (d.bytesBefore rest) va = some (s, d.specifier.byte :: rest, va₁)) ∧
    ∀ (σ : Type) (out : OutFct σ) (maxlen : ℕ) (o : Cursor σ),
      outSpecifier out maxlen d.specifier.byte s va₁ o = some (va₂, emit out maxlen text o)

/-- The specifier outputs the text of its argument. -/
def Specifier.Emits (sp : Specifier) (s : Spec) (va : List Arg) (text : List Byte) : Prop :=
  ∃ va', ∀ (σ : Type) (out : OutFct σ) (maxlen : ℕ) (o : Cursor σ),
    outSpecifier out maxlen sp.byte s va o = some (va', emit out maxlen text o)

theorem Directive.emits_iff {d : Directive} {va va₁ : List Arg} {s : Spec}
    (hres : d.resolve va = some (s, va₁)) (text : List Byte) :
    d.Emits va text ↔ d.specifier.Emits s va₁ text := by
  have hscan := Directive.scan_of_resolve hres
  constructor
  · rintro ⟨s', va', va₂, hscan', hout⟩
    obtain ⟨rfl, hrest⟩ := Prod.mk.inj (Option.some.inj ((hscan []).symm.trans (hscan' [])))
    obtain ⟨-, rfl⟩ := Prod.mk.inj hrest
    exact ⟨va₂, hout⟩
  · rintro ⟨va₂, hout⟩
    exact ⟨s, va₁, va₂, hscan, hout⟩

/-- A specifier outputs one text. -/
theorem Specifier.Emits.unique {sp : Specifier} {s : Spec} {va : List Arg} {t t' : List Byte}
    (h : sp.Emits s va t) (h' : sp.Emits s va t') : t = t' := by
  obtain ⟨_, hout⟩ := h
  obtain ⟨_, hout'⟩ := h'
  have hrec := (hout _ record 0 ⟨0, []⟩).symm.trans (hout' _ record 0 ⟨0, []⟩)
  exact emit_record_inj (Prod.mk.inj (Option.some.inj hrec)).2

/-- The argument of a star, with its sign taken for the `-` flag. -/
theorem toNat_of_star (i : BitVec 32) :
    (if i.slt 0 then (-i).toNat else i.toNat) = i.toInt.natAbs := by
  have hlt := i.isLt
  rw [slt_zero_eq, BitVec.toInt_eq_toNat_cond, BitVec.toNat_neg]
  by_cases hsmall : 2 * i.toNat < 2 ^ 32
  · rw [if_pos hsmall, if_neg (by simp)]
    rfl
  · rw [if_neg hsmall, if_pos (by rw [decide_eq_true_iff]; omega), Nat.mod_eq_of_lt (by omega)]
    omega

/-- A width below `2^31` is kept. -/
theorem Width.kept_of_stated {w : Width} {va : List Arg} (hw : w.stated va < 2 ^ 31) :
    w.kept va = w.stated va := by
  cases w with
  | none => rfl
  | number first digits =>
    have hmod : digitsValue 0 (first.succ :: digits) = _ := digitsValue_eq_mod 0 _
    exact hmod.trans (Nat.mod_eq_of_lt (Nat.lt_trans hw (by decide)))
  | star =>
    cases va with
    | nil => rfl
    | cons a va => exact toNat_of_star a.int

theorem Directive.resolve_of (d : Directive) {flags₁ flags₂ : Flags} {width prec : ℕ}
    {va va₁ va₂ : List Arg}
    (hwidth : d.width.resolve (d.flags.foldl FlagChar.set {}) va = some (flags₁, width, va₁))
    (hprec : d.precision.resolve flags₁ va₁ = some (flags₂, prec, va₂)) :
    d.resolve va = some (⟨d.length.set flags₂, width, prec⟩, va₂) := by
  simp only [Directive.resolve, hwidth, hprec, Option.bind_eq_bind, Option.bind_some]

/-- The directive without its width is parsed alike, but for the width. -/
theorem Directive.resolve_withoutWidth {d : Directive} {va va' : List Arg} {s : Spec}
    (hres : d.resolve va = some (s, va')) (hw : d.width.stated va < 2 ^ 31) :
    s.width = d.width.stated va ∧
      (d.withoutWidth va).resolve (va.drop d.width.kinds.length) =
        some ({ s with width := 0 }, va') := by
  obtain ⟨flags, va₁, hwidth, hp, hs⟩ := Directive.resolve_spec hres
  obtain ⟨rfl, hkept, hflags⟩ := Width.resolve_spec hwidth
  refine ⟨hkept.trans (Width.kept_of_stated hw), ?_⟩
  have hset : (d.withoutWidth va).flags.foldl FlagChar.set {} = flags := by
    rw [hflags, Directive.withoutWidth]
    cases d.width.negative va with
    | true => exact List.foldl_append
    | false => rfl
  have hnone := (d.withoutWidth va).resolve_of
    (show Width.none.resolve _ _ = some (flags, 0, va.drop d.width.kinds.length) by rw [hset]; rfl) hp
  rw [hnone, hs]
  rfl

theorem Directive.resolve_precision_lt {d : Directive} {va va' : List Arg} {s : Spec}
    (hres : d.resolve va = some (s, va')) : s.precision < 2 ^ 32 := by
  obtain ⟨flags, va₁, -, hp, -⟩ := Directive.resolve_spec hres
  rw [(Precision.resolve_spec hp).2.1]
  exact Precision.kept_lt _ _

/-! ### Strings -/

/-- The bytes the output loop of `s` reads and outputs. -/
def shownBytes : List Byte → Option ℕ → Option (List Byte)
  | [], _ => none
  | c :: p, limit =>
    if c = 0 then some []
    else
      match limit with
      | none => (shownBytes p none).map (c :: ·)
      | some 0 => some []
      | some (n + 1) => (shownBytes p (some n)).map (c :: ·)

theorem outBytes_eq_map {σ : Type} (out : OutFct σ) (maxlen : ℕ) (p : List Byte) (limit : Option ℕ)
    (o : Cursor σ) :
    outBytes out maxlen p limit o = (shownBytes p limit).map (emit out maxlen · o) := by
  induction p generalizing limit o with
  | nil => rfl
  | cons c p ih =>
    by_cases hc : c = 0
    · simp only [outBytes, shownBytes, if_pos hc]
      rfl
    · cases limit with
      | none =>
        simp only [outBytes, shownBytes, if_neg hc, ih, Option.map_map]
        rfl
      | some n =>
        cases n with
        | zero =>
          simp only [outBytes, shownBytes, if_neg hc]
          rfl
        | succ n =>
          simp only [outBytes, shownBytes, if_neg hc, ih, Option.map_map]
          rfl

/-- The length helper counts what the loop outputs. -/
theorem length_shownBytes {p : List Byte} {m n : ℕ} {t : List Byte}
    (hn : strnlenS p m = some n) (ht : shownBytes p (some m) = some t) : t.length = n := by
  induction p generalizing m n t with
  | nil => exact absurd hn.symm (Option.some_ne_none n)
  | cons c p ih =>
    by_cases hc : c = 0
    · rw [strnlenS, if_pos hc] at hn
      simp only [shownBytes, if_pos hc] at ht
      obtain rfl := Option.some.inj hn
      obtain rfl := Option.some.inj ht
      rfl
    · cases m with
      | zero =>
        rw [strnlenS, if_neg hc, if_pos rfl] at hn
        simp only [shownBytes, if_neg hc] at ht
        obtain rfl := Option.some.inj hn
        obtain rfl := Option.some.inj ht
        rfl
      | succ m =>
        rw [strnlenS, if_neg hc, if_neg (Nat.succ_ne_zero m), Nat.add_sub_cancel] at hn
        simp only [shownBytes, if_neg hc] at ht
        obtain ⟨n', hn', rfl⟩ := Option.map_eq_some_iff.mp hn
        obtain ⟨t', ht', rfl⟩ := Option.map_eq_some_iff.mp ht
        rw [List.length_cons, ih hn' ht']

theorem length_shownBytes_le {p : List Byte} {m : ℕ} {t : List Byte}
    (ht : shownBytes p (some m) = some t) : t.length ≤ m := by
  induction p generalizing m t with
  | nil => exact absurd ht.symm (Option.some_ne_none t)
  | cons c p ih =>
    by_cases hc : c = 0
    · simp only [shownBytes, if_pos hc] at ht
      obtain rfl := Option.some.inj ht
      exact Nat.zero_le m
    · cases m with
      | zero =>
        simp only [shownBytes, if_neg hc] at ht
        obtain rfl := Option.some.inj ht
        exact Nat.le_refl 0
      | succ m =>
        simp only [shownBytes, if_neg hc] at ht
        obtain ⟨t', ht', rfl⟩ := Option.map_eq_some_iff.mp ht
        exact Nat.succ_le_succ (ih ht')

theorem shownBytes_none {p t : List Byte} (ht : shownBytes p none = some t) :
    0 ∈ p ∧ t = cString p := by
  induction p generalizing t with
  | nil => exact absurd ht.symm (Option.some_ne_none t)
  | cons c p ih =>
    by_cases hc : c = 0
    · simp only [shownBytes, if_pos hc] at ht
      obtain rfl := Option.some.inj ht
      exact ⟨hc ▸ List.mem_cons_self, by rw [cString, if_pos hc]⟩
    · simp only [shownBytes, if_neg hc] at ht
      obtain ⟨t', ht', rfl⟩ := Option.map_eq_some_iff.mp ht
      obtain ⟨hmem, rfl⟩ := ih ht'
      exact ⟨List.mem_cons_of_mem c hmem, (cString_cons hc p).symm⟩

/-- The counter `l` of a string. -/
def shownLength (s : Spec) (n : ℕ) : ℕ :=
  if s.flags.precision then min (n % 2 ^ 32) s.precision else n % 2 ^ 32

/-- A string is output whole behind or before its spaces. -/
theorem outString_eq_bind {σ : Type} (out : OutFct σ) (maxlen : ℕ) (s : Spec) (a : Arg)
    (o : Cursor σ) :
    outString out maxlen s a o =
      (strnlenS a.bytes (if s.precision ≠ 0 then s.precision else 2 ^ 64 - 1)).bind fun n =>
        (shownBytes a.bytes (if s.flags.precision then some s.precision else none)).map fun t =>
          emit out maxlen (padded s.flags.left (s.width - shownLength s n) t) o := by
  rw [outString]
  simp only [Option.bind_eq_bind, outBytes_eq_map, spaces_eq_emit]
  congr 1
  funext n
  cases shownBytes a.bytes (if s.flags.precision then some s.precision else none) with
  | none => rfl
  | some t =>
    simp only [Option.map_some, Option.bind_some, padded, shownLength]
    cases s.flags.left with
    | true =>
      simp only [Bool.not_true, Bool.false_eq_true, if_false, if_true, emit_append]
    | false =>
      simp only [Bool.not_false, Bool.false_eq_true, if_false, if_true, emit_append]

theorem string_emits_iff (s : Spec) (a : Arg) (va : List Arg) (text : List Byte) :
    Specifier.string.Emits s (a :: va) text ↔
      ∃ n t, strnlenS a.bytes (if s.precision ≠ 0 then s.precision else 2 ^ 64 - 1) = some n ∧
        shownBytes a.bytes (if s.flags.precision then some s.precision else none) = some t ∧
        text = padded s.flags.left (s.width - shownLength s n) t := by
  have hout : ∀ (σ : Type) (out : OutFct σ) (maxlen : ℕ) (o : Cursor σ),
      outSpecifier out maxlen Specifier.string.byte s (a :: va) o =
        (outString out maxlen s a o).map (va, ·) := fun _ _ _ _ => rfl
  constructor
  · rintro ⟨va', hemits⟩
    have hrec := (hout _ record 0 ⟨0, []⟩).symm.trans (hemits _ record 0 ⟨0, []⟩)
    obtain ⟨o, ho, heq⟩ := Option.map_eq_some_iff.mp hrec
    rw [outString_eq_bind, Option.bind_eq_some_iff] at ho
    obtain ⟨n, hn, ho⟩ := ho
    obtain ⟨t, ht, rfl⟩ := Option.map_eq_some_iff.mp ho
    exact ⟨n, t, hn, ht, (emit_record_inj (Prod.mk.inj heq).2).symm⟩
  · rintro ⟨n, t, hn, ht, rfl⟩
    refine ⟨va, fun σ out maxlen o => ?_⟩
    rw [hout, outString_eq_bind, hn, Option.bind_some, ht, Option.map_some, Option.map_some]

/-- Strings of `2^32` characters and more are counted modulo `2^32`. -/
theorem string_width_iff {s : Spec} (hprec : s.precision < 2 ^ 32)
    (hnone : s.flags.precision = false → s.precision = 0) (hwidth : s.width < 2 ^ 31) {a : Arg}
    {va : List Arg} {text : List Byte}
    (h : Specifier.string.Emits { s with width := 0 } (a :: va) text) :
    (∃ text', Specifier.string.Emits s (a :: va) text' ∧
      text' = padded s.flags.left (s.width - text.length) text) ↔
      (s.flags.precision = false → (cString a.bytes).length < 2 ^ 32 ∨
        s.width ≤ min (cString a.bytes).length (2 ^ 64 - 1) % 2 ^ 32) := by
  obtain ⟨n, t, hn, ht, htext⟩ := (string_emits_iff _ _ _ _).mp h
  rw [Nat.zero_sub, padded_zero] at htext
  subst htext
  have hiff : (∃ text', Specifier.string.Emits s (a :: va) text' ∧
      text' = padded s.flags.left (s.width - text.length) text) ↔
      s.width - shownLength s n = s.width - text.length := by
    rw [← padded_inj s.flags.left text]
    constructor
    · rintro ⟨text', hemits, rfl⟩
      obtain ⟨n', t', hn', ht', heq⟩ := (string_emits_iff _ _ _ _).mp hemits
      obtain rfl := Option.some.inj (hn.symm.trans hn')
      obtain rfl := Option.some.inj (ht.symm.trans ht')
      exact heq.symm
    · intro heq
      exact ⟨_, (string_emits_iff _ _ _ _).mpr ⟨n, text, hn, ht, rfl⟩, heq⟩
  rw [hiff]
  cases hflag : s.flags.precision with
  | true =>
    refine iff_of_true ?_ (fun hfalse => Bool.noConfusion hfalse)
    have hcount : shownLength s n = text.length := by
      simp only [hflag, if_true] at ht
      rw [shownLength, hflag, if_pos rfl]
      have hle := length_shownBytes_le ht
      by_cases hzero : s.precision = 0
      · rw [hzero, Nat.min_zero]
        omega
      · have hlen := length_shownBytes (by simpa [hzero] using hn) ht
        rw [hlen, Nat.mod_eq_of_lt (by omega)]
        omega
    rw [hcount]
  | false =>
    simp only [hflag, Bool.false_eq_true, if_false] at ht
    simp only [hnone hflag, ne_eq, not_true_eq_false, if_false] at hn
    obtain ⟨hmem, rfl⟩ := shownBytes_none ht
    rw [strnlenS_eq hmem] at hn
    obtain rfl := Option.some.inj hn
    rw [shownLength, hflag, if_neg Bool.false_ne_true, imp_iff_right rfl]
    omega

/-! ### The law -/

/-- What a width makes of the text without it. -/
def WidthMet (sp : Specifier) (s : Spec) (text text' : List Byte) : Prop :=
  text'.length = max s.width text.length ∧
    match sp with
    | .integer k => IntegerExtended k s text text'
    | _ => text' = padded s.flags.left (s.width - text.length) text

/-- Integers need room in the buffer, strings a length that is counted. -/
def WidthHolds (sp : Specifier) (len : Length) (s : Spec) (a : Arg) : Prop :=
  match sp with
  | .integer k => WidthRoom k s (argumentValue len k a)
  | .string => s.flags.precision = false → (cString a.bytes).length < 2 ^ 32 ∨
      s.width ≤ min (cString a.bytes).length (2 ^ 64 - 1) % 2 ^ 32
  | _ => True

theorem Specifier.emits_of_text {sp : Specifier} {s : Spec} {va va' : List Arg} {text : List Byte}
    (h : sp.text s va = some (text, va')) : sp.Emits s va text :=
  ⟨va', fun _ out maxlen o => outSpecifier_eq_emit out maxlen h o⟩

theorem Specifier.emits_text_iff {sp : Specifier} {s : Spec} {va va' : List Arg} {text : List Byte}
    (h : sp.text s va = some (text, va')) (text' : List Byte) :
    sp.Emits s va text' ↔ text' = text :=
  ⟨fun h' => h'.unique (Specifier.emits_of_text h), fun h' => h' ▸ Specifier.emits_of_text h⟩

theorem widthMet_padded {sp : Specifier} (hsp : sp = .character ∨ sp = .string) {s : Spec}
    {text text' : List Byte} :
    WidthMet sp s text text' ↔ text' = padded s.flags.left (s.width - text.length) text := by
  have hpadded : WidthMet sp s text text' ↔ text'.length = max s.width text.length ∧
      text' = padded s.flags.left (s.width - text.length) text := by
    rcases hsp with rfl | rfl <;> exact Iff.rfl
  rw [hpadded]
  refine and_iff_right_of_imp fun h => ?_
  rw [h, length_padded]
  omega

theorem integer_width_iff {k : IntegerSpecifier} {s : Spec} {value : ℤ}
    (harg : IsArgument k value) (hprec : s.flags.precision = false → s.precision = 0) :
    IntegerExtended k s (k.core { s with width := 0 } value)
      (padded s.flags.left (if s.zeroPadded then 0 else k.width s value - (k.core s value).length)
        (k.core s value)) ↔ WidthRoom k s value := by
  cases hpre : k.prefixed s value with
  | false =>
    rw [extended_iff_of_not_prefixed harg hprec hpre]
    exact ⟨fun h => ⟨h, fun h' => Bool.noConfusion (hpre.symm.trans h')⟩, fun h => h.zeros⟩
  | true =>
    cases hp : s.flags.precision with
    | false => exact extended_iff_of_prefixed harg hpre hp (hprec hp)
    | true =>
      have hzero : s.zeroPadded = false := by rw [Spec.zeroPadded, hp, Bool.not_true, Bool.and_false]
      have hplaces : k.places s value = k.leading s value := by
        rw [places_eq k value hprec, if_neg (fun h => Bool.noConfusion (hp.symm.trans h.2.1))]
      refine iff_of_true (extended_of_places hzero ?_)
        ⟨fun h => Bool.noConfusion (hzero.symm.trans h),
          fun _ h => Bool.noConfusion (hp.symm.trans h)⟩
      rw [hplaces, places_withoutWidth k value hprec, leading_of_not_zeroPadded value hzero]

/-- The room does not depend on the negation: decimals have no prefix. -/
theorem widthRoom_printedValue (k : IntegerSpecifier) (len : Length) (s : Spec) (a : Arg) :
    WidthRoom k s (printedValue len k a) ↔ WidthRoom k s (argumentValue len k a) := by
  by_cases hover : NegationOverflows len k a
  · have hnot : ∀ value, ¬k.prefixed s value = true := fun value h =>
      ((prefixed_iff k s value).mp h).2.1 hover.base
    exact ⟨fun h => ⟨h.zeros, fun hpre => absurd hpre (hnot _)⟩,
      fun h => ⟨h.zeros, fun hpre => absurd hpre (hnot _)⟩⟩
  · rw [printedValue_eq hover]

/-- **A field width is met** if and only if padding zeros and prefix have room, and the length of a
string is counted. -/
theorem width_met_iff {d : Directive} (hd : d.specifier ≠ .pointer ∧ d.specifier ≠ .percent)
    {va va' : List Arg} {a : Arg} {s : Spec} (hres : d.resolve va = some (s, a :: va'))
    (hw : d.width.stated va < 2 ^ 31) {text : List Byte}
    (htext : (d.withoutWidth va).Emits (va.drop d.width.kinds.length) text) :
    s.width = d.width.stated va ∧
      ((∃ text', d.Emits va text' ∧ WidthMet d.specifier s text text') ↔
        WidthHolds d.specifier d.length s a) := by
  obtain ⟨hwidth, hres₀⟩ := Directive.resolve_withoutWidth hres hw
  refine ⟨hwidth, ?_⟩
  obtain ⟨hlength, hprec⟩ := Directive.resolve_fields hres
  have htext₀ : d.specifier.Emits { s with width := 0 } (a :: va') text :=
    (Directive.emits_iff hres₀ text).mp htext
  simp only [Directive.emits_iff hres]
  cases hsp : d.specifier with
  | pointer => exact absurd hsp hd.1
  | percent => exact absurd hsp hd.2
  | character =>
    rw [hsp] at htext₀
    have hshown₀ : Specifier.text { s with width := 0 } .character (a :: va') =
        some (characterText { s with width := 0 } a, va') := rfl
    have hshown : Specifier.text s .character (a :: va') = some (characterText s a, va') := rfl
    have hone : text = [a.int.setWidth 8] := by
      rw [(Specifier.emits_text_iff hshown₀ text).mp htext₀, characterText, Nat.zero_sub,
        padded_zero]
    refine iff_of_true ⟨_, Specifier.emits_of_text hshown, ?_⟩ trivial
    rw [characterText, hone, widthMet_padded (.inl rfl)]
    rfl
  | string =>
    rw [hsp] at htext₀
    have hprec' := Directive.resolve_precision_lt hres
    rw [WidthHolds, ← string_width_iff hprec' hprec (hwidth ▸ hw) htext₀]
    simp only [widthMet_padded (.inr rfl)]
  | integer k =>
    rw [hsp] at htext₀
    obtain ⟨value, hvalue⟩ : ∃ value, value = printedValue d.length k a := ⟨_, rfl⟩
    have harg : IsArgument k value := hvalue ▸ isArgument_printedValue d.length k a
    have hshown₀ : Specifier.text { s with width := 0 } (.integer k) (a :: va') =
        some (integerText k.byte { s with width := 0 } a, va') := rfl
    have hcore : text = k.core { s with width := 0 } value := by
      rw [(Specifier.emits_text_iff hshown₀ text).mp htext₀,
        integerText_eq (s := { s with width := 0 }) k hlength hvalue, width_withoutWidth,
        Nat.zero_sub, ite_self, padded_zero]
    have hone : ∀ text', (Specifier.integer k).Emits s (a :: va') text' ↔
        text' = padded s.flags.left (if s.zeroPadded then 0 else
          k.width s value - (k.core s value).length) (k.core s value) := by
      intro text'
      rw [← integerText_eq k hlength hvalue]
      exact Specifier.emits_text_iff rfl text'
    rw [WidthHolds, ← widthRoom_printedValue, ← hvalue, ← integer_width_iff harg hprec, ← hcore]
    simp only [hone, exists_eq_left]
    exact ⟨fun h => h.2, fun h => ⟨h.length, h⟩⟩

/-- `%*d` with a width of -6. -/
theorem width_met_iff_star :
    6 = 6 ∧ ((∃ text', Directive.Emits { width := .star, specifier := .integer .d }
        [⟨-6, []⟩, ⟨42, []⟩] text' ∧
          WidthMet (.integer .d) ⟨{ left := true }, 6, 0⟩ [ch '4', ch '2'] text') ↔
      WidthHolds (.integer .d) .none ⟨{ left := true }, 6, 0⟩ ⟨42, []⟩) := by
  have hres : Directive.resolve { width := .star, specifier := .integer .d }
      [⟨-6, []⟩, ⟨42, []⟩] = some (⟨{ left := true }, 6, 0⟩, [⟨42, []⟩]) := rfl
  have hres₀ : (Directive.withoutWidth { width := .star, specifier := .integer .d }
      [⟨-6, []⟩, ⟨42, []⟩]).resolve [⟨42, []⟩] =
        some (⟨{ left := true }, 0, 0⟩, [⟨42, []⟩]) := rfl
  have htext : Specifier.text ⟨{ left := true }, 0, 0⟩ (.integer .d) [⟨42, []⟩] =
      some ([ch '4', ch '2'], []) := by decide
  have hemits := (Directive.emits_iff hres₀ _).mpr (Specifier.emits_of_text htext)
  have hinteger : Specifier.integer .d ≠ .pointer ∧ Specifier.integer .d ≠ .percent :=
    ⟨fun h => (by cases h), fun h => (by cases h)⟩
  exact width_met_iff hinteger hres (by decide) hemits

/-- `%040d` of 7 has 32 characters. -/
theorem zeros_end_with_buffer :
    Directive.Emits { flags := [.zero], specifier := .integer .d } [⟨7, []⟩] [ch '7'] ∧
      ¬∃ text', Directive.Emits
          { flags := [.zero], width := .number 3 [0], specifier := .integer .d } [⟨7, []⟩] text' ∧
        WidthMet (.integer .d) ⟨{ zeropad := true }, 40, 0⟩ [ch '7'] text' := by
  have hres₀ : Directive.resolve { flags := [.zero], specifier := .integer .d } [⟨7, []⟩] =
      some (⟨{ zeropad := true }, 0, 0⟩, [⟨7, []⟩]) := rfl
  have hres : Directive.resolve
      { flags := [.zero], width := .number 3 [0], specifier := .integer .d } [⟨7, []⟩] =
        some (⟨{ zeropad := true }, 40, 0⟩, [⟨7, []⟩]) := rfl
  have htext₀ : Specifier.text ⟨{ zeropad := true }, 0, 0⟩ (.integer .d) [⟨7, []⟩] =
      some ([ch '7'], []) := by decide
  have hshort : (integerText (ch 'd') ⟨{ zeropad := true }, 40, 0⟩ ⟨7, []⟩).length = 32 := by
    decide
  refine ⟨(Directive.emits_iff hres₀ _).mpr (Specifier.emits_of_text htext₀), ?_⟩
  rintro ⟨text', hemits, hlen, -⟩
  have htext : text' = integerText (ch 'd') ⟨{ zeropad := true }, 40, 0⟩ ⟨7, []⟩ :=
    ((Directive.emits_iff hres text').mp hemits).unique (Specifier.emits_of_text rfl)
  rw [htext, hshort] at hlen
  exact absurd hlen (by decide)

end MegaOS.Log
