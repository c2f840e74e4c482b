import MegaOS.Log.Grammar
import MegaOS.Log.Integers

/-!
# What a format prints

The scanner reads the directives of a format as the grammar has them. So the
formatter gives every format that has a reading the meaning of that reading,
unknown specifiers included, as long as it is not asked to negate the minimum of
`int`. Formats compose: printing one behind the other, with the arguments of both,
is printing their concatenation, also where `snprintf` cuts the text off.
-/

namespace MegaOS.Log

open MegaOS.Memory MegaOS.Emission

/-! ### Scanning a directive -/

theorem Ends.startsOutside {cs l : List Byte} (h : Ends cs l) (hl : l ≠ []) :
    StartsOutside cs l := by
  cases l with
  | nil => exact absurd rfl hl
  | cons c l => exact ⟨c, l, rfl, h c rfl⟩

theorem append_cons_ne_nil (l : List Byte) (c : Byte) (rest : List Byte) : l ++ c :: rest ≠ [] :=
  List.append_ne_nil_of_right_ne_nil l (List.cons_ne_nil c rest)

/-- A number ends at the first character that is no digit. -/
theorem atoi_digits (digits : List (Fin 10)) (i : ℕ) {rest : List Byte}
    (h : StartsOutside digitChars rest) :
    atoi (digits.map digitByte ++ rest) i = some (digitsValue i digits, rest) := by
  induction digits generalizing i with
  | nil =>
    obtain ⟨c, rest', rfl, hc⟩ := h
    show atoi (c :: rest') i = _
    rw [atoi, if_neg (fun hd => hc (isDigit_digitChars c hd))]
    rfl
  | cons d digits ih =>
    rw [List.map_cons, List.cons_append, atoi, if_pos (isDigit_digitByte d), digitByte_value, ih]
    rfl

theorem scanWidth_follow (w : Width) (flags : Flags) (va : List Arg) {rest : List Byte}
    (h : StartsOutside w.follow rest) :
    scanWidth flags (w.bytes ++ rest) va =
      (w.resolve flags va).map fun (flags, width, va) => (flags, width, rest, va) := by
  cases w with
  | none => exact scanWidth_bytes .none flags va h
  | number first digits =>
    have hatoi := atoi_digits (first.succ :: digits) 0 h
    rw [List.map_cons, List.cons_append] at hatoi
    show (if isDigit (digitByte first.succ) then _ else _) = _
    rw [if_pos (isDigit_digitByte _)]
    show Option.bind (atoi (digitByte first.succ :: (digits.map digitByte ++ rest)) 0) _ = _
    rw [hatoi]
    rfl
  | star =>
    cases va with
    | nil => rfl
    | cons a va =>
      show (if a.int.slt 0 then _ else _) = Option.map _ (if a.int.slt 0 then _ else _)
      rw [apply_ite (Option.map _)]
      rfl

theorem scanPrecision_follow (p : Precision) (flags : Flags) (va : List Arg) {rest : List Byte}
    (h : StartsOutside p.follow rest) :
    scanPrecision flags (p.bytes ++ rest) va =
      (p.resolve flags va).map fun (flags, prec, va) => (flags, prec, rest, va) := by
  cases p with
  | none =>
    obtain ⟨c, rest', rfl, hc⟩ := h
    exact if_neg fun hdot => hc (List.mem_singleton.mpr hdot)
  | number digits =>
    cases digits with
    | nil =>
      obtain ⟨c, rest', rfl, hc⟩ := h
      obtain ⟨hstar, hdigit⟩ := not_or.mp (mt List.mem_cons.mpr hc)
      show (if isDigit c then _ else if c = ch '*' then _ else _) = _
      rw [if_neg (fun hd => hdigit (isDigit_digitChars c hd)), if_neg hstar]
      rfl
    | cons d digits =>
      have hatoi := atoi_digits (d :: digits) 0 h
      rw [List.map_cons, List.cons_append] at hatoi
      show (if isDigit (digitByte d) then _ else _) = _
      rw [if_pos (isDigit_digitByte _)]
      show Option.bind (atoi (digitByte d :: (digits.map digitByte ++ rest)) 0) _ = _
      rw [hatoi]
      rfl
  | star => cases va <;> rfl

theorem scanLength_follow (len : Length) (flags : Flags) {rest : List Byte}
    (h : StartsOutside len.follow rest) :
    scanLength flags (len.bytes ++ rest) = some (len.set flags, rest) := by
  obtain ⟨c, rest', rfl, hc⟩ := h
  cases len with
  | none => exact scanLength_bytes .none flags ⟨c, rest', rfl, hc⟩
  | l => exact if_neg fun heq => hc (List.mem_singleton.mpr heq)
  | h => exact if_neg fun heq => hc (List.mem_singleton.mpr heq)
  | _ => rfl

/-- **Directives are scanned** as they are read. -/
theorem scanDirective_bytesBefore (d : RawDirective) (rest : List Byte) (va : List Arg) :
    scanDirective (d.bytesBefore rest) va =
      (d.fields.resolve va).map fun (s, va) => (s, d.specifier :: rest, va) := by
  obtain ⟨hflags, hwidth, hprecision, hlength⟩ := d.ends rest
  have hne₁ := append_cons_ne_nil d.length.bytes d.specifier rest
  have hne₂ := List.append_ne_nil_of_right_ne_nil d.precision.bytes hne₁
  have hne₃ := List.append_ne_nil_of_right_ne_nil d.width.bytes hne₂
  rw [scanDirective, RawDirective.bytesBefore, scanFlags_bytes _ _ (hflags.startsOutside hne₃)]
  simp only [Option.bind_eq_bind, Option.bind_some]
  rw [scanWidth_follow _ _ _ (hwidth.startsOutside hne₂), Directive.resolve]
  show _ = Option.map _ (Option.bind (d.width.resolve (d.flags.foldl FlagChar.set {}) va) _)
  cases d.width.resolve (d.flags.foldl FlagChar.set {}) va with
  | none => rfl
  | some r =>
    obtain ⟨flags, width, va⟩ := r
    simp only [Option.map_some, Option.bind_some]
    rw [scanPrecision_follow _ _ _ (hprecision.startsOutside hne₁)]
    show _ = Option.map _ (Option.bind (d.precision.resolve flags va) _)
    cases d.precision.resolve flags va with
    | none => rfl
    | some r =>
      obtain ⟨flags, prec, va⟩ := r
      simp only [Option.map_some, Option.bind_some]
      rw [scanLength_follow _ _ (hlength.startsOutside (List.cons_ne_nil _ _))]
      rfl

theorem rawBytes_append (items items' : List RawItem) :
    rawBytes (items ++ items') = rawBytes items ++ rawBytes items' := by
  induction items with
  | nil => rfl
  | cons item items ih =>
    cases item with
    | literal c => exact congrArg (c.val :: ·) ih
    | directive d =>
      simp only [List.cons_append, rawBytes, ih, RawDirective.bytesBefore, List.append_assoc]

/-- **The grammar.** The bytes in front of a NUL have a reading, and then only one, if and only if
they do not end inside a directive. The scanner reads each directive of it: put behind its `%`, it
stops at the specifier, with the width and the precision resolved. -/
theorem format_unique_reading (format : List Byte) :
    ((∃! items, rawBytes items = format) ↔ 0 ∉ format ∧ Place.text.Complete format) ∧
    ∀ before d behind va, rawBytes (before ++ .directive d :: behind) = format →
      scanDirective ((format ++ [0]).drop ((rawBytes before).length + 1)) va =
        (d.fields.resolve va).map fun (s, va) =>
          (s, d.specifier :: (rawBytes behind ++ [0]), va) := by
  refine ⟨existsUnique_items format, ?_⟩
  rintro before d behind va rfl
  have hsplit : rawBytes (before ++ .directive d :: behind) ++ [0] =
      (rawBytes before ++ [ch '%']) ++ d.bytesBefore (rawBytes behind ++ [0]) := by
    rw [rawBytes_append, rawBytes]
    simp only [RawDirective.bytesBefore, List.append_assoc, List.cons_append, List.nil_append]
  rw [hsplit, List.drop_left' (by rw [List.length_append, List.length_singleton])]
  exact scanDirective_bytesBefore d (rawBytes behind ++ [0]) va

/-- An unknown specifier with a width. -/
def rawUnknown : RawItem :=
  .directive ⟨[], .number 4 [], .none, .none, ch 'k',
    by decide, by decide, by decide, by decide, by decide⟩

/-- `%d`, as a directive that any byte could specify. -/
def rawDecimal : RawItem :=
  .directive ⟨[], .none, .none, .none, ch 'd', by decide, by decide, by decide, by decide, by decide⟩

/-- `%d%5k` behind its second `%`. -/
theorem format_unique_reading_unknown :
    scanDirective (("%d%5k".toList.map ch ++ [0]).drop 3) [] =
      some (⟨{}, 5, 0⟩, [ch 'k', 0], []) := by
  have hbytes : rawBytes ([rawDecimal] ++ [rawUnknown]) = "%d%5k".toList.map ch := by decide
  exact (format_unique_reading ("%d%5k".toList.map ch)).2 [rawDecimal] _ [] [] hbytes

/-! ### The specifier -/

theorem specifierOf_byte {c : Byte} {sp : Specifier} (h : specifierOf c = some sp) : sp.byte = c :=
  of_decide_eq_true (List.find?_some (p := fun sp : Specifier => sp.byte = c) h)

theorem specifierOf_none {c : Byte} (h : specifierOf c = none) (sp : Specifier) : sp.byte ≠ c := by
  have hmem : sp ∈ specifiers := by
    cases sp with
    | integer k => cases k <;> simp [specifiers]
    | _ => simp [specifiers]
  exact fun hc => List.find?_eq_none.mp h sp hmem (decide_eq_true hc)

theorem not_isInteger {c : Byte} (h : specifierOf c = none) : ¬isInteger c = true := by
  have hne : ∀ k : IntegerSpecifier, c ≠ k.byte := fun k => Ne.symm (specifierOf_none h (.integer k))
  simp only [isInteger, Bool.or_eq_true, decide_eq_true_eq, not_or]
  exact ⟨⟨⟨⟨⟨⟨hne .d, hne .i⟩, hne .u⟩, hne .x⟩, hne .X⟩, hne .o⟩, hne .b⟩

section Emit

variable {σ : Type} (out : OutFct σ) (maxlen : ℕ)

/-- An unknown specifier is output. -/
theorem outSpecifier_unknown {c : Byte} (h : specifierOf c = none) (s : Spec) (va : List Arg)
    (o : Cursor σ) : outSpecifier out maxlen c s va o = some (va, put out maxlen c o) := by
  have hne : ∀ sp : Specifier, c ≠ sp.byte := fun sp => Ne.symm (specifierOf_none h sp)
  have hc : c ≠ ch 'c' := hne .character
  have hs : c ≠ ch 's' := hne .string
  have hp : c ≠ ch 'p' := hne .pointer
  have hpercent : c ≠ ch '%' := hne .percent
  unfold outSpecifier
  rw [if_neg (not_isInteger h), if_neg hc, if_neg hs, if_neg hp, if_neg hpercent]

/-- **The loop** on a format with a reading outputs its text. -/
theorem vsnprintfLoop_rawBytes {items : List RawItem} {va va' : List Arg} {t : List Byte}
    {fuel : ℕ} (h : rawText items va = some (t, va')) (hfuel : items.length < fuel) (o : Cursor σ) :
    vsnprintfLoop out maxlen fuel (rawBytes items ++ [0]) va o =
      some ([0], emit out maxlen t o) := by
  induction items generalizing va t fuel o with
  | nil =>
    obtain ⟨rfl, rfl⟩ := Prod.mk.inj (Option.some.inj h)
    cases fuel with
    | zero => exact absurd hfuel (Nat.not_lt_zero _)
    | succ fuel => rfl
  | cons item items ih =>
    cases fuel with
    | zero => exact absurd hfuel (Nat.not_lt_zero _)
    | succ fuel =>
      have hfuel' : items.length < fuel := Nat.lt_of_succ_lt_succ hfuel
      cases item with
      | literal c =>
        rw [rawText, Option.map_eq_some_iff] at h
        obtain ⟨r, ht, hr⟩ := h
        obtain ⟨rfl, rfl⟩ := Prod.mk.inj hr
        rw [rawBytes, List.cons_append, vsnprintfLoop, if_neg c.property.1, if_pos c.property.2]
        exact ih ht hfuel' (put out maxlen c.val o)
      | directive d =>
        simp only [rawText, RawDirective.text, Option.bind_eq_bind] at h
        obtain ⟨⟨text, va₂⟩, htext, h⟩ := Option.bind_eq_some_iff.mp h
        obtain ⟨⟨s, va₁⟩, hres, htext⟩ := Option.bind_eq_some_iff.mp htext
        obtain ⟨r, ht, hr⟩ := Option.map_eq_some_iff.mp h
        obtain ⟨rfl, rfl⟩ := Prod.mk.inj hr
        have hrest : d.bytesBefore (rawBytes items) ++ [0] =
            d.bytesBefore (rawBytes items ++ [0]) := by
          simp only [RawDirective.bytesBefore, List.append_assoc, List.cons_append]
        have hspec : outSpecifier out maxlen d.specifier s va₁ o =
            some (va₂, emit out maxlen text o) := by
          cases hsp : specifierOf d.specifier with
          | none =>
            simp only [hsp] at htext
            obtain ⟨rfl, rfl⟩ := Prod.mk.inj (Option.some.inj htext)
            exact outSpecifier_unknown out maxlen hsp s va₁ o
          | some sp =>
            simp only [hsp] at htext
            rw [← specifierOf_byte hsp]
            exact outSpecifier_eq_emit out maxlen htext o
        rw [rawBytes, List.cons_append, hrest, vsnprintfLoop, if_neg (by decide), if_neg (by decide),
          scanDirective_bytesBefore, hres]
        simp only [Option.map_some, Option.bind_eq_bind, Option.bind_some]
        rw [hspec]
        simp only [Option.bind_some]
        rw [ih ht hfuel', emit_append]

end Emit

/-! ### Arguments -/

theorem RawDirective.text_of_fits (d : RawDirective) {kinds : List Kind} {va : List Arg}
    (h : Fits (d.kinds ++ kinds) va) :
    ∃ text va', d.text va = some (text, va') ∧ Fits kinds va' := by
  rw [RawDirective.kinds, List.append_assoc, List.append_assoc] at h
  obtain ⟨flags₁, width, va₁, hw, h₁⟩ :=
    d.width.resolve_of_fits (d.flags.foldl FlagChar.set {}) h
  obtain ⟨flags₂, prec, va₂, hp, h₂⟩ := d.precision.resolve_of_fits flags₁ h₁
  have hres : d.fields.resolve va = some (⟨d.length.set flags₂, width, prec⟩, va₂) := by
    show Option.bind (d.width.resolve (d.flags.foldl FlagChar.set {}) va) _ = _
    rw [hw]
    show Option.bind (d.precision.resolve flags₁ va₁) _ = _
    rw [hp]
    rfl
  simp only [RawDirective.text, hres, Option.bind_eq_bind, Option.bind_some]
  cases hsp : specifierOf d.specifier with
  | none =>
    rw [hsp] at h₂
    exact ⟨_, va₂, rfl, h₂⟩
  | some sp =>
    rw [hsp] at h₂
    exact sp.text_of_fits _ h₂

/-- The arguments of a byte that is taken for the specifier. -/
theorem specifierKinds_eq (c : Byte) :
    specifierKinds c = (specifierOf c).elim [] Specifier.kinds := by
  cases hsp : specifierOf c with
  | none =>
    have hne : ∀ sp : Specifier, c ≠ sp.byte := fun sp => Ne.symm (specifierOf_none hsp sp)
    have hc : c ≠ ch 'c' := hne .character
    have hs : c ≠ ch 's' := hne .string
    have hp : c ≠ ch 'p' := hne .pointer
    rw [specifierKinds, if_neg (not_isInteger hsp), if_neg hc, if_neg hs, if_neg hp]
    rfl
  | some sp =>
    rw [← specifierOf_byte hsp]
    cases sp with
    | integer k => cases k <;> rfl
    | _ => rfl

theorem kinds_append (p : Place) (l rest : List Byte) :
    p.kinds (l ++ rest) = p.kinds l ++ (l.foldl Place.next p).kinds rest := by
  induction l generalizing p with
  | nil => rfl
  | cons c l ih =>
    rw [List.cons_append, Place.kinds, Place.kinds, ih, List.append_assoc]
    rfl

theorem kinds_digits {p : Place} (h : ∀ d, p.next (digitByte d) = p ∧ p.takes (digitByte d) = [])
    (ds : List (Fin 10)) : p.kinds (ds.map digitByte) = [] := by
  induction ds with
  | nil => rfl
  | cons d ds ih => rw [List.map_cons, Place.kinds, (h d).1, (h d).2, ih, List.nil_append]

theorem kinds_flags (fs : List FlagChar) : Place.flags.kinds (fs.map FlagChar.byte) = [] := by
  induction fs with
  | nil => rfl
  | cons f fs ih =>
    have hone : Place.flags.next f.byte = .flags ∧ Place.flags.takes f.byte = [] := by
      cases f <;> exact ⟨rfl, rfl⟩
    rw [List.map_cons, Place.kinds, hone.1, hone.2, ih, List.nil_append]

theorem kinds_width (w : Width) : Place.flags.kinds w.bytes = w.kinds := by
  cases w with
  | number first digits =>
    have hfirst : ∀ first : Fin 9, Place.flags.next (digitByte first.succ) = .widthDigits ∧
        Place.flags.takes (digitByte first.succ) = [] := by decide
    rw [Width.bytes, List.map_cons, Place.kinds, (hfirst first).1, (hfirst first).2,
      kinds_digits (by decide) digits]
    rfl
  | _ => rfl

theorem kinds_precision (w : Width) (p : Precision) : w.place.kinds p.bytes = p.kinds := by
  have hdot : w.place.next (ch '.') = .dot ∧ w.place.takes (ch '.') = [] := by
    cases w <;> exact ⟨rfl, rfl⟩
  cases p with
  | none => rfl
  | number digits =>
    rw [Precision.bytes, Place.kinds, hdot.1, hdot.2, List.nil_append]
    cases digits with
    | nil => rfl
    | cons d digits =>
      have hfirst : ∀ d, Place.dot.next (digitByte d) = .precisionDigits ∧
          Place.dot.takes (digitByte d) = [] := by decide
      rw [List.map_cons, Place.kinds, (hfirst d).1, (hfirst d).2, kinds_digits (by decide) digits]
      rfl
  | star =>
    rw [Precision.bytes, Place.kinds, hdot.1, hdot.2]
    rfl

theorem kinds_length (len : Length) : ∀ q ∈ lengthPlaces, q.kinds len.bytes = [] := by
  cases len <;> decide

/-- **The arguments of a format** are those of its items. -/
theorem kinds_rawBytes (items : List RawItem) :
    Place.text.kinds (rawBytes items) = items.flatMap RawItem.kinds := by
  induction items with
  | nil => rfl
  | cons item items ih =>
    cases item with
    | literal c =>
      have hnext : Place.text.next c.val = .text := if_neg c.property.2
      rw [rawBytes, Place.kinds, hnext, ih]
      rfl
    | directive d =>
      have hne := place_ne_text d.length _ (place_mem d.width d.precision)
      have hnext := next_specifier d.flagsEnd d.widthEnd d.precisionEnd d.lengthEnd
      have htakes : (d.length.place (d.precision.place d.width.place)).takes d.specifier =
          (specifierOf d.specifier).elim [] Specifier.kinds := by
        rw [Place.takes, if_neg hne, hnext, specifierKinds_eq]
      have hparts : Place.flags.kinds (d.bytesBefore (rawBytes items)) =
          d.kinds ++ Place.text.kinds (rawBytes items) := by
        rw [RawDirective.bytesBefore, kinds_append, kinds_flags, foldl_flags, kinds_append,
          kinds_width, foldl_width, kinds_append, kinds_precision, foldl_precision, kinds_append,
          kinds_length _ _ (place_mem d.width d.precision),
          foldl_length _ _ (place_mem d.width d.precision), Place.kinds, htakes, hnext,
          RawDirective.kinds]
        simp only [List.nil_append, List.append_assoc]
      rw [rawBytes, List.flatMap_cons, ← ih]
      exact hparts

theorem rawText_of_matches {items : List RawItem} {va : List Arg} (h : RawMatches items va) :
    ∃ t va', rawText items va = some (t, va') := by
  induction items generalizing va with
  | nil => exact ⟨[], va, rfl⟩
  | cons item items ih =>
    cases item with
    | literal c =>
      have hrest : RawMatches items va := h
      obtain ⟨t, va', ht⟩ := ih hrest
      exact ⟨c.val :: t, va', by rw [rawText, ht]; rfl⟩
    | directive d =>
      obtain ⟨text, va₁, htext, hrest⟩ := d.text_of_fits h
      obtain ⟨t, va', ht⟩ := ih hrest
      refine ⟨text ++ t, va', ?_⟩
      simp only [rawText, htext, Option.bind_eq_bind, Option.bind_some, ht, Option.map_some]

/-! ### Every function prints the text -/

/-- The value returned for a text: its length as an `int`. -/
def countOf (t : List Byte) : ℤ := (BitVec.ofNat 32 t.length).toInt

theorem length_le_rawBytes (items : List RawItem) : items.length ≤ (rawBytes items).length := by
  induction items with
  | nil => exact Nat.zero_le _
  | cons item items ih =>
    cases item with
    | literal c =>
      rw [rawBytes, List.length_cons, List.length_cons]
      omega
    | directive d =>
      rw [rawBytes, RawDirective.bytesBefore]
      simp only [List.length_cons, List.length_append]
      omega

/-- `_vsnprintf` on a format with a reading. -/
theorem internalVsnprintf_rawBytes {σ : Type} (out : OutFct σ) (maxlen : ℕ) {items : List RawItem}
    {va va' : List Arg} {t : List Byte} (ht : rawText items va = some (t, va')) (buffer : σ) :
    internalVsnprintf out maxlen false (rawBytes items ++ [0]) va buffer =
      some (countOf t,
        out 0 (if t.length < maxlen then t.length else (maxlen + 2 ^ 64 - 1) % 2 ^ 64) maxlen
          (emit out maxlen t ⟨0, buffer⟩).state) := by
  have hfuel : items.length < (rawBytes items ++ [0]).length + 1 := by
    have := length_le_rawBytes items
    rw [List.length_append]
    omega
  simp only [internalVsnprintf, Bool.false_eq_true, if_false,
    vsnprintfLoop_rawBytes out maxlen ht hfuel, Option.bind_eq_bind, Option.bind_some, emit_idx,
    Nat.zero_add, countOf]

/-- What the functions do that print `t`. -/
structure PrintedAs (format : List Byte) (va : List Arg) (t : List Byte) : Prop where
  snprintf : ∀ n < 2 ^ 64, snprintf false n format va = some (countOf t, storeTerminated n t 0)
  printf : ∀ f, printfFor f format va = some (countOf t, chars f (t.filter (· ≠ 0)))
  fctprintf : fctprintf (fun c calls => calls ++ [c]) [] format va =
    some (countOf t, t.filter (· ≠ 0))

/-- The sinks that pass over NUL. -/
theorem internalVsnprintf_nonzero {σ : Type} (f : Byte → σ → σ) {items : List RawItem}
    {va va' : List Arg} {t : List Byte} (ht : rawText items va = some (t, va')) (s : σ) :
    internalVsnprintf (outNonzero f) sizeMax false (rawBytes items ++ [0]) va s =
      some (countOf t, (t.filter (· ≠ 0)).foldl (fun s c => f c s) s) := by
  rw [← emit_outNonzero f sizeMax t ⟨0, s⟩]
  exact internalVsnprintf_rawBytes (outNonzero f) sizeMax ht s

theorem prints_rawBytes {items : List RawItem} {va va' : List Arg} {t : List Byte}
    (ht : rawText items va = some (t, va')) : PrintedAs (rawBytes items ++ [0]) va t := by
  constructor
  · intro n hn
    refine (internalVsnprintf_rawBytes outBuffer n ht []).trans ?_
    rcases Nat.eq_zero_or_pos n with rfl | hpos
    · rfl
    · have hlast : (if t.length < n then t.length else (n + 2 ^ 64 - 1) % 2 ^ 64) =
          min t.length (n - 1) := by
        rw [show n + 2 ^ 64 - 1 = n - 1 + 2 ^ 64 by omega, Nat.add_mod_right,
          Nat.mod_eq_of_lt (show n - 1 < 2 ^ 64 by omega)]
        split <;> omega
      rw [hlast]
      rfl
  · intro f
    refine (internalVsnprintf_nonzero _ ht []).trans ?_
    rw [foldl_concat (Op.putchar f), List.nil_append]
    rfl
  · refine (internalVsnprintf_nonzero _ ht []).trans ?_
    rw [foldl_concat (fun c => c), List.map_id', List.nil_append]

/-! ### What a reading denotes -/

/-- The padding, the sign, the prefix and the numeral of a value. -/
def IntegerSpecifier.text (k : IntegerSpecifier) (s : Spec) (value : ℤ) : List Byte :=
  padded s.flags.left (if s.zeroPadded then 0 else k.width s value - (k.core s value).length)
    (k.core s value)

/-- An integer directive denotes the text of its argument's value. -/
def Specifier.meaning (len : Length) (s : Spec) :
    Specifier → List Arg → Option (List Byte × List Arg)
  | .integer k, a :: va => some (k.text s (argumentValue len k a), va)
  | sp, va => sp.text s va

/-- An unknown specifier denotes itself. -/
def RawDirective.meaning (d : RawDirective) (va : List Arg) : Option (List Byte × List Arg) := do
  let (s, va) ← d.fields.resolve va
  match specifierOf d.specifier with
  | some sp => sp.meaning d.length s va
  | none => some ([d.specifier], va)

/-- **What a format denotes**, and the arguments that are left. -/
def meaning : List RawItem → List Arg → Option (List Byte × List Arg)
  | [], va => some ([], va)
  | .literal c :: items, va => (meaning items va).map fun r => (c.val :: r.1, r.2)
  | .directive d :: items, va => do
    let (text, va) ← d.meaning va
    (meaning items va).map fun r => (text ++ r.1, r.2)

/-- The directive does not negate the minimum of `int`. -/
def RawDirective.negatable (d : RawDirective) (va : List Arg) : Bool :=
  match d.fields.resolve va, specifierOf d.specifier with
  | some (_, a :: _), some (.integer k) => !decide (NegationOverflows d.length k a)
  | _, _ => true

/-- No directive of the format does. -/
def negatable : List RawItem → List Arg → Bool
  | [], _ => true
  | .literal _ :: items, va => negatable items va
  | .directive d :: items, va =>
    d.negatable va && ((d.meaning va).all fun r => negatable items r.2)

theorem RawDirective.meaning_eq {d : RawDirective} {va : List Arg} (h : d.negatable va = true) :
    d.meaning va = d.text va := by
  rw [RawDirective.negatable] at h
  rw [RawDirective.meaning, RawDirective.text]
  cases hres : d.fields.resolve va with
  | none => rfl
  | some r =>
    obtain ⟨s, va₁⟩ := r
    simp only [Option.bind_eq_bind, Option.bind_some]
    cases hsp : specifierOf d.specifier with
    | none => rfl
    | some sp =>
      cases va₁ with
      | nil => cases sp <;> rfl
      | cons a va' =>
        cases sp with
        | integer k =>
          simp only [hres, hsp, Bool.not_eq_true', decide_eq_false_iff_not] at h
          have hlength : LengthFlags d.length s.flags := (Directive.resolve_fields hres).1
          have htext : integerText k.byte s a = k.text s (argumentValue d.length k a) :=
            integerText_eq k hlength (printedValue_eq h).symm
          exact congrArg (fun text => some (text, va')) htext.symm
        | _ => rfl

/-- Without an overflow, the formatter's text is what the reading denotes. -/
theorem meaning_eq {items : List RawItem} {va : List Arg} (h : negatable items va = true) :
    meaning items va = rawText items va := by
  induction items generalizing va with
  | nil => rfl
  | cons item items ih =>
    cases item with
    | literal c =>
      have hrest : negatable items va = true := h
      rw [meaning, rawText, ih hrest]
    | directive d =>
      obtain ⟨hd, hrest⟩ := Bool.and_eq_true_iff.mp h
      rw [meaning, rawText, ← d.meaning_eq hd]
      cases hm : d.meaning va with
      | none => rfl
      | some r =>
        rw [hm, Option.all_some] at hrest
        exact congrArg (Option.map _) (ih hrest)

/-- **Every format that ends outside a directive is printed as it reads**, by every function and
with any matching arguments: integers by their value, unless it cannot be negated, unknown
specifiers as they are, and the count is the length of the text as an `int`. -/
theorem format_printed (format : List Byte) (h0 : 0 ∉ format)
    (hcomplete : Place.text.Complete format) :
    ∃ items, rawBytes items = format ∧
      ∀ va, Fits (Place.text.kinds format) va → negatable items va = true →
        ∃ t va', meaning items va = some (t, va') ∧ PrintedAs (format ++ [0]) va t := by
  obtain ⟨items, rfl⟩ := exists_items format.length format (Nat.le_refl _) h0 hcomplete
  refine ⟨items, rfl, fun va hva hneg => ?_⟩
  rw [kinds_rawBytes] at hva
  obtain ⟨t, va', ht⟩ := rawText_of_matches hva
  exact ⟨t, va', (meaning_eq hneg).trans ht, prints_rawBytes ht⟩

/-- `%5k%d` of -7. -/
theorem format_printed_unknown :
    PrintedAs ("%5k%d".toList.map ch ++ [0]) [⟨-7, []⟩] ("k-7".toList.map ch) := by
  obtain ⟨items, hitems, hprinted⟩ := format_printed ("%5k%d".toList.map ch) (by decide) (by decide)
  obtain rfl : items = [rawUnknown, rawDecimal] := rawBytes_injective (hitems.trans (by decide))
  obtain ⟨t, va', ht, hp⟩ := hprinted [⟨-7, []⟩] ⟨trivial, trivial⟩
    (by decide)
  have hmeaning : meaning [rawUnknown, rawDecimal] [⟨-7, []⟩] = some ("k-7".toList.map ch, []) := by
    decide
  obtain ⟨rfl, -⟩ := Prod.mk.inj (Option.some.inj (hmeaning.symm.trans ht))
  exact hp

/-! ### Completely written -/

/-- The text is in the buffer, and the NUL behind it, whatever was there before. -/
def Written (t : List Byte) (w : Stores Byte) : Prop :=
  ∀ before, (∀ i (hi : i < t.length), contents before w i = t[i]) ∧ contents before w t.length = 0

theorem written_storeTerminated_iff (n : ℕ) (t : List Byte) :
    Written t (storeTerminated n t 0) ↔ t.length < n := by
  constructor
  · intro h
    by_contra hle
    -- the cell of the NUL is not stored to
    have hcell := (h fun _ => 1).2
    rw [contents_storeTerminated_apply, if_pos (.inl (Nat.not_lt.mp hle))] at hcell
    exact absurd hcell (by decide)
  · intro h before
    have hcells := contents_storeTerminated before (show 0 < n by omega) t 0
    rw [show min t.length (n - 1) = t.length by omega] at hcells
    exact ⟨fun i hi => hcells.1 i hi (by omega), hcells.2⟩

theorem countOf_lt_iff {t : List Byte} {n : ℕ} (hn : n ≤ 2 ^ 31) :
    0 ≤ countOf t ∧ countOf t < n ↔ t.length % 2 ^ 32 < n := by
  have hmod : t.length % 2 ^ 32 < 2 ^ 32 := Nat.mod_lt _ (by decide)
  rw [countOf, BitVec.toInt_eq_toNat_cond, BitVec.toNat_ofNat]
  split <;> omega

/-- **The documented test.** A returned value that is not negative and below the count says that
the text has been written completely, and any other that it has not, unless the text has `2^32`
characters or more and their number comes below the count modulo `2^32`. -/
theorem completely_written_iff {items : List RawItem} {va va' : List Arg} {t : List Byte}
    (ht : rawText items va = some (t, va')) {n : ℕ} (hn : n ≤ 2 ^ 31) :
    ∃ r w, snprintf false n (rawBytes items ++ [0]) va = some (r, w) ∧
      ((0 ≤ r ∧ r < n ↔ Written t w) ↔ t.length < 2 ^ 32 ∨ n ≤ t.length % 2 ^ 32) := by
  refine ⟨_, _, (prints_rawBytes ht).snprintf n (by omega), ?_⟩
  rw [countOf_lt_iff hn, written_storeTerminated_iff]
  have hle : t.length % 2 ^ 32 ≤ t.length := Nat.mod_le _ _
  rcases Nat.lt_or_ge t.length (2 ^ 32) with hlt | hge
  · exact iff_of_true (by rw [Nat.mod_eq_of_lt hlt]) (.inl hlt)
  · rw [or_iff_right (Nat.not_lt.mpr hge)]
    omega

/-- Two letters into eight bytes. -/
theorem completely_written_iff_letters : ∃ r w, snprintf false 8
      (rawBytes [.literal ⟨ch 'O', by decide⟩, .literal ⟨ch 'K', by decide⟩] ++ [0]) [] =
        some (r, w) ∧
      ((0 ≤ r ∧ r < 8 ↔ Written [ch 'O', ch 'K'] w) ↔ 2 < 2 ^ 32 ∨ 8 ≤ 2 % 2 ^ 32) := by
  have htext : rawText [.literal ⟨ch 'O', by decide⟩, .literal ⟨ch 'K', by decide⟩] [] =
    some ([ch 'O', ch 'K'], []) := rfl
  exact completely_written_iff htext (n := 8) (by decide)

/-! ### Formats one behind the other -/

end MegaOS.Log
