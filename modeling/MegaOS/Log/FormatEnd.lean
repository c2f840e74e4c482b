import MegaOS.Log.Directive

/-!
# Where the formatter stops

Any bytes may be given as a format. Reading them from left to right, each stands
at a place: in the text, or at some point of a directive. The formatter reads a
format up to its NUL and no further, unless the format ends inside a directive:
then the NUL is output as an unknown specifier, and the bytes behind it are read.
-/

namespace MegaOS.Log

open MegaOS.Memory MegaOS.Emission

/-! ### Places -/

/-- What has been read so far. `width`, `precision`, `length` and `specifier` are about to be
looked for. -/
inductive Place
  | text | flags | width | widthDigits | precision | dot | precisionDigits | length | l | h
  | specifier
deriving DecidableEq

/-- After a character that can be a length modifier or the specifier. -/
def Place.afterLength (c : Byte) : Place :=
  if c = ch 'l' then .l
  else if c = ch 'h' then .h
  else if c = ch 't' ∨ c = ch 'j' ∨ c = ch 'z' then .specifier
  else .text

def Place.afterPrecision (c : Byte) : Place :=
  if c = ch '.' then .dot else afterLength c

def Place.afterWidth (c : Byte) : Place :=
  if isDigit c then .widthDigits else if c = ch '*' then .precision else afterPrecision c

/-- The place after one more character. Any character may be a specifier. -/
def Place.next : Place → Byte → Place
  | .text, c => if c = ch '%' then .flags else .text
  | .flags, c => if flagChars.contains c then .flags else afterWidth c
  | .width, c => afterWidth c
  | .widthDigits, c => if isDigit c then .widthDigits else afterPrecision c
  | .precision, c => afterPrecision c
  | .dot, c =>
    if isDigit c then .precisionDigits else if c = ch '*' then .length else afterLength c
  | .precisionDigits, c => if isDigit c then .precisionDigits else afterLength c
  | .length, c => afterLength c
  | .l, c => if c = ch 'l' then .specifier else .text
  | .h, c => if c = ch 'h' then .specifier else .text
  | .specifier, _ => .text

/-- The last directive is complete. -/
def Place.Complete (p : Place) (format : List Byte) : Prop := format.foldl next p = .text

instance (p : Place) (format : List Byte) : Decidable (p.Complete format) :=
  inferInstanceAs (Decidable (_ = _))

/-! ### Arguments -/

/-- The arguments of a specifier; an unknown one has none. -/
def specifierKinds (c : Byte) : List Kind :=
  if isInteger c then [.word]
  else if c = ch 'c' then [.word]
  else if c = ch 's' then [.string]
  else if c = ch 'p' then [.word]
  else []

/-- The arguments taken at a character: those of a specifier, or that of a star. -/
def Place.takes (p : Place) (c : Byte) : List Kind :=
  if p = .text then []
  else
    match p.next c with
    | .text => specifierKinds c
    | .precision | .length => [.word]
    | _ => []

/-- The arguments that the rest of the format takes. -/
def Place.kinds : Place → List Byte → List Kind
  | _, [] => []
  | p, c :: format => p.takes c ++ (p.next c).kinds format

theorem Place.takes_eq_nil {p q : Place} {c : Byte} (hnext : p.next c = q)
    (hq : q ≠ .text ∧ q ≠ .precision ∧ q ≠ .length) : p.takes c = [] := by
  obtain ⟨htext, hprec, hlen⟩ := hq
  rw [Place.takes, hnext]
  cases q with
  | text => exact absurd rfl htext
  | precision => exact absurd rfl hprec
  | length => exact absurd rfl hlen
  | _ => exact ite_self _

/-! ### Advancing -/

/-- Reading took the formatter from `p`, in front of `format`, to `q`, in front of `rest`. -/
structure Advances (p q : Place) (format rest : List Byte) (va va' : List Arg) : Prop where
  suffix : rest <:+ format
  complete : p.Complete format ↔ q.Complete rest
  fits : Fits (p.kinds format) va → Fits (q.kinds rest) va'

namespace Advances

variable {p q r : Place} {format rest rest' : List Byte} {va va' va'' : List Arg}

theorem trans (h₁ : Advances p q format rest va va') (h₂ : Advances q r rest rest' va' va'') :
    Advances p r format rest' va va'' :=
  ⟨h₂.suffix.trans h₁.suffix, h₁.complete.trans h₂.complete, fun h => h₂.fits (h₁.fits h)⟩

/-- A character that takes no argument. -/
theorem step {c : Byte} (hnext : p.next c = q)
    (hq : q ≠ .text ∧ q ≠ .precision ∧ q ≠ .length) :
    Advances p q (c :: format) format va va := by
  have htakes := Place.takes_eq_nil hnext hq
  refine ⟨List.suffix_cons c format, ?_, ?_⟩
  · show (format.foldl Place.next (p.next c)) = _ ↔ _
    rw [hnext]
    rfl
  · intro h
    rw [Place.kinds, htakes, hnext, List.nil_append] at h
    exact h

/-- A character that takes one. -/
theorem step_arg {c : Byte} {k : Kind} (hnext : p.next c = q) (htakes : p.takes c = [k])
    (h : Fits (p.kinds (c :: format)) va) :
    ∃ a va', va = a :: va' ∧ Advances p q (c :: format) format va va' := by
  rw [Place.kinds, htakes, hnext] at h
  obtain ⟨a, va', rfl, -, hrest⟩ := Fits.cons h
  refine ⟨a, va', rfl, List.suffix_cons c format, ?_, fun _ => hrest⟩
  show (format.foldl Place.next (p.next c)) = _ ↔ _
  rw [hnext]
  rfl

/-- A part that is not there: the next character means the same at both places. -/
theorem skip (hp : p ≠ .text) (hq : q ≠ .text) (h : ∀ c ∈ format.head?, p.next c = q.next c) :
    Advances p q format format va va := by
  cases format with
  | nil => exact ⟨List.suffix_refl _, iff_of_false hp hq, fun h => h⟩
  | cons c format =>
    have hnext : p.next c = q.next c := h c rfl
    have htakes : p.takes c = q.takes c := by
      rw [Place.takes, Place.takes, if_neg hp, if_neg hq, hnext]
    refine ⟨List.suffix_refl _, ?_, ?_⟩
    · show (format.foldl Place.next (p.next c)) = _ ↔ _
      rw [hnext]
      rfl
    · intro hfits
      rw [Place.kinds, htakes, hnext] at hfits
      exact hfits

/-- Nothing is left. -/
theorem skip_nil (hp : p ≠ .text) (hq : q ≠ .text) (va : List Arg) : Advances p q [] [] va va :=
  skip hp hq fun c hc => absurd hc (Option.not_mem_none c)

end Advances

/-! ### The parts of a directive -/

theorem scanFlags_advances (format : List Byte) (flags : Flags) (va : List Arg) :
    ∃ flags' rest, scanFlags (format ++ [0]) flags = some (flags', rest ++ [0]) ∧
      Advances .flags .width format rest va va := by
  induction format generalizing flags with
  | nil => exact ⟨flags, [], rfl, Advances.skip_nil (by decide) (by decide) va⟩
  | cons c format ih =>
    by_cases hflag : c ∈ flagChars
    · have hnext : Place.flags.next c = .flags :=
        if_pos (List.contains_iff_mem.mpr hflag)
      have hone : ∃ flags₁, scanFlags (c :: (format ++ [0])) flags =
          scanFlags (format ++ [0]) flags₁ := by
        simp only [flagChars, List.mem_cons, List.not_mem_nil, or_false] at hflag
        rcases hflag with rfl | rfl | rfl | rfl | rfl <;> exact ⟨_, rfl⟩
      obtain ⟨flags₁, hone⟩ := hone
      obtain ⟨flags', rest, hscan, hadv⟩ := ih flags₁
      exact ⟨flags', rest, hone.trans hscan, (Advances.step hnext (by decide)).trans hadv⟩
    · have hnext : Place.flags.next c = Place.width.next c :=
        if_neg (fun h => hflag (List.contains_iff_mem.mp h))
      refine ⟨flags, c :: format, ?_, Advances.skip (by decide) (by decide) ?_⟩
      · have hsingle := scanFlags_bytes [] flags ⟨c, format ++ [0], rfl, hflag⟩
        exact hsingle
      · intro d hd
        obtain rfl := Option.some.inj hd
        exact hnext

/-- A number ends at the first character that is no digit. -/
theorem atoi_advances {p q : Place} (hp : p ≠ .text ∧ p ≠ .precision ∧ p ≠ .length)
    (hq : q ≠ .text) (hdigit : ∀ c, isDigit c = true → p.next c = p)
    (hother : ∀ c, ¬isDigit c = true → p.next c = q.next c) (format : List Byte) (i : ℕ)
    (va : List Arg) : ∃ n rest, atoi (format ++ [0]) i = some (n, rest ++ [0]) ∧
      Advances p q format rest va va := by
  induction format generalizing i with
  | nil => exact ⟨i, [], rfl, Advances.skip_nil hp.1 hq va⟩
  | cons c format ih =>
    rw [List.cons_append, atoi]
    by_cases hc : isDigit c = true
    · rw [if_pos hc]
      obtain ⟨n, rest, hscan, hadv⟩ := ih ((i * 10 + (c.toNat - (ch '0').toNat)) % 2 ^ 32)
      exact ⟨n, rest, hscan, (Advances.step (hdigit c hc) hp).trans hadv⟩
    · rw [if_neg hc]
      refine ⟨i, c :: format, rfl, Advances.skip hp.1 hq ?_⟩
      intro d hd
      obtain rfl := Option.some.inj hd
      exact hother c hc

/-- A number that begins here: its first digit means the same as the others. -/
theorem number_advances {p q r : Place} (hp : p ≠ .text)
    (hq : q ≠ .text ∧ q ≠ .precision ∧ q ≠ .length) (hr : r ≠ .text)
    (hdigit : ∀ c, isDigit c = true → q.next c = q)
    (hother : ∀ c, ¬isDigit c = true → q.next c = r.next c) {c : Byte}
    (hfirst : p.next c = q.next c) (format : List Byte) (va : List Arg) :
    ∃ n rest, atoi (c :: format ++ [0]) 0 = some (n, rest ++ [0]) ∧
      Advances p r (c :: format) rest va va := by
  have hskip : Advances p q (c :: format) (c :: format) va va :=
    Advances.skip hp hq.1 fun d hd => Option.some.inj hd ▸ hfirst
  obtain ⟨n, rest, hscan, hadv⟩ := atoi_advances hq hr hdigit hother (c :: format) 0 va
  exact ⟨n, rest, hscan, hskip.trans hadv⟩

theorem scanWidth_advances (flags : Flags) (format : List Byte) {va : List Arg}
    (hva : Fits (Place.width.kinds format) va) :
    ∃ flags' width rest va', scanWidth flags (format ++ [0]) va =
        some (flags', width, rest ++ [0], va') ∧ Advances .width .precision format rest va va' := by
  cases format with
  | nil => exact ⟨flags, 0, [], va, rfl, Advances.skip_nil (by decide) (by decide) va⟩
  | cons c format =>
    by_cases hdigit : isDigit c = true
    · have hfirst : Place.width.next c = Place.widthDigits.next c := by
        show Place.afterWidth c = if isDigit c then _ else _
        rw [Place.afterWidth, if_pos hdigit, if_pos hdigit]
      obtain ⟨n, rest, hscan, hadv⟩ := number_advances (q := .widthDigits) (r := .precision)
        (by decide) (by decide) (by decide) (fun c hc => if_pos hc) (fun c hc => if_neg hc)
        hfirst format va
      refine ⟨flags, n, rest, va, ?_, hadv⟩
      show (if isDigit c then _ else _) = _
      rw [if_pos hdigit]
      show Option.bind (atoi (c :: format ++ [0]) 0) _ = _
      rw [hscan]
      rfl
    by_cases hstar : c = ch '*'
    · subst hstar
      obtain ⟨a, va', rfl, hadv⟩ := Advances.step_arg (q := .precision) (k := .word) rfl rfl hva
      by_cases hneg : a.int.slt 0 = true
      · exact ⟨_, _, format, va', if_pos hneg, hadv⟩
      · exact ⟨_, _, format, va', if_neg hneg, hadv⟩
    · have hnext : Place.width.next c = Place.precision.next c := by
        show Place.afterWidth c = _
        rw [Place.afterWidth, if_neg hdigit, if_neg hstar]
        rfl
      refine ⟨flags, 0, c :: format, va, ?_,
        Advances.skip (by decide) (by decide) fun d hd => Option.some.inj hd ▸ hnext⟩
      show (if isDigit c then _ else if c = ch '*' then _ else _) = _
      rw [if_neg hdigit, if_neg hstar]
      rfl

theorem scanPrecision_advances (flags : Flags) (format : List Byte) {va : List Arg}
    (hva : Fits (Place.precision.kinds format) va) :
    ∃ flags' prec rest va', scanPrecision flags (format ++ [0]) va =
        some (flags', prec, rest ++ [0], va') ∧ Advances .precision .length format rest va va' := by
  cases format with
  | nil => exact ⟨flags, 0, [], va, rfl, Advances.skip_nil (by decide) (by decide) va⟩
  | cons c format =>
    by_cases hdot : c = ch '.'
    · subst hdot
      have hstep : Advances .precision .dot (ch '.' :: format) format va va :=
        Advances.step rfl (by decide)
      have hva' := hstep.fits hva
      cases format with
      | nil =>
        exact ⟨_, 0, [], va, rfl,
          hstep.trans (Advances.skip_nil (by decide) (by decide) va)⟩
      | cons d format =>
        by_cases hdigit : isDigit d = true
        · have hfirst : Place.dot.next d = Place.precisionDigits.next d := by
            show (if isDigit d then _ else _) = if isDigit d then _ else _
            rw [if_pos hdigit, if_pos hdigit]
          obtain ⟨n, rest, hscan, hadv⟩ := number_advances (q := .precisionDigits) (r := .length)
            (by decide) (by decide) (by decide) (fun c hc => if_pos hc) (fun c hc => if_neg hc)
            hfirst format va
          refine ⟨{ flags with precision := true }, n, rest, va, ?_, hstep.trans hadv⟩
          show (if isDigit d then _ else _) = _
          rw [if_pos hdigit]
          show Option.bind (atoi (d :: format ++ [0]) 0) _ = _
          rw [hscan]
          rfl
        by_cases hstar : d = ch '*'
        · subst hstar
          obtain ⟨a, va', rfl, hadv⟩ :=
            Advances.step_arg (q := .length) (k := .word) rfl rfl hva'
          exact ⟨_, _, format, va', rfl, hstep.trans hadv⟩
        · have hnext : Place.dot.next d = Place.length.next d := by
            show (if isDigit d then _ else if d = ch '*' then _ else _) = _
            rw [if_neg hdigit, if_neg hstar]
            rfl
          refine ⟨{ flags with precision := true }, 0, d :: format, va, ?_, hstep.trans
            (Advances.skip (by decide) (by decide) fun e he => Option.some.inj he ▸ hnext)⟩
          show (if isDigit d then _ else if d = ch '*' then _ else _) = _
          rw [if_neg hdigit, if_neg hstar]
          rfl
    · have hnext : Place.precision.next c = Place.length.next c := if_neg hdot
      refine ⟨flags, 0, c :: format, va, ?_,
        Advances.skip (by decide) (by decide) fun d hd => Option.some.inj hd ▸ hnext⟩
      show (if c = ch '.' then _ else _) = _
      rw [if_neg hdot]
      rfl

/-- `l` or `h`: the same letter may follow. -/
theorem letter_advances {p : Place} {c : Byte} (hfirst : Place.length.next c = p)
    (hp : p ≠ .text ∧ p ≠ .precision ∧ p ≠ .length)
    (hsecond : ∀ d, p.next d = if d = c then .specifier else .text) (format : List Byte)
    (va : List Arg) : ∃ rest, (format = c :: rest ∨ format = rest ∧ ∀ d ∈ rest.head?, d ≠ c) ∧
      Advances .length .specifier (c :: format) rest va va := by
  have hletter : Advances .length p (c :: format) format va va := Advances.step hfirst hp
  have hskip : (∀ d ∈ format.head?, d ≠ c) → Advances p .specifier format format va va := by
    intro hother
    refine Advances.skip hp.1 (by decide) ?_
    intro d hd
    rw [hsecond, if_neg (hother d hd)]
    rfl
  cases format with
  | nil =>
    have hnone : ∀ d ∈ ([] : List Byte).head?, d ≠ c := fun d hd => absurd hd (Option.not_mem_none d)
    exact ⟨[], .inr ⟨rfl, hnone⟩, hletter.trans (hskip hnone)⟩
  | cons d format =>
    by_cases hd : d = c
    · subst hd
      have hagain : p.next d = .specifier := (hsecond d).trans (if_pos rfl)
      exact ⟨format, .inl rfl, hletter.trans (Advances.step hagain (by decide))⟩
    · have hother : ∀ e ∈ (d :: format).head?, e ≠ c := fun e he => Option.some.inj he ▸ hd
      exact ⟨d :: format, .inr ⟨rfl, hother⟩, hletter.trans (hskip hother)⟩

/-- With a NUL behind it, a rest starts with no letter. -/
theorem append_zero_cons {c : Byte} (hc : c ≠ 0) {rest : List Byte}
    (h : ∀ d ∈ rest.head?, d ≠ c) : ∃ d rest', rest ++ [0] = d :: rest' ∧ d ≠ c := by
  cases rest with
  | nil => exact ⟨0, [], rfl, Ne.symm hc⟩
  | cons d rest => exact ⟨d, rest ++ [0], rfl, h d rfl⟩

theorem scanLength_advances (flags : Flags) (format : List Byte) (va : List Arg) :
    ∃ flags' rest, scanLength flags (format ++ [0]) = some (flags', rest ++ [0]) ∧
      Advances .length .specifier format rest va va := by
  cases format with
  | nil => exact ⟨flags, [], rfl, Advances.skip_nil (by decide) (by decide) va⟩
  | cons c format =>
    by_cases hl : c = ch 'l'
    · subst hl
      obtain ⟨rest, hrest, hadv⟩ :=
        letter_advances (p := .l) rfl (by decide) (fun d => rfl) format va
      rcases hrest with rfl | ⟨rfl, hother⟩
      · exact ⟨_, rest, rfl, hadv⟩
      · obtain ⟨d, rest', hcons, hd⟩ := append_zero_cons (by decide) hother
        refine ⟨{ flags with long := true }, format, ?_, hadv⟩
        rw [List.cons_append, hcons, scanLength, if_pos rfl]
        exact if_neg hd
    by_cases hh : c = ch 'h'
    · subst hh
      obtain ⟨rest, hrest, hadv⟩ :=
        letter_advances (p := .h) rfl (by decide) (fun d => rfl) format va
      rcases hrest with rfl | ⟨rfl, hother⟩
      · exact ⟨_, rest, rfl, hadv⟩
      · obtain ⟨d, rest', hcons, hd⟩ := append_zero_cons (by decide) hother
        refine ⟨{ flags with short := true }, format, ?_, hadv⟩
        rw [List.cons_append, hcons, scanLength, if_neg hl, if_pos rfl]
        exact if_neg hd
    have hnext : Place.length.next c =
        if c = ch 't' ∨ c = ch 'j' ∨ c = ch 'z' then .specifier else .text := by
      show Place.afterLength c = _
      rw [Place.afterLength, if_neg hl, if_neg hh]
    by_cases hone : c = ch 't' ∨ c = ch 'j' ∨ c = ch 'z'
    · rw [if_pos hone] at hnext
      refine ⟨{ flags with long := true }, format, ?_, Advances.step hnext (by decide)⟩
      rcases hone with rfl | rfl | rfl <;> rfl
    · rw [if_neg hone] at hnext
      refine ⟨flags, c :: format, ?_, Advances.skip (by decide) (by decide) ?_⟩
      · obtain ⟨ht, hj, hz⟩ := not_or.mp hone |>.imp_right not_or.mp
        rw [List.cons_append, scanLength, if_neg hl, if_neg hh, if_neg ht, if_neg hj, if_neg hz]
      · intro d hd
        obtain rfl := Option.some.inj hd
        exact hnext

/-- **A directive** is read up to its specifier, or up to the NUL. -/
theorem scanDirective_advances (format : List Byte) {va : List Arg}
    (hva : Fits (Place.flags.kinds format) va) :
    ∃ s rest va', scanDirective (format ++ [0]) va = some (s, rest ++ [0], va') ∧
      Advances .flags .specifier format rest va va' := by
  obtain ⟨flags₁, rest₁, hflags, h₁⟩ := scanFlags_advances format {} va
  obtain ⟨flags₂, width, rest₂, va₂, hwidth, h₂⟩ :=
    scanWidth_advances flags₁ rest₁ (h₁.fits hva)
  obtain ⟨flags₃, prec, rest₃, va₃, hprec, h₃⟩ :=
    scanPrecision_advances flags₂ rest₂ (h₂.fits (h₁.fits hva))
  obtain ⟨flags₄, rest₄, hlength, h₄⟩ := scanLength_advances flags₃ rest₃ va₃
  refine ⟨⟨flags₄, width, prec⟩, rest₄, va₃, ?_, h₁.trans (h₂.trans (h₃.trans h₄))⟩
  simp only [scanDirective, hflags, hwidth, hprec, hlength, Option.bind_eq_bind, Option.bind_some]

/-! ### The loop -/

section Loop

variable {σ : Type} (out : OutFct σ) (maxlen : ℕ)

theorem outSpecifier_fits (c : Byte) (s : Spec) {kinds : List Kind} {va : List Arg} (o : Cursor σ)
    (h : Fits (specifierKinds c ++ kinds) va) :
    ∃ va' o', outSpecifier out maxlen c s va o = some (va', o') ∧ Fits kinds va' := by
  rw [specifierKinds] at h
  unfold outSpecifier
  by_cases hint : isInteger c = true
  · rw [if_pos hint] at h
    obtain ⟨a, va', rfl, -, hrest⟩ := Fits.cons h
    rw [if_pos hint]
    exact ⟨va', _, congrArg (Option.map (va', ·)) (outInteger_eq_emit out maxlen c s a o), hrest⟩
  rw [if_neg hint] at h
  rw [if_neg hint]
  by_cases hc : c = ch 'c'
  · rw [if_pos hc] at h
    obtain ⟨a, va', rfl, -, hrest⟩ := Fits.cons h
    rw [if_pos hc]
    exact ⟨va', _, rfl, hrest⟩
  rw [if_neg hc] at h
  rw [if_neg hc]
  by_cases hs : c = ch 's'
  · rw [if_pos hs] at h
    obtain ⟨a, va', rfl, hstr, hrest⟩ := Fits.cons h
    rw [if_pos hs]
    exact ⟨va', _, congrArg (Option.map (va', ·)) (outString_eq_emit out maxlen s hstr o), hrest⟩
  rw [if_neg hs] at h
  rw [if_neg hs]
  by_cases hp : c = ch 'p'
  · rw [if_pos hp] at h
    obtain ⟨a, va', rfl, -, hrest⟩ := Fits.cons h
    rw [if_pos hp]
    exact ⟨va', _, congrArg (Option.map (va', ·)) (outPointer_eq_emit out maxlen s a o), hrest⟩
  rw [if_neg hp] at h
  rw [if_neg hp]
  exact ⟨va, if c = ch '%' then put out maxlen (ch '%') o else put out maxlen c o,
    (apply_ite (fun o => some (va, o)) _ _ _).symm, h⟩

/-- Each round of the loop reads a character at least. -/
theorem vsnprintfLoop_stops_iff {fuel : ℕ} {format : List Byte} {va : List Arg}
    (h0 : 0 ∉ format) (hva : Fits (Place.text.kinds format) va) (hfuel : format.length < fuel)
    (o : Cursor σ) :
    (∃ o', vsnprintfLoop out maxlen fuel (format ++ [0]) va o = some ([0], o')) ↔
      Place.text.Complete format := by
  induction fuel generalizing format va o with
  | zero => exact absurd hfuel (Nat.not_lt_zero _)
  | succ fuel ih =>
    cases format with
    | nil => exact iff_of_true ⟨o, rfl⟩ rfl
    | cons c format =>
      rw [List.mem_cons, not_or] at h0
      have hshort : format.length < fuel := Nat.lt_of_succ_lt_succ hfuel
      rw [List.cons_append, vsnprintfLoop, if_neg (Ne.symm h0.1)]
      by_cases hc : c = ch '%'
      · subst hc
        rw [if_neg (fun hne => hne rfl)]
        have hrest : Fits (Place.flags.kinds format) va := hva
        obtain ⟨s, rest, va₁, hscan, hadv⟩ := scanDirective_advances format hrest
        have hcomplete : Place.text.Complete (ch '%' :: format) ↔
            Place.specifier.Complete rest := hadv.complete
        rw [hscan, hcomplete]
        simp only [Option.bind_eq_bind, Option.bind_some]
        cases rest with
        | nil =>
          -- the NUL is taken for the specifier
          refine iff_of_false ?_ (by decide)
          rintro ⟨o', h⟩
          cases fuel <;> exact absurd h.symm (Option.some_ne_none _)
        | cons c' rest =>
          obtain ⟨va₂, o₂, hout, hva₂⟩ := outSpecifier_fits out maxlen c' s o (hadv.fits hva)
          have hsub : rest <:+ format := (List.suffix_cons c' rest).trans hadv.suffix
          simp only [List.cons_append, hout, Option.bind_some]
          exact ih (fun h => h0.2 (hsub.mem h)) hva₂
            (Nat.lt_of_le_of_lt hsub.length_le hshort) o₂
      · rw [if_pos hc]
        have hnext : Place.text.next c = .text := if_neg hc
        have hcomplete : Place.text.Complete (c :: format) ↔ Place.text.Complete format := by
          show (format.foldl Place.next (Place.text.next c)) = _ ↔ _
          rw [hnext]
          rfl
        rw [hcomplete]
        refine ih h0.2 ?_ hshort _
        rw [Place.kinds, hnext] at hva
        exact hva

end Loop

/-- **The formatter reads a format to its NUL and no further** if and only if the format does not
end inside a directive: for any bytes, unknown specifiers among them, and enough arguments. -/
theorem vsnprintf_reads_format_iff {σ : Type} (out : OutFct σ) (maxlen : ℕ) (format : List Byte)
    (h0 : 0 ∉ format) (va : List Arg) (hva : Fits (Place.text.kinds format) va) (buffer : σ) :
    (∃ o, vsnprintfLoop out maxlen ((format ++ [0]).length + 1) (format ++ [0]) va ⟨0, buffer⟩ =
      some ([0], o)) ↔ Place.text.Complete format := by
  refine vsnprintfLoop_stops_iff out maxlen h0 hva ?_ ⟨0, buffer⟩
  rw [List.length_append, List.length_singleton]
  omega

/-- The unknown specifier of `%5k` and a star. -/
theorem vsnprintf_reads_format_iff_unknown :
    (∃ o, vsnprintfLoop outBuffer sizeMax (("%5k %*d".toList.map ch ++ [0]).length + 1)
      ("%5k %*d".toList.map ch ++ [0]) [⟨-4, []⟩, ⟨7, []⟩] ⟨0, []⟩ = some ([0], o)) ↔
      Place.text.Complete ("%5k %*d".toList.map ch) := by
  have hva : Fits (Place.text.kinds ("%5k %*d".toList.map ch)) [⟨-4, []⟩, ⟨7, []⟩] :=
    ⟨trivial, trivial, trivial⟩
  exact vsnprintf_reads_format_iff outBuffer sizeMax _ (by decide) _ hva []

/-- The format `%`: the byte behind the NUL is read. -/
theorem lone_percent_read_past :
    ¬∃ o, vsnprintfLoop outBuffer sizeMax (([ch '%'] ++ [0]).length + 1) ([ch '%'] ++ [0]) []
      ⟨0, []⟩ = some ([0], o) := by
  rintro ⟨o, h⟩
  exact absurd h.symm (Option.some_ne_none _)

end MegaOS.Log
