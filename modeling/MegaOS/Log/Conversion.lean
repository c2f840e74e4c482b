import MegaOS.Log.Format

/-!
# The text of a conversion

What each specifier outputs, as a list of characters: independent of the sink,
of its limit and of the index the output starts at.

The integer conversions work in a 32-byte buffer, digits in reverse. `Holds`
relates the buffer to the list of its characters; every step of the conversion
has a counterpart on lists, and keeps the relation. That no step faults, on any
value, base, precision, width or flags, is part of it.
-/

namespace MegaOS.Log

open MegaOS.Memory MegaOS.Emission

/-- The first `len` cells of the buffer hold `ds`, and fit. -/
structure Holds (b : Conversion) (ds : List Byte) : Prop where
  len : b.len = ds.length
  fits : ds.length ≤ ntoaBufferSize
  cells : ∀ i (hi : i < ds.length), b.buf i = some ds[i]

theorem holds_empty : Holds ⟨fun _ => none, 0⟩ [] :=
  ⟨rfl, Nat.zero_le _, fun _ hi => absurd hi (Nat.not_lt_zero _)⟩

theorem Holds.push {b : Conversion} {ds : List Byte} (h : Holds b ds) (c : Byte)
    (hroom : ds.length < ntoaBufferSize) : ∃ b', b.push c = some b' ∧ Holds b' (ds ++ [c]) := by
  refine ⟨⟨Function.update b.buf b.len (some c), b.len + 1⟩, ?_, ?_⟩
  · rw [Conversion.push, if_pos (by rw [h.len]; exact hroom)]
  · refine ⟨?_, ?_, ?_⟩
    · rw [List.length_append, List.length_singleton, ← h.len]
    · rw [List.length_append, List.length_singleton]
      exact hroom
    · intro i hi
      show Function.update b.buf b.len (some c) i = _
      rw [h.len]
      by_cases hlast : i = ds.length
      · subst hlast
        rw [Function.update_self, List.getElem_concat_length rfl]
      · have hlt : i < ds.length := by
          rw [List.length_append, List.length_singleton] at hi
          omega
        rw [Function.update_of_ne hlast, h.cells i hlt, List.getElem_append_left hlt]

theorem Holds.pop {b : Conversion} {ds : List Byte} (h : Holds b ds) (hne : ds ≠ []) :
    ∃ b', b.pop = some b' ∧ Holds b' ds.dropLast := by
  have hpos : 0 < ds.length := List.length_pos_iff.mpr hne
  refine ⟨{ b with len := b.len - 1 }, ?_, ?_⟩
  · rw [Conversion.pop, if_neg (by rw [h.len]; omega)]
  · refine ⟨?_, ?_, ?_⟩
    · rw [List.length_dropLast, ← h.len]
    · rw [List.length_dropLast]
      exact Nat.le_trans (Nat.sub_le _ _) h.fits
    · intro i hi
      rw [List.length_dropLast] at hi
      show b.buf i = _
      rw [h.cells i (by omega), List.getElem_dropLast]

/-! ### The buffer steps, on lists -/

/-- A store that is skipped when the buffer is full. -/
def pushText (c : Byte) (ds : List Byte) : List Byte :=
  if ds.length < ntoaBufferSize then ds ++ [c] else ds

def padText (bound : ℕ) (ds : List Byte) : List Byte :=
  ds ++ List.replicate (min bound ntoaBufferSize - ds.length) (ch '0')

def leadingText (prec width : ℕ) (flags : Flags) (ds : List Byte) : List Byte :=
  if flags.left then ds
  else if flags.zeropad then padText width (padText prec ds) else padText prec ds

def roomText (base : BitVec 32) (prec width : ℕ) (flags : Flags) (ds : List Byte) : List Byte :=
  if !flags.precision ∧ ds.length ≠ 0 ∧ (ds.length = prec ∨ ds.length = width) then
    if ds.dropLast.length ≠ 0 ∧ base = 16 then ds.dropLast.dropLast else ds.dropLast
  else ds

def letterText (base : BitVec 32) (ds : List Byte) : List Byte :=
  if base = 16 then pushText (ch 'x') ds
  else if base = 2 then pushText (ch 'b') ds
  else ds

def hashText (base : BitVec 32) (prec width : ℕ) (flags : Flags) (ds : List Byte) : List Byte :=
  if flags.hash then
    pushText (ch '0') (letterText base (roomText base prec width flags ds))
  else ds

def signText (negative : Bool) (flags : Flags) (ds : List Byte) : List Byte :=
  if negative then pushText (ch '-') ds
  else if flags.plus then pushText (ch '+') ds
  else if flags.space then pushText (ch ' ') ds
  else ds

/-- The digits of `value`, the lowest first, at most `fuel` of them. -/
def digitsText (base : Word) (uppercase : Bool) : ℕ → Word → List Byte
  | 0, _ => []
  | fuel + 1, value =>
    digitChar uppercase ((value % base).setWidth 8) ::
      if value / base ≠ 0 then digitsText base uppercase fuel (value / base) else []

def convertText (value base : Word) (flags : Flags) : List Byte :=
  if !flags.precision ∨ value ≠ 0 then digitsText base flags.uppercase ntoaBufferSize value else []

/-- A text with `n` spaces on the side the `-` flag selects. -/
def padded (left : Bool) (n : ℕ) (text : List Byte) : List Byte :=
  if left then text ++ List.replicate n (ch ' ') else List.replicate n (ch ' ') ++ text

/-- The characters in the buffer, reversed and padded. -/
def revText (width : ℕ) (flags : Flags) (ds : List Byte) : List Byte :=
  padded flags.left (if flags.left || !flags.zeropad then width - ds.length else 0) ds.reverse

/-- The text of an integer conversion. -/
def ntoaText (value : Word) (negative : Bool) (base : Word) (prec width : ℕ) (flags : Flags) :
    List Byte :=
  let flags := if value = 0 then { flags with hash := false } else flags
  let width := digitsWidth negative width flags
  revText width flags (signText negative flags
    (hashText (base.setWidth 32) prec width flags (leadingText prec width flags
      (convertText value base flags))))

/-! ### The buffer steps keep the relation -/

theorem Holds.pushText {b : Conversion} {ds : List Byte} (h : Holds b ds) (c : Byte) :
    ∃ b', (if b.len < ntoaBufferSize then b.push c else some b) = some b' ∧
      Holds b' (pushText c ds) := by
  by_cases hroom : ds.length < ntoaBufferSize
  · rw [if_pos (by rw [h.len]; exact hroom), MegaOS.Log.pushText, if_pos hroom]
    exact h.push c hroom
  · rw [if_neg (by rw [h.len]; exact hroom), MegaOS.Log.pushText, if_neg hroom]
    exact ⟨b, rfl, h⟩

/-- A round of the padding loop leaves one zero less to store. -/
theorem padText_push {bound : ℕ} {ds : List Byte} (h : ds.length < bound)
    (hroom : ds.length < ntoaBufferSize) : padText bound (ds ++ [ch '0']) = padText bound ds := by
  have hcount : min bound ntoaBufferSize - ds.length =
      (min bound ntoaBufferSize - (ds ++ [ch '0']).length) + 1 := by
    rw [List.length_append, List.length_singleton]
    omega
  rw [padText, padText, hcount, List.replicate_succ, List.append_assoc, List.singleton_append]

theorem padZeros_spec (bound : ℕ) {fuel : ℕ} {b : Conversion} {ds : List Byte} (h : Holds b ds)
    (hfuel : ntoaBufferSize - ds.length ≤ fuel) :
    ∃ b', padZeros bound fuel b = some b' ∧ Holds b' (padText bound ds) := by
  have hstop : ¬(ds.length < bound ∧ ds.length < ntoaBufferSize) → padText bound ds = ds := by
    intro hdone
    rw [padText, show min bound ntoaBufferSize - ds.length = 0 by omega, List.replicate_zero,
      List.append_nil]
  induction fuel generalizing b ds with
  | zero =>
    have hdone : ¬(ds.length < bound ∧ ds.length < ntoaBufferSize) := by omega
    rw [padZeros, h.len, if_neg hdone, hstop hdone]
    exact ⟨b, rfl, h⟩
  | succ fuel ih =>
    by_cases hmore : ds.length < bound ∧ ds.length < ntoaBufferSize
    · obtain ⟨b₁, hpush, h₁⟩ := h.push (ch '0') hmore.2
      obtain ⟨b₂, hrest, h₂⟩ := ih h₁ (by rw [List.length_append, List.length_singleton]; omega)
        (by
          intro hdone
          rw [padText, show min bound ntoaBufferSize - (ds ++ [ch '0']).length = 0 by omega,
            List.replicate_zero, List.append_nil])
      refine ⟨b₂, ?_, ?_⟩
      · rw [padZeros, h.len, if_pos hmore, hpush]
        exact hrest
      · rw [← padText_push hmore.1 hmore.2]
        exact h₂
    · rw [padZeros, h.len, if_neg hmore, hstop hmore]
      exact ⟨b, rfl, h⟩

theorem leadingZeros_spec (prec width : ℕ) (flags : Flags) {b : Conversion} {ds : List Byte}
    (h : Holds b ds) : ∃ b', leadingZeros prec width flags b = some b' ∧
      Holds b' (leadingText prec width flags ds) := by
  cases hleft : flags.left with
  | true => exact ⟨b, by rw [leadingZeros, hleft]; rfl, by rw [leadingText, hleft]; exact h⟩
  | false =>
    obtain ⟨b₁, hpad₁, h₁⟩ := padZeros_spec prec h (Nat.sub_le ntoaBufferSize _)
    cases hzero : flags.zeropad with
    | false =>
      refine ⟨b₁, ?_, ?_⟩
      · simp [leadingZeros, hleft, hzero, hpad₁]
      · simp only [leadingText, hleft, hzero]
        exact h₁
    | true =>
      obtain ⟨b₂, hpad₂, h₂⟩ := padZeros_spec width h₁ (Nat.sub_le ntoaBufferSize _)
      refine ⟨b₂, ?_, ?_⟩
      · simp [leadingZeros, hleft, hzero, hpad₁, hpad₂]
      · simp only [leadingText, hleft, hzero]
        exact h₂

theorem makeRoom_spec (base : BitVec 32) (prec width : ℕ) (flags : Flags) {b : Conversion}
    {ds : List Byte} (h : Holds b ds) : ∃ b', makeRoom base prec width flags b = some b' ∧
      Holds b' (roomText base prec width flags ds) := by
  by_cases hroom : !flags.precision ∧ ds.length ≠ 0 ∧ (ds.length = prec ∨ ds.length = width)
  · obtain ⟨b₁, hpop₁, h₁⟩ := h.pop (List.length_pos_iff.mp (Nat.pos_of_ne_zero hroom.2.1))
    rw [makeRoom, roomText, h.len, if_pos hroom, if_pos hroom, hpop₁]
    show ∃ b', (if b₁.len ≠ 0 ∧ base = 16 then b₁.pop else some b₁) = some b' ∧ _
    rw [h₁.len]
    by_cases hagain : ds.dropLast.length ≠ 0 ∧ base = 16
    · rw [if_pos hagain, if_pos hagain]
      exact h₁.pop (List.length_pos_iff.mp (Nat.pos_of_ne_zero hagain.1))
    · rw [if_neg hagain, if_neg hagain]
      exact ⟨b₁, rfl, h₁⟩
  · rw [makeRoom, roomText, h.len, if_neg hroom, if_neg hroom]
    exact ⟨b, rfl, h⟩

theorem baseLetter_spec (base : BitVec 32) {b : Conversion} {ds : List Byte} (h : Holds b ds) :
    ∃ b', baseLetter base b = some b' ∧ Holds b' (letterText base ds) := by
  rw [baseLetter, letterText]
  by_cases h16 : base = 16
  · have h2 : ¬base = 2 := by
      rw [h16]
      decide
    rw [if_pos h16, if_neg (show ¬(base = 2 ∧ b.len < ntoaBufferSize) from fun h => h2 h.1)]
    simp only [h16, true_and]
    exact h.pushText (ch 'x')
  · rw [if_neg h16, if_neg (show ¬(base = 16 ∧ b.len < ntoaBufferSize) from fun h => h16 h.1)]
    by_cases h2 : base = 2
    · rw [if_pos h2]
      simp only [h2, true_and]
      exact h.pushText (ch 'b')
    · rw [if_neg h2, if_neg (show ¬(base = 2 ∧ b.len < ntoaBufferSize) from fun h => h2 h.1)]
      exact ⟨b, rfl, h⟩

theorem hashPrefix_spec (base : BitVec 32) (prec width : ℕ) (flags : Flags) {b : Conversion}
    {ds : List Byte} (h : Holds b ds) : ∃ b', hashPrefix base prec width flags b = some b' ∧
      Holds b' (hashText base prec width flags ds) := by
  cases hhash : flags.hash with
  | false => exact ⟨b, by rw [hashPrefix, hhash]; rfl, by rw [hashText, hhash]; exact h⟩
  | true =>
    obtain ⟨b₁, hroom, h₁⟩ := makeRoom_spec base prec width flags h
    obtain ⟨b₂, hletter, h₂⟩ := baseLetter_spec base h₁
    obtain ⟨b₃, hzero, h₃⟩ := h₂.pushText (ch '0')
    refine ⟨b₃, ?_, ?_⟩
    · simp only [hashPrefix, hhash, if_true, hroom, hletter, Option.bind_eq_bind, Option.bind_some]
      exact hzero
    · rw [hashText, hhash]
      exact h₃

theorem signChar_spec (negative : Bool) (flags : Flags) {b : Conversion} {ds : List Byte}
    (h : Holds b ds) : ∃ b', signChar negative flags b = some b' ∧
      Holds b' (signText negative flags ds) := by
  have hskip : ∃ b', (if b.len < ntoaBufferSize then some b else some b) = some b' ∧
      Holds b' ds := ⟨b, ite_self _, h⟩
  rw [signChar, signText]
  cases negative with
  | true => exact h.pushText (ch '-')
  | false =>
    cases flags.plus with
    | true => exact h.pushText (ch '+')
    | false =>
      cases flags.space with
      | true => exact h.pushText (ch ' ')
      | false => exact hskip

theorem digitLoop_spec (base : Word) (uppercase : Bool) (value : Word) {fuel : ℕ} {b : Conversion}
    {ds : List Byte} (h : Holds b ds) (hfuel : ds.length + (fuel + 1) = ntoaBufferSize) :
    ∃ b', digitLoop base uppercase (fuel + 1) value b = some b' ∧
      Holds b' (ds ++ digitsText base uppercase (fuel + 1) value) := by
  induction fuel generalizing value b ds with
  | zero =>
    obtain ⟨b₁, hpush, h₁⟩ := h.push (digitChar uppercase ((value % base).setWidth 8)) (by omega)
    refine ⟨b₁, ?_, ?_⟩
    · rw [digitLoop, hpush]
      -- the buffer is full
      have hfull : ¬b₁.len < ntoaBufferSize := by
        rw [h₁.len, List.length_append, List.length_singleton]
        omega
      show (if _ ∧ b₁.len < ntoaBufferSize then _ else some b₁) = _
      rw [if_neg (fun hmore => hfull hmore.2)]
    · rw [digitsText, digitsText, ite_self]
      exact h₁
  | succ fuel ih =>
    obtain ⟨b₁, hpush, h₁⟩ := h.push (digitChar uppercase ((value % base).setWidth 8)) (by omega)
    have hlen : b₁.len < ntoaBufferSize := by
      rw [h₁.len, List.length_append, List.length_singleton]
      omega
    by_cases hmore : value / base ≠ 0
    · obtain ⟨b₂, hrest, h₂⟩ := ih (value / base) h₁
        (by rw [List.length_append, List.length_singleton]; omega)
      refine ⟨b₂, ?_, ?_⟩
      · rw [digitLoop, hpush]
        show (if value / base ≠ 0 ∧ b₁.len < ntoaBufferSize then _ else some b₁) = _
        rw [if_pos ⟨hmore, hlen⟩]
        exact hrest
      · rw [digitsText, if_pos hmore]
        rw [List.append_assoc] at h₂
        exact h₂
    · refine ⟨b₁, ?_, ?_⟩
      · rw [digitLoop, hpush]
        show (if value / base ≠ 0 ∧ b₁.len < ntoaBufferSize then _ else some b₁) = _
        rw [if_neg (fun h => hmore h.1)]
      · rw [digitsText, if_neg hmore]
        exact h₁

theorem convertDigits_spec (value base : Word) (flags : Flags) :
    ∃ b, convertDigits value base flags = some b ∧ Holds b (convertText value base flags) := by
  rw [convertDigits, convertText]
  by_cases hwrite : !flags.precision ∨ value ≠ 0
  · rw [if_pos hwrite, if_pos hwrite]
    exact digitLoop_spec base flags.uppercase value holds_empty rfl
  · rw [if_neg hwrite, if_neg hwrite]
    exact ⟨_, rfl, holds_empty⟩

section Emit

variable {σ : Type} (out : OutFct σ) (maxlen : ℕ)

theorem spaces_eq_emit (n : ℕ) (o : Cursor σ) :
    spaces out maxlen n o = emit out maxlen (List.replicate n (ch ' ')) o := by
  induction n generalizing o with
  | zero => rfl
  | succ n ih => exact ih (put out maxlen (ch ' ') o)

/-- The reversing loop reads only cells that were stored. -/
theorem outCells_eq_emit {b : Conversion} {ds : List Byte} (h : Holds b ds) {k : ℕ}
    (hk : k ≤ ds.length) (o : Cursor σ) :
    outCells out maxlen b.buf k o = some (emit out maxlen (ds.take k).reverse o) := by
  induction k generalizing o with
  | zero => rfl
  | succ k ih =>
    rw [outCells, h.cells k hk]
    show outCells out maxlen b.buf k (put out maxlen ds[k] o) = _
    rw [ih (Nat.le_of_lt hk), List.take_add_one, List.getElem?_eq_getElem hk, List.reverse_append]
    rfl

theorem outRev_eq_emit {b : Conversion} {ds : List Byte} (h : Holds b ds) (width : ℕ)
    (flags : Flags) (o : Cursor σ) :
    outRev out maxlen b width flags o = some (emit out maxlen (revText width flags ds) o) := by
  have hcells : ∀ o', outCells out maxlen b.buf ds.length o' =
      some (emit out maxlen ds.reverse o') := by
    intro o'
    rw [outCells_eq_emit out maxlen h (Nat.le_refl _), List.take_length]
  cases hleft : flags.left with
  | true =>
    -- the digits come first, so the index has advanced by their number
    simp only [outRev, revText, padded, hleft, h.len, hcells, Bool.not_true, Bool.false_and,
      Bool.true_or, if_true, Bool.false_eq_true, if_false, Option.bind_eq_bind, Option.bind_some,
      emit_idx, List.length_reverse, Nat.add_sub_cancel_left, spaces_eq_emit, emit_append]
  | false =>
    cases hzero : flags.zeropad with
    | true => simp [outRev, revText, padded, hleft, hzero, h.len, hcells]
    | false =>
      simp [outRev, revText, padded, hleft, hzero, h.len, hcells, spaces_eq_emit, emit_append]

/-- **Integer conversions.** For every value, base, precision, width and flags the conversion
completes within its buffer, and outputs its text. -/
theorem ntoa_eq_emit (value : Word) (negative : Bool) (base : Word) (prec width : ℕ)
    (flags : Flags) (o : Cursor σ) :
    ntoa out maxlen value negative base prec width flags o =
      some (emit out maxlen (ntoaText value negative base prec width flags) o) := by
  obtain ⟨fl, hfl⟩ : ∃ fl, fl = if value = 0 then { flags with hash := false } else flags :=
    ⟨_, rfl⟩
  obtain ⟨b, hb, hhold⟩ := convertDigits_spec value base fl
  -- the format
  have hformat : ntoaFormat out maxlen b negative (base.setWidth 32) prec width fl o =
      some (emit out maxlen (ntoaText value negative base prec width flags) o) := by
    obtain ⟨b₁, hlead, h₁⟩ := leadingZeros_spec prec (digitsWidth negative width fl) fl hhold
    obtain ⟨b₂, hhash, h₂⟩ :=
      hashPrefix_spec (base.setWidth 32) prec (digitsWidth negative width fl) fl h₁
    obtain ⟨b₃, hsign, h₃⟩ := signChar_spec negative fl h₂
    simp only [ntoaFormat, hlead, hhash, hsign, Option.bind_eq_bind, Option.bind_some,
      outRev_eq_emit out maxlen h₃]
    simp only [ntoaText, ← hfl]
  simp only [ntoa, ← hfl, hb, Option.bind_eq_bind, Option.bind_some]
  exact hformat

/-! ### The buffer is safe -/

/-- What `_ntoa_format` makes of the buffer before it hands it to `_out_rev`. -/
def Conversion.formatted (b : Conversion) (negative : Bool) (base : BitVec 32) (prec width : ℕ)
    (flags : Flags) : Option Conversion := do
  let b ← leadingZeros prec (digitsWidth negative width flags) flags b
  let b ← hashPrefix base prec (digitsWidth negative width flags) flags b
  signChar negative flags b

theorem formatted_spec {b : Conversion} {ds : List Byte} (h : Holds b ds) (negative : Bool)
    (base : BitVec 32) (prec width : ℕ) (flags : Flags) :
    ∃ b' ds', b.formatted negative base prec width flags = some b' ∧ Holds b' ds' := by
  obtain ⟨b₁, hlead, h₁⟩ := leadingZeros_spec prec (digitsWidth negative width flags) flags h
  obtain ⟨b₂, hhash, h₂⟩ := hashPrefix_spec base prec (digitsWidth negative width flags) flags h₁
  obtain ⟨b₃, hsign, h₃⟩ := signChar_spec negative flags h₂
  refine ⟨b₃, _, ?_, h₃⟩
  simp only [Conversion.formatted, hlead, hhash, hsign, Option.bind_eq_bind, Option.bind_some]

theorem ntoaFormat_eq_bind (b : Conversion) (negative : Bool) (base : BitVec 32)
    (prec width : ℕ) (flags : Flags) (o : Cursor σ) :
    ntoaFormat out maxlen b negative base prec width flags o =
      (b.formatted negative base prec width flags).bind fun b =>
        outRev out maxlen b (digitsWidth negative width flags) flags o := by
  simp only [ntoaFormat, Conversion.formatted, Option.bind_eq_bind, Option.bind_assoc]

/-- The buffer of a conversion: digits are produced and formatted without a fault, and the cells
`_out_rev` reads were stored before. -/
structure BufferSafe (value : Word) (negative : Bool) (base : Word) (prec width : ℕ)
    (flags : Flags) (b : Conversion) : Prop where
  stores : (convertDigits value base flags).bind
    (·.formatted negative (base.setWidth 32) prec width flags) = some b
  fits : b.len ≤ ntoaBufferSize
  stored : ∀ i < b.len, ∃ c, b.buf i = some c

/-- **Buffer safety.** For every value, base, sign, precision, width and flags the conversion
completes, and every access to its buffer is in bounds and initialised. -/
theorem ntoa_buffer_safe (value : Word) (negative : Bool) (base : Word) (_hbase : 2 ≤ base)
    (prec width : ℕ) (flags : Flags) :
    ∃ fl b, fl = (if value = 0 then { flags with hash := false } else flags) ∧
      BufferSafe value negative base prec width fl b ∧
      ∀ o : Cursor σ, ∃ o', outRev out maxlen b (digitsWidth negative width fl) fl o = some o' ∧
        ntoaLong out maxlen value negative base prec width flags o = some o' ∧
        ntoaLongLong out maxlen value negative base prec width flags o = some o' := by
  obtain ⟨fl, hfl⟩ : ∃ fl, fl = if value = 0 then { flags with hash := false } else flags :=
    ⟨_, rfl⟩
  obtain ⟨b₀, hdigits, h₀⟩ := convertDigits_spec value base fl
  obtain ⟨b, ds, hformat, h⟩ := formatted_spec h₀ negative (base.setWidth 32) prec width fl
  refine ⟨fl, b, hfl, ⟨?_, ?_, ?_⟩, ?_⟩
  · rw [hdigits, Option.bind_some, hformat]
  · rw [h.len]
    exact h.fits
  · intro i hi
    rw [h.len] at hi
    exact ⟨_, h.cells i hi⟩
  · intro o
    have hrev := outRev_eq_emit out maxlen h (digitsWidth negative width fl) fl o
    have hntoa : ntoa out maxlen value negative base prec width flags o =
        outRev out maxlen b (digitsWidth negative width fl) fl o := by
      simp only [ntoa, ← hfl, hdigits, ntoaFormat_eq_bind, hformat, Option.bind_eq_bind,
        Option.bind_some]
    exact ⟨_, hrev, hntoa.trans hrev, hntoa.trans hrev⟩

/-- `%+#35b` of 10. -/
theorem ntoa_buffer_safe_binary :
    ∃ fl b, fl = (if (10 : Word) = 0 then { ({ plus := true, hash := true } : Flags) with
        hash := false } else { plus := true, hash := true }) ∧
      BufferSafe 10 false 2 0 35 fl b ∧ ∀ o : Cursor (Stores Byte), ∃ o',
        outRev outBuffer 64 b (digitsWidth false 35 fl) fl o = some o' ∧
        ntoaLong outBuffer 64 10 false 2 0 35 { plus := true, hash := true } o = some o' ∧
        ntoaLongLong outBuffer 64 10 false 2 0 35 { plus := true, hash := true } o = some o' :=
  ntoa_buffer_safe outBuffer 64 10 false 2 (by decide) 0 35 _

/-! ### Specifiers -/

/-- The value an integer specifier converts, and whether it is negative. -/
def operand (c : Byte) (flags : Flags) (a : Arg) : Word × Bool :=
  if isSigned c then
    if flags.longLong || flags.long then (magnitude a.word, a.word.slt 0)
    else (intMagnitude (intValue flags a), (intValue flags a).slt 0)
  else if flags.longLong || flags.long then (a.word, false)
  else ((uintValue flags a).setWidth 64, false)

def integerText (c : Byte) (s : Spec) (a : Arg) : List Byte :=
  let flags := integerFlags c s.flags
  ntoaText (operand c flags a).1 (operand c flags a).2 (baseOf c) s.precision s.width flags

theorem outInteger_eq_emit (c : Byte) (s : Spec) (a : Arg) (o : Cursor σ) :
    outInteger out maxlen c s a o = some (emit out maxlen (integerText c s a) o) := by
  have hntoa := ntoa_eq_emit out maxlen
  rw [outInteger, integerText, operand]
  cases isSigned c <;> cases (integerFlags c s.flags).longLong <;>
    cases (integerFlags c s.flags).long <;> exact hntoa ..

def characterText (s : Spec) (a : Arg) : List Byte :=
  padded s.flags.left (s.width - 1) [a.int.setWidth 8]

theorem outCharacter_eq_emit (s : Spec) (a : Arg) (o : Cursor σ) :
    outCharacter out maxlen s a o = emit out maxlen (characterText s a) o := by
  rw [characterText, padded]
  cases hleft : s.flags.left with
  | true => simp [outCharacter, hleft, spaces_eq_emit, emit]
  | false => simp [outCharacter, hleft, spaces_eq_emit, emit_append, emit]

def pointerText (s : Spec) (a : Arg) : List Byte :=
  ntoaText a.word false 16 s.precision 16 { s.flags with zeropad := true, uppercase := true }

theorem outPointer_eq_emit (s : Spec) (a : Arg) (o : Cursor σ) :
    outPointer out maxlen s a o = some (emit out maxlen (pointerText s a) o) :=
  ntoa_eq_emit out maxlen ..

/-- The characters of a string, up to its NUL. -/
def cString : List Byte → List Byte
  | [] => []
  | c :: p => if c = 0 then [] else c :: cString p

theorem cString_cons {c : Byte} (hc : c ≠ 0) (p : List Byte) :
    cString (c :: p) = c :: cString p := if_neg hc

theorem strnlenS_eq {p : List Byte} (hp : 0 ∈ p) (maxsize : ℕ) :
    strnlenS p maxsize = some (min (cString p).length maxsize) := by
  induction p generalizing maxsize with
  | nil => exact absurd hp List.not_mem_nil
  | cons c p ih =>
    by_cases hc : c = 0
    · simp [strnlenS, cString, hc]
    · have hp' : 0 ∈ p := (List.mem_cons.mp hp).resolve_left (Ne.symm hc)
      rw [strnlenS, if_neg hc, cString_cons hc, List.length_cons]
      cases maxsize with
      | zero => simp
      | succ m =>
        rw [if_neg (Nat.succ_ne_zero m), Nat.add_sub_cancel, ih hp', Option.map_some,
          Nat.add_min_add_right]

theorem outBytes_eq_emit {p : List Byte} (hp : 0 ∈ p) (limit : Option ℕ) (o : Cursor σ) :
    outBytes out maxlen p limit o =
      some (emit out maxlen (limit.elim (cString p) (cString p).take) o) := by
  induction p generalizing limit o with
  | nil => exact absurd hp List.not_mem_nil
  | cons c p ih =>
    by_cases hc : c = 0
    · cases limit <;> simp [outBytes, cString, hc]
    · have hp' : 0 ∈ p := (List.mem_cons.mp hp).resolve_left (Ne.symm hc)
      rw [cString_cons hc]
      match limit with
      | none =>
        simp only [outBytes, if_neg hc]
        exact ih hp' none (put out maxlen c o)
      | some 0 =>
        simp only [outBytes, if_neg hc]
        rfl
      | some (n + 1) =>
        simp only [outBytes, if_neg hc]
        exact ih hp' (some n) (put out maxlen c o)

/-- The counter `l` of a string, an unsigned 32-bit number. -/
def stringLength (s : Spec) (text : List Byte) : ℕ :=
  let l := min text.length (if s.precision ≠ 0 then s.precision else 2 ^ 64 - 1) % 2 ^ 32
  if s.flags.precision then min l s.precision else l

def stringText (s : Spec) (text : List Byte) : List Byte :=
  padded s.flags.left (s.width - stringLength s text)
    (if s.flags.precision then text.take s.precision else text)

theorem outString_eq_emit (s : Spec) {a : Arg} (ha : 0 ∈ a.bytes) (o : Cursor σ) :
    outString out maxlen s a o = some (emit out maxlen (stringText s (cString a.bytes)) o) := by
  have hbytes := fun o' => outBytes_eq_emit out maxlen ha
    (if s.flags.precision then some s.precision else none) o'
  have hchars : (if s.flags.precision then some s.precision else none : Option ℕ).elim
      (cString a.bytes) (cString a.bytes).take =
      if s.flags.precision then (cString a.bytes).take s.precision else cString a.bytes := by
    cases s.flags.precision <;> rfl
  rw [hchars] at hbytes
  rw [outString, strnlenS_eq ha, stringText, padded]
  simp only [Option.bind_eq_bind, Option.bind_some, hbytes]
  cases hleft : s.flags.left with
  | true =>
    simp only [Bool.not_true, Bool.false_eq_true, if_false, if_true, spaces_eq_emit, emit_append]
    rfl
  | false =>
    simp only [Bool.not_false, Bool.false_eq_true, if_false, if_true, spaces_eq_emit, emit_append]
    rfl

/-! ### Any format

Whatever the format and the arguments are, what reaches the sink is some text, character by
character. -/

/-- `o'` is `o` after some text. -/
def Emitted (o o' : Cursor σ) : Prop := ∃ t, o' = emit out maxlen t o

variable {out maxlen}

theorem Emitted.trans {o₁ o₂ o₃ : Cursor σ} (h₁ : Emitted out maxlen o₁ o₂)
    (h₂ : Emitted out maxlen o₂ o₃) : Emitted out maxlen o₁ o₃ := by
  obtain ⟨s, rfl⟩ := h₁
  obtain ⟨t, rfl⟩ := h₂
  exact ⟨s ++ t, (emit_append out maxlen s t o₁).symm⟩

theorem outBytes_emitted {p : List Byte} {limit : Option ℕ} {o o' : Cursor σ}
    (h : outBytes out maxlen p limit o = some o') : Emitted out maxlen o o' := by
  induction p generalizing limit o with
  | nil => exact absurd h nofun
  | cons c p ih =>
    by_cases hc : c = 0
    · simp only [outBytes, if_pos hc] at h
      exact ⟨[], (Option.some.inj h).symm⟩
    · match limit with
      | none =>
        simp only [outBytes, if_neg hc] at h
        exact Emitted.trans ⟨[c], rfl⟩ (ih h)
      | some 0 =>
        simp only [outBytes, if_neg hc] at h
        exact ⟨[], (Option.some.inj h).symm⟩
      | some (n + 1) =>
        simp only [outBytes, if_neg hc] at h
        exact Emitted.trans ⟨[c], rfl⟩ (ih h)

theorem outString_emitted {s : Spec} {a : Arg} {o o' : Cursor σ}
    (h : outString out maxlen s a o = some o') : Emitted out maxlen o o' := by
  simp only [outString, Option.bind_eq_bind, Option.bind_eq_some_iff] at h
  obtain ⟨n, -, o₂, hbytes, h⟩ := h
  have hpad : ∀ k o, Emitted out maxlen o (spaces out maxlen k o) :=
    fun k o => ⟨_, spaces_eq_emit out maxlen k o⟩
  have hmid := outBytes_emitted hbytes
  cases hleft : s.flags.left with
  | true =>
    rw [hleft] at h hmid
    obtain rfl := Option.some.inj h
    exact hmid.trans (hpad _ _)
  | false =>
    rw [hleft] at h hmid
    obtain rfl := Option.some.inj h
    exact (hpad _ _).trans hmid

theorem outSpecifier_emitted {c : Byte} {s : Spec} {va va' : List Arg} {o o' : Cursor σ}
    (h : outSpecifier out maxlen c s va o = some (va', o')) : Emitted out maxlen o o' := by
  unfold outSpecifier at h
  split at h
  · cases va with
    | nil => exact absurd h nofun
    | cons a va =>
      simp only [outInteger_eq_emit, Option.map_some] at h
      obtain ⟨-, rfl⟩ := Prod.mk.inj (Option.some.inj h)
      exact ⟨_, rfl⟩
  split at h
  · cases va with
    | nil => exact absurd h nofun
    | cons a va =>
      simp only [outCharacter_eq_emit] at h
      obtain ⟨-, rfl⟩ := Prod.mk.inj (Option.some.inj h)
      exact ⟨_, rfl⟩
  split at h
  · cases va with
    | nil => exact absurd h nofun
    | cons a va =>
      obtain ⟨o₁, hstr, h⟩ := Option.map_eq_some_iff.mp h
      obtain ⟨-, rfl⟩ := Prod.mk.inj h
      exact outString_emitted hstr
  split at h
  · cases va with
    | nil => exact absurd h nofun
    | cons a va =>
      simp only [outPointer_eq_emit, Option.map_some] at h
      obtain ⟨-, rfl⟩ := Prod.mk.inj (Option.some.inj h)
      exact ⟨_, rfl⟩
  split at h
  · obtain ⟨-, rfl⟩ := Prod.mk.inj (Option.some.inj h)
    exact ⟨[ch '%'], rfl⟩
  · obtain ⟨-, rfl⟩ := Prod.mk.inj (Option.some.inj h)
    exact ⟨[c], rfl⟩

theorem vsnprintfLoop_emitted {fuel : ℕ} {format format' : List Byte} {va : List Arg}
    {o o' : Cursor σ} (h : vsnprintfLoop out maxlen fuel format va o = some (format', o')) :
    Emitted out maxlen o o' := by
  induction fuel generalizing format va o with
  | zero => exact absurd h nofun
  | succ fuel ih =>
    cases format with
    | nil => exact absurd h nofun
    | cons c format =>
      rw [vsnprintfLoop] at h
      split at h
      · obtain ⟨-, rfl⟩ := Prod.mk.inj (Option.some.inj h)
        exact ⟨[], rfl⟩
      split at h
      · exact Emitted.trans ⟨[c], rfl⟩ (ih h)
      · simp only [Option.bind_eq_bind, Option.bind_eq_some_iff] at h
        obtain ⟨⟨s, rest, va₁⟩, -, h⟩ := h
        cases rest with
        | nil => exact absurd h nofun
        | cons c' rest =>
          obtain ⟨⟨va₂, o₂⟩, hspec, h⟩ := Option.bind_eq_some_iff.mp h
          exact (outSpecifier_emitted hspec).trans (ih h)

/-- What `_vsnprintf` leaves in the sink: some text and the terminator. -/
theorem internalVsnprintf_emitted {format : List Byte} {va : List Arg} {buffer buffer' : σ} {r : ℤ}
    (h : internalVsnprintf out maxlen false format va buffer = some (r, buffer')) :
    ∃ t last, buffer' = out 0 last maxlen (emit out maxlen t ⟨0, buffer⟩).state := by
  simp only [internalVsnprintf, Bool.false_eq_true, if_false, Option.bind_eq_bind,
    Option.bind_eq_some_iff] at h
  obtain ⟨⟨format', o⟩, hloop, h⟩ := h
  obtain ⟨t, rfl⟩ := vsnprintfLoop_emitted hloop
  obtain ⟨-, rfl⟩ := Prod.mk.inj (Option.some.inj h)
  exact ⟨t, _, rfl⟩

end Emit

end MegaOS.Log
