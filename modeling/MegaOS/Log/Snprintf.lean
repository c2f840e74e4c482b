import MegaOS.Log.Directive

/-!
# Bounded formatting

`snprintf` and `vsnprintf` store what `sprintf` stores, cut off at the count and
terminated; the value they return does not depend on the count.
-/

namespace MegaOS.Log

open MegaOS.Memory MegaOS.Emission

/-- `_vsnprintf` on a complete format with matching arguments: the text goes to the sink, then the
terminator, and the text's length is returned. -/
theorem internalVsnprintf_eq {σ : Type} (out : OutFct σ) (maxlen : ℕ) {items : List Item}
    {va : List Arg} {t : List Byte} (ht : formatText items va = some t)
    (hlen : t.length < 2 ^ 31) (buffer : σ) :
    internalVsnprintf out maxlen false (formatBytes items) va buffer =
      some ((t.length : ℤ),
        out 0 (if t.length < maxlen then t.length else (maxlen + 2 ^ 64 - 1) % 2 ^ 64) maxlen
          (emit out maxlen t ⟨0, buffer⟩).state) := by
  have hfuel : items.length < (formatBytes items).length + 1 :=
    Nat.lt_succ_of_le (length_le_formatBytes items)
  have hint : (BitVec.ofNat 32 t.length).toInt = (t.length : ℤ) := by
    rw [BitVec.toInt_eq_toNat_of_lt, BitVec.toNat_ofNat, Nat.mod_eq_of_lt (by omega)]
    rw [BitVec.toNat_ofNat]
    omega
  simp only [internalVsnprintf, Bool.false_eq_true, if_false,
    vsnprintfLoop_eq_emit out maxlen ht hfuel, Option.bind_eq_bind, Option.bind_some, emit_idx,
    Nat.zero_add, hint]

theorem emit_outNull {σ : Type} (maxlen : ℕ) (t : List Byte) (o : Cursor σ) :
    (emit outNull maxlen t o).state = o.state := by
  induction t generalizing o with
  | nil => rfl
  | cons c t ih => exact ih (put outNull maxlen c o)

/-- A null buffer: the same value, and nothing stored. -/
theorem internalVsnprintf_null {σ : Type} (out : OutFct σ) (maxlen : ℕ) {items : List Item}
    {va : List Arg} {t : List Byte} (ht : formatText items va = some t)
    (hlen : t.length < 2 ^ 31) (buffer : σ) :
    internalVsnprintf out maxlen true (formatBytes items) va buffer =
      some ((t.length : ℤ), buffer) := by
  have hnull : internalVsnprintf out maxlen true (formatBytes items) va buffer =
      internalVsnprintf outNull maxlen false (formatBytes items) va buffer := rfl
  rw [hnull, internalVsnprintf_eq outNull maxlen ht hlen]
  show some ((t.length : ℤ), (emit outNull maxlen t ⟨0, buffer⟩).state) = _
  rw [emit_outNull]

/-- A non-null buffer: the stores are those of the terminated text. -/
theorem vsnprintf_eq {items : List Item} {va : List Arg} {t : List Byte}
    (ht : formatText items va = some t) (hlen : t.length < 2 ^ 31) {count : ℕ}
    (hcount : count < 2 ^ 64) :
    vsnprintf false count (formatBytes items) va =
      some ((t.length : ℤ), storeTerminated count t 0) := by
  refine (internalVsnprintf_eq outBuffer count ht hlen []).trans ?_
  rcases Nat.eq_zero_or_pos count with rfl | hpos
  · -- the terminator's index wraps to the largest `size_t`
    rfl
  · have hlast : (if t.length < count then t.length else (count + 2 ^ 64 - 1) % 2 ^ 64) =
        min t.length (count - 1) := by
      rw [show count + 2 ^ 64 - 1 = count - 1 + 2 ^ 64 by omega, Nat.add_mod_right,
        Nat.mod_eq_of_lt (show count - 1 < 2 ^ 64 by omega)]
      split <;> omega
    rw [hlast]
    rfl

/-- A call with count `n` that stores `w`, against the call without a bound that stores `full` and
returns `r`. -/
structure Truncation (n r : ℕ) (full w : Stores Byte) : Prop where
  /-- Stores are below the count: none at all when it is 0. -/
  below : ∀ s ∈ w, s.1 < n
  /-- The cells before the terminator are those of the unbounded call. -/
  text : ∀ before before' i, i < min r (n - 1) → contents before w i = contents before' full i
  terminated : 1 ≤ n → ∀ before, contents before w (min r (n - 1)) = 0

/-- `snprintf` and `vsnprintf` on a format, at every count and with a null buffer, against
`sprintf`. -/
def TruncatesSprintf (items : List Item) (va : List Arg) : Prop :=
  ∃ t, formatText items va = some t ∧ (t.length < 2 ^ 31 →
    ∃ full, sprintf (formatBytes items) va = some ((t.length : ℤ), full) ∧
      (∀ before, (∀ i (hi : i < t.length), contents before full i = t[i]) ∧
        contents before full t.length = 0) ∧
      ∀ n < 2 ^ 64, ∃ w, snprintf false n (formatBytes items) va = some ((t.length : ℤ), w) ∧
        vsnprintf false n (formatBytes items) va = some ((t.length : ℤ), w) ∧
        Truncation n t.length full w ∧
        snprintf true n (formatBytes items) va = some ((t.length : ℤ), []) ∧
        vsnprintf true n (formatBytes items) va = some ((t.length : ℤ), []))

/-- **Bounded formatting is a truncation of unbounded formatting**, for every complete format and
matching arguments. -/
theorem snprintf_truncates (items : List Item) (va : List Arg) (hva : Matches items va) :
    TruncatesSprintf items va := by
  obtain ⟨t, ht⟩ := formatText_of_matches hva
  refine ⟨t, ht, ?_⟩
  intro hlen
  have hfull : sprintf (formatBytes items) va =
      some ((t.length : ℤ), storeTerminated sizeMax t 0) :=
    vsnprintf_eq ht hlen (show sizeMax < 2 ^ 64 by decide)
  have hcells := fun before => contents_storeTerminated before (show 0 < sizeMax by decide) t 0
  have hmin : min t.length (sizeMax - 1) = t.length := by
    rw [sizeMax]
    omega
  have hget : ∀ before i (hi : i < t.length),
      contents before (storeTerminated sizeMax t 0) i = t[i] := by
    intro before i hi
    exact (hcells before).1 i hi (by omega)
  refine ⟨_, hfull, ?_, ?_⟩
  · intro before
    have hzero := (hcells before).2
    rw [hmin] at hzero
    exact ⟨hget before, hzero⟩
  · intro n hn
    have hv := vsnprintf_eq ht hlen hn
    have hnull := internalVsnprintf_null outBuffer n ht hlen []
    refine ⟨storeTerminated n t 0, hv, hv, ⟨?_, ?_, ?_⟩, hnull, hnull⟩
    · exact storeTerminated_lt n t 0
    · intro before before' i hi
      have hbound := contents_storeTerminated before (show 0 < n by omega) t 0
      rw [hbound.1 i (by omega) (by omega), hget before' i (by omega)]
    · intro hpos before
      exact (contents_storeTerminated before hpos t 0).2

/-- The format `-%-5d|%.*s%%` with a negative number, a precision and a string. -/
theorem snprintf_truncates_demo :
    TruncatesSprintf
      [.literal ⟨ch '-', by decide⟩,
        .directive { flags := [.minus], width := .number 4 [], specifier := .integer .d },
        .literal ⟨ch '|', by decide⟩,
        .directive { precision := .star, specifier := .string },
        .directive { specifier := .percent }]
      [⟨-42, []⟩, ⟨2, []⟩, ⟨0, [ch 'M', ch 'e', ch 'g', ch 'a', 0]⟩] :=
  snprintf_truncates _ _ ⟨trivial, trivial, show (0 : Byte) ∈ _ by decide, trivial⟩

end MegaOS.Log
