import MegaOS.Log.Directive

/-!
# Strings with a precision

`%.Ns` is meant for a buffer of `N` bytes that need not end in a NUL. The length
helper looks for the NUL before it looks at its limit, and so does the output
loop: without a NUL in the buffer both read the byte behind it.
-/

namespace MegaOS.Log

open MegaOS.Memory MegaOS.Emission

/-! ### The number a directive states -/

/-- A precision as it is written or passed, of any size. A negative argument states none. -/
def Precision.stated : Precision → List Arg → Option ℕ
  | .none, _ => Option.none
  | .number digits, _ => some (digits.foldl (fun i d => i * 10 + d.val) 0)
  | .star, [] => Option.none
  | .star, a :: _ => if a.int.slt 0 then Option.none else some a.int.toNat

/-- The parser keeps a stated precision modulo `2^32`. -/
theorem Precision.kept_of_stated {p : Precision} {va : List Arg} {N : ℕ}
    (hN : p.stated va = some N) (flags : Flags) :
    (p.set flags).precision = true ∧ p.kept va = N % 2 ^ 32 := by
  cases p with
  | none => exact absurd hN.symm (Option.some_ne_none _)
  | number digits =>
    obtain rfl := Option.some.inj hN
    exact ⟨rfl, digitsValue_eq_mod 0 digits⟩
  | star =>
    cases va with
    | nil => exact absurd hN.symm (Option.some_ne_none _)
    | cons a va =>
      refine ⟨rfl, ?_⟩
      rw [Precision.stated] at hN
      split at hN
      · exact absurd hN.symm (Option.some_ne_none _)
      · rename_i hneg
        obtain rfl := Option.some.inj hN
        rw [Nat.mod_eq_of_lt a.int.isLt, Precision.kept]
        split
        · rfl
        · rename_i hpos
          -- neither negative nor positive
          have hzero : a.int = 0#32 := by
            apply BitVec.eq_of_toInt_eq
            have h0 : (0#32).toInt = 0 := rfl
            rw [BitVec.slt, decide_eq_true_iff] at hneg hpos
            change ¬a.int.toInt < (0#32).toInt at hneg
            omega
          rw [hzero]
          rfl

theorem Length.set_precision (len : Length) (flags : Flags) :
    (len.set flags).precision = flags.precision := by
  cases len <;> rfl

/-- What the parser leaves for a directive that states a precision. -/
theorem Directive.resolve_stated {d : Directive} {va va' : List Arg} {s : Spec} {N : ℕ}
    (h : d.resolve va = some (s, va'))
    (hN : d.precision.stated (va.drop d.width.kinds.length) = some N) :
    s.flags.precision = true ∧ s.precision = N % 2 ^ 32 ∧ s.width < 2 ^ 32 := by
  obtain ⟨flags, va₁, hw, hp, hflags⟩ := Directive.resolve_spec h
  obtain ⟨rfl, hwidth, -⟩ := Width.resolve_spec hw
  obtain ⟨-, hprec, -⟩ := Precision.resolve_spec hp
  obtain ⟨hset, hkept⟩ := Precision.kept_of_stated hN flags
  rw [hflags, hwidth, hprec]
  exact ⟨(Length.set_precision _ _).trans hset, hkept, Width.kept_lt _ _⟩

/-! ### Without a NUL -/

theorem cString_of_notMem {p : List Byte} (hp : 0 ∉ p) : cString p = p := by
  induction p with
  | nil => rfl
  | cons c p ih =>
    rw [List.mem_cons, not_or] at hp
    rw [cString_cons (Ne.symm hp.1), ih hp.2]

/-- The length helper reads one byte more than it counts. -/
theorem strnlenS_of_notMem {p : List Byte} (hp : 0 ∉ p) {maxsize n : ℕ}
    (h : strnlenS p maxsize = some n) : n = maxsize ∧ maxsize < p.length := by
  induction p generalizing maxsize n with
  | nil => exact absurd h.symm (Option.some_ne_none _)
  | cons c p ih =>
    rw [List.mem_cons, not_or] at hp
    rw [strnlenS, if_neg (Ne.symm hp.1)] at h
    split at h
    · rename_i hzero
      obtain rfl := Option.some.inj h
      exact ⟨hzero.symm, hzero ▸ Nat.succ_pos _⟩
    · obtain ⟨m, hm, rfl⟩ := Option.map_eq_some_iff.mp h
      obtain ⟨rfl, hlt⟩ := ih hp.2 hm
      rw [List.length_cons]
      omega

section Output

variable {σ : Type} (out : OutFct σ) (maxlen : ℕ)

/-- So does the output loop. -/
theorem outBytes_of_notMem {p : List Byte} (hp : 0 ∉ p) {n : ℕ} {o o' : Cursor σ}
    (h : outBytes out maxlen p (some n) o = some o') : o'.idx = o.idx + n ∧ n < p.length := by
  induction p generalizing n o with
  | nil => exact absurd h.symm (Option.some_ne_none _)
  | cons c p ih =>
    rw [List.mem_cons, not_or] at hp
    cases n with
    | zero =>
      simp only [outBytes, if_neg (Ne.symm hp.1)] at h
      obtain rfl := Option.some.inj h
      exact ⟨rfl, Nat.succ_pos _⟩
    | succ n =>
      simp only [outBytes, if_neg (Ne.symm hp.1)] at h
      obtain ⟨hidx, hlt⟩ := ih hp.2 h
      refine ⟨?_, Nat.succ_lt_succ hlt⟩
      rw [hidx]
      show o.idx + 1 + n = _
      omega

/-- Without a NUL the output is cut off before the end of the buffer, if the buffer is not left. -/
theorem outString_of_notMem {s : Spec} {a : Arg} (ha : 0 ∉ a.bytes)
    (hflag : s.flags.precision = true) (hwidth : s.width < 2 ^ 32) (hprec : s.precision < 2 ^ 32)
    {o o' : Cursor σ} (h : outString out maxlen s a o = some o') :
    s.precision < a.bytes.length ∧ o'.idx < o.idx + 2 ^ 32 := by
  simp only [outString, Option.bind_eq_bind, Option.bind_eq_some_iff, hflag, if_true] at h
  obtain ⟨n, hn, o₂, hbytes, h⟩ := h
  obtain ⟨hidx, hlt⟩ := outBytes_of_notMem out maxlen ha hbytes
  refine ⟨hlt, ?_⟩
  have hcount : min (n % 2 ^ 32) s.precision = s.precision := by
    obtain ⟨rfl, -⟩ := strnlenS_of_notMem ha hn
    by_cases hzero : s.precision = 0
    · rw [hzero, Nat.min_zero]
    · rw [if_pos hzero, Nat.mod_eq_of_lt hprec, Nat.min_self]
  have hspaces : ∀ o : Cursor σ, (spaces out maxlen (s.width - s.precision) o).idx =
      o.idx + (s.width - s.precision) := by
    intro o
    rw [spaces_eq_emit, emit_idx, List.length_replicate]
  rw [hcount] at h hidx
  cases hleft : s.flags.left with
  | true =>
    simp only [hleft, Bool.not_true, Bool.false_eq_true, if_false, if_true] at h hidx
    obtain rfl := Option.some.inj h
    rw [hspaces, hidx]
    omega
  | false =>
    simp only [hleft, Bool.not_false, Bool.false_eq_true, if_false, if_true, hspaces] at h hidx
    obtain rfl := Option.some.inj h
    rw [hidx]
    omega

end Output

/-! ### Characters that are cut off -/

/-- What lies behind the first `n` characters cannot be told from padding. -/
def SpacesOnly (left : Bool) (width n : ℕ) (text : List Byte) : Prop :=
  text.length ≤ width ∧ ∀ c ∈ (if left then text.drop n else text), c = ch ' '

instance (left : Bool) (width n : ℕ) (text : List Byte) :
    Decidable (SpacesOnly left width n text) :=
  inferInstanceAs (Decidable (_ ∧ _))

/-- A text that is its own shift behind spaces is all spaces. -/
theorem eq_space_of_shift {m : ℕ} (hm : 0 < m) {n : ℕ} {text : List Byte}
    (h : List.replicate m (ch ' ') ++ text.take n = text) : ∀ c ∈ text, c = ch ' ' := by
  have hall : ∀ (i : ℕ) (c : Byte), text[i]? = some c → c = ch ' ' := by
    intro i
    induction i using Nat.strong_induction_on with
    | _ i ih =>
      intro c hc
      rw [← h] at hc
      by_cases hlt : i < m
      · rw [List.getElem?_append_left (by rw [List.length_replicate]; exact hlt)] at hc
        exact List.eq_of_mem_replicate (List.mem_of_getElem? hc)
      · rw [List.getElem?_append_right (by rw [List.length_replicate]; omega), List.getElem?_take,
          List.length_replicate] at hc
        split at hc
        · exact ih (i - m) (by omega) c hc
        · exact absurd hc.symm (Option.some_ne_none c)
  intro c hc
  obtain ⟨i, hi⟩ := List.mem_iff_getElem?.mp hc
  exact hall i c hi

theorem padded_take_eq_iff (left : Bool) (width : ℕ) {n : ℕ} {text : List Byte}
    (hn : n < text.length) :
    padded left (width - n) (text.take n) = padded left (width - text.length) text ↔
      SpacesOnly left width n text := by
  have hlen : (text.take n).length = n := by
    rw [List.length_take]
    omega
  have hwidth : text.length ≤ width → width - n = text.length - n + (width - text.length) := by
    omega
  cases left with
  | true =>
    simp only [padded, SpacesOnly, if_true]
    constructor
    · intro h
      have hlens := congrArg List.length h
      simp only [List.length_append, List.length_replicate, hlen] at hlens
      have hle : text.length ≤ width := by omega
      refine ⟨hle, ?_⟩
      have hwhole : text.take n ++ List.replicate (width - n) (ch ' ') =
          text.take n ++ (text.drop n ++ List.replicate (width - text.length) (ch ' ')) := by
        rw [h, ← List.append_assoc, List.take_append_drop]
      have hcut := List.append_cancel_left hwhole
      intro c hc
      exact List.eq_of_mem_replicate (hcut ▸ List.mem_append_left _ hc)
    · rintro ⟨hle, hspaces⟩
      have hdrop : text.drop n = List.replicate (text.length - n) (ch ' ') := by
        rw [← List.length_drop]
        exact List.eq_replicate_of_mem hspaces
      rw [hwidth hle, List.replicate_add, ← hdrop, ← List.append_assoc,
        List.take_append_drop]
  | false =>
    simp only [padded, SpacesOnly, Bool.false_eq_true, if_false]
    constructor
    · intro h
      have hlens := congrArg List.length h
      simp only [List.length_append, List.length_replicate, hlen] at hlens
      have hle : text.length ≤ width := by omega
      refine ⟨hle, eq_space_of_shift (m := text.length - n) (by omega) (n := n) ?_⟩
      rw [hwidth hle, Nat.add_comm, List.replicate_add, List.append_assoc] at h
      exact List.append_cancel_left h
    · rintro ⟨hle, hspaces⟩
      rw [List.eq_replicate_of_mem hspaces, List.take_replicate, List.length_replicate,
        List.replicate_append_replicate, List.replicate_append_replicate]
      congr 1
      omega

/-! ### The buffer of a directive -/

/-- `%s` reads within the bytes of its argument, and outputs those before the first NUL, padded. -/
def StringBounded (d : Directive) (va : List Arg) (a : Arg) : Prop :=
  ∃ s va', (∀ rest, scanDirective (d.bytesBefore rest) va = some (s, ch 's' :: rest, a :: va')) ∧
    ∀ (σ : Type) (out : OutFct σ) (maxlen : ℕ) (o : Cursor σ), outString out maxlen s a o =
      some (emit out maxlen
        (padded s.flags.left (s.width - (cString a.bytes).length) (cString a.bytes)) o)

/-- The text of a terminated buffer, cut off at the precision. -/
theorem stringText_of_precision {s : Spec} (hflag : s.flags.precision = true)
    (hprec : s.precision < 2 ^ 32) (text : List Byte) : stringText s text =
      padded s.flags.left (s.width - min text.length s.precision) (text.take s.precision) := by
  have hcount : stringLength s text = min text.length s.precision := by
    simp only [stringLength, hflag, if_true]
    by_cases hzero : s.precision = 0
    · rw [hzero, Nat.min_zero, Nat.min_zero]
    · rw [if_pos hzero, Nat.mod_eq_of_lt (by omega)]
      omega
  rw [stringText, hcount, if_pos hflag]

/-- **A precision bounds the bytes read** if and only if the buffer holds a NUL; and where the
stated number does not fit in 32 bits, only if what its remainder cuts off are spaces. -/
theorem string_bounded_iff {d : Directive} (hd : d.specifier = .string) {va va' : List Arg}
    {a : Arg} {s : Spec} (hres : d.resolve va = some (s, a :: va')) {N : ℕ}
    (hN : d.precision.stated (va.drop d.width.kinds.length) = some N) (ha : a.bytes.length = N) :
    StringBounded d va a ↔ 0 ∈ a.bytes ∧ ((cString a.bytes).length ≤ N % 2 ^ 32 ∨
      SpacesOnly s.flags.left s.width (N % 2 ^ 32) (cString a.bytes)) := by
  obtain ⟨hflag, hprec, hwidth⟩ := Directive.resolve_stated hres hN
  have hlt : s.precision < 2 ^ 32 := hprec ▸ Nat.mod_lt _ (by decide)
  have hscan : ∀ rest, scanDirective (d.bytesBefore rest) va =
      some (s, ch 's' :: rest, a :: va') := by
    intro rest
    have hread := Directive.scan_of_resolve hres rest
    rw [hd] at hread
    exact hread
  have hunique : StringBounded d va a ↔ ∀ (σ : Type) (out : OutFct σ) (maxlen : ℕ) (o : Cursor σ),
      outString out maxlen s a o = some (emit out maxlen
        (padded s.flags.left (s.width - (cString a.bytes).length) (cString a.bytes)) o) := by
    constructor
    · rintro ⟨s', va₂, hscan', hout⟩
      have hs := (hscan []).symm.trans (hscan' [])
      obtain ⟨rfl, -⟩ := Prod.mk.inj (Option.some.inj hs)
      exact hout
    · exact fun hout => ⟨s, va', hscan, hout⟩
  rw [hunique, ← hprec]
  by_cases h0 : 0 ∈ a.bytes
  · rw [and_iff_right h0]
    have htext : (∀ (σ : Type) (out : OutFct σ) (maxlen : ℕ) (o : Cursor σ),
        outString out maxlen s a o = some (emit out maxlen
          (padded s.flags.left (s.width - (cString a.bytes).length) (cString a.bytes)) o)) ↔
        stringText s (cString a.bytes) =
          padded s.flags.left (s.width - (cString a.bytes).length) (cString a.bytes) := by
      constructor
      · intro h
        have hrec := (outString_eq_emit record 0 s h0 ⟨0, []⟩).symm.trans (h _ record 0 ⟨0, []⟩)
        exact emit_record_inj (Option.some.inj hrec)
      · intro h σ out maxlen o
        rw [outString_eq_emit out maxlen s h0, h]
    rw [htext, stringText_of_precision hflag hlt]
    by_cases hle : (cString a.bytes).length ≤ s.precision
    · rw [Nat.min_eq_left hle, List.take_of_length_le hle]
      exact iff_of_true rfl (.inl hle)
    · rw [Nat.min_eq_right (Nat.le_of_not_le hle), or_iff_right hle]
      exact padded_take_eq_iff _ _ (Nat.lt_of_not_le hle)
  · refine iff_of_false ?_ (fun h => h0 h.1)
    intro h
    have hout := h (List Byte) record 0 ⟨0, []⟩
    obtain ⟨hshort, hidx⟩ := outString_of_notMem _ _ h0 hflag hwidth hlt hout
    rw [emit_idx, cString_of_notMem h0] at hidx
    -- a buffer longer than the precision kept is longer than any width
    have hbig : 2 ^ 32 ≤ a.bytes.length := by
      rw [hprec, ha] at hshort
      rw [ha]
      by_contra hsmall
      rw [Nat.mod_eq_of_lt (Nat.lt_of_not_le hsmall)] at hshort
      exact Nat.lt_irrefl _ hshort
    rw [padded] at hidx
    split at hidx
    · rw [List.length_append] at hidx
      omega
    · rw [List.length_append] at hidx
      omega

/-- `%-6.*s` with a precision of 4 and a buffer of 4 bytes, the third one NUL. -/
theorem string_bounded_iff_star :
    StringBounded ⟨[.minus], .number 5 [], .star, .none, .string⟩
        [⟨4, []⟩, ⟨0, [ch 'o', ch 'k', 0, ch '!']⟩] ⟨0, [ch 'o', ch 'k', 0, ch '!']⟩ ↔
      0 ∈ [ch 'o', ch 'k', 0, ch '!'] ∧
        ((cString [ch 'o', ch 'k', 0, ch '!']).length ≤ 4 % 2 ^ 32 ∨
          SpacesOnly true 6 (4 % 2 ^ 32) (cString [ch 'o', ch 'k', 0, ch '!'])) := by
  have hres : Directive.resolve ⟨[.minus], .number 5 [], .star, .none, .string⟩
      [⟨4, []⟩, ⟨0, [ch 'o', ch 'k', 0, ch '!']⟩] =
        some (⟨{ left := true, precision := true }, 6, 4⟩,
          [⟨0, [ch 'o', ch 'k', 0, ch '!']⟩]) := rfl
  exact string_bounded_iff rfl hres rfl rfl

/-- `%.3s` and a buffer of three letters: the byte behind it is read. -/
theorem unterminated_buffer_not_bounded :
    ¬StringBounded { precision := .number [3], specifier := .string }
      [⟨0, [ch 'a', ch 'b', ch 'c']⟩] ⟨0, [ch 'a', ch 'b', ch 'c']⟩ := by
  rintro ⟨s, va', hscan, hout⟩
  have hs := (scanDirective_bytes _ [] _).symm.trans (hscan [])
  obtain ⟨rfl, -⟩ := Prod.mk.inj (Option.some.inj hs)
  have hfault := hout Unit outNull 0 ⟨0, ()⟩
  exact absurd hfault.symm (Option.some_ne_none _)

end MegaOS.Log
